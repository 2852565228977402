import ShieldReduce.Invariant.Protocol

/-!
# A client and its session

A `ShieldReduceClient` and the thread of its session follow one script:
what the client has sent is a prefix of it, and what the session has read
says where the session is. Each side is described by what it has sent and
read itself (`ClientSide`, `ServerSide`), so a step of one side does not
touch what is known of the other; they meet where a message is received.
Other connections, whatever they do, touch neither.
-/

namespace ShieldReduce.Protocol

open ByteLib UMapLib StepLib

/-- What the code relies on in its session cipher. -/
structure SessionCipher (env : Env) : Prop where
  dec : ∀ k x, env.sessionKeyDec k (env.sessionKeyEnc k x) = x
  length : ∀ k x, (env.sessionKeyEnc k x).length = x.length

/-- The two sides of an exchange derive one key. -/
structure KeyExchange.Agrees (kx : KeyExchange) : Prop where
  derives : ∀ a b, (kx.derivedShared (kx.publicKey a) b).isSome
  same : ∀ a b, kx.derivedShared (kx.publicKey a) b = kx.derivedShared (kx.publicKey b) a

/-- The operation that a client asks for, if it asks for one. -/
def Task.opt : Task → Option Opt
  | .upload false _ _ => some .upload
  | .upload true _ _ => some .offline
  | .download => some .download
  | .ra => none

theorem Task.upload_ne_none (offline : Bool) (chunks : List Chunk) (recipeHead : BytesN 16) :
    (Task.upload offline chunks recipeHead).opt ≠ none := by
  cases offline <;> exact Option.some_ne_none _

theorem Task.upload_ne_download (offline : Bool) (chunks : List Chunk) (recipeHead : BytesN 16) :
    (Task.upload offline chunks recipeHead).opt ≠ some .download := by
  cases offline <;> intro h <;> cases h

namespace ThreadAt

/-- Between the request for a key and the exchange. -/
def exchanging : ThreadAt → Option UInt32
  | .lockSet c => some c
  | .findLock c => some c
  | .lockClient c => some c
  | .unlockSet c => some c
  | .keyExchange c => some c
  | _ => none

/-- Between the login and the enclave's client. -/
def loggingIn : ThreadAt → Option (UInt32 × Opt)
  | .checkFileStatus c opt => some (c, opt)
  | .newClientVar c opt => some (c, opt)
  | .initClient c opt => some (c, opt)
  | _ => none

/-- After the session's other thread. -/
def ending : ThreadAt → Bool
  | .processOff _ => true
  | .destroyClient _ => true
  | .unlockClient _ => true
  | .returned => true
  | _ => false

end ThreadAt

variable {ι : Type} {env : Env} {kx : KeyExchange} {setup : Setup ι kx} {i : ι}

/-- A connection of a `ShieldReduceClient`, and the key that its two sides derive. -/
structure Pairing (setup : Setup ι kx) (i : ι) where
  c : Client kx
  key : Key
  client : setup.client i = some c
  server : kx.derivedShared (kx.publicKey c.privateKey) (setup.privateKey i) = some key
  agreed : kx.derivedShared (kx.publicKey (setup.privateKey i)) c.privateKey = some key

/-- Every client has a session that derives its key. -/
theorem Pairing.exists (hkx : kx.Agrees) {c : Client kx} (hc : setup.client i = some c) :
    ∃ p : Pairing setup i, p.c = c := by
  obtain ⟨k, hk⟩ := Option.isSome_iff_exists.mp (hkx.derives c.privateKey (setup.privateKey i))
  exact ⟨⟨c, k, hc, hk, (hkx.same _ _).symm.trans hk⟩, rfl⟩

namespace Pairing

variable (env) (p : Pairing setup i)

/-- What follows the login. -/
def dataMessages : List Message :=
  match p.c.task with
  | .upload _ _ _ => p.c.uploadMessages env p.key
  | .download => [p.c.ready]
  | .ra => []

/-- Everything that the client sends. -/
def script : List Message :=
  if p.c.task.opt = none then [p.c.raDecision]
  else [p.c.raDecision, p.c.keyInit, p.c.login env p.key] ++ p.dataMessages env

/-- The message of the server with its key. -/
def reply : Message where
  messageType := .sessionKeyReply
  clientID := p.c.clientID
  dataSize := UInt32.ofNat SESSION_KEY_BUFFER_SIZE
  currentItemNum := 0
  data := (kx.publicKey (setup.privateKey i)).1

def response : Message where
  messageType := .serverLoginResponse
  clientID := p.c.clientID
  dataSize := UInt32.ofNat (CHUNK_HASH_SIZE + CHUNK_HASH_SIZE)
  currentItemNum := 0
  data := if p.c.task.opt = some .download then (setup.recipeHead i).1 else []

def nonExist : Message where
  messageType := .serverFileNonExist
  clientID := p.c.clientID
  dataSize := UInt32.ofNat (CHUNK_HASH_SIZE + CHUNK_HASH_SIZE)
  currentItemNum := 0
  data := []

/-- What the enclave sends for a restore. -/
def batches : List Message :=
  match setup.restored i with
  | some restored => restoreMessages env p.c.clientID p.key restored
  | none => []

def enclaveClient : EnclaveClient := ⟨p.c.clientID, p.key, p.c.masterKey env⟩

/-! ## The client's side -/

/-- A download whose chunks are all there. -/
def complete (setup : Setup ι kx) (i : ι) (s : Connection) : Bool :=
  decide (s.outputMQ.length % 2 ^ 64 = ofLe64 ((setup.recipeHead i).1.drop 8))

/-- What the client has sent and read where it is. -/
def AtClient (s : Connection) : Prop :=
  match s.clientAt with
  | .sendRa => s.toServer.sent = [] ∧ s.toClient.read = 0
  | .sendKeyInit =>
      p.c.task.opt ≠ none ∧ s.toServer.sent = [p.c.raDecision] ∧ s.toClient.read = 0
  | .recvReply =>
      p.c.task.opt ≠ none ∧ s.toServer.sent = [p.c.raDecision, p.c.keyInit] ∧ s.toClient.read = 0
  | .sendLogin k => k = p.key ∧
      p.c.task.opt ≠ none ∧ s.toServer.sent = [p.c.raDecision, p.c.keyInit] ∧ s.toClient.read = 1
  | .recvResponse k => k = p.key ∧ p.c.task.opt ≠ none ∧
      s.toServer.sent = [p.c.raDecision, p.c.keyInit, p.c.login env p.key] ∧ s.toClient.read = 1
  | .sendData rest => p.c.task.opt ≠ none ∧ p.c.task.opt ≠ some .download ∧
      s.toServer.sent ++ rest = p.script env ∧ 3 ≤ s.toServer.sent.length ∧
      s.toClient.read = 2 ∧ s.toClient.sent[1]? = some p.response
  | .sendReady k head => k = p.key ∧ head = setup.recipeHead i ∧ p.c.task.opt = some .download ∧
      s.toServer.sent = [p.c.raDecision, p.c.keyInit, p.c.login env p.key] ∧
      s.toClient.read = 2 ∧ s.toClient.sent[1]? = some p.response
  | .recvData k head => k = p.key ∧ head = setup.recipeHead i ∧ p.c.task.opt = some .download ∧
      s.toServer.sent = p.script env ∧ 2 ≤ s.toClient.read ∧
      (p.batches env ≠ [] → s.toClient.read < 2 + (p.batches env).length)
  | .finish => p.c.task.opt ≠ some .download ∧ s.toServer.sent = p.script env ∧
      (p.c.task.opt ≠ none → s.toClient.read = 2)
  | .exited success =>
      (p.c.task.opt ≠ some .download ∧ success = true ∧ s.toServer.sent = p.script env ∧
        (p.c.task.opt ≠ none → s.toClient.read = 2)) ∨
      (p.c.task.opt = some .download ∧ success = complete setup i s ∧
        s.toServer.sent = p.script env ∧ s.toClient.read = 2 + (p.batches env).length) ∨
      (p.c.task.opt = some .download ∧ success = false ∧ s.toClient.read = 2 ∧
        s.toClient.sent[1]? = some p.nonExist ∧
        s.toServer.sent = [p.c.raDecision, p.c.keyInit, p.c.login env p.key])
  | .killed => True
  | .foreign => False

structure ClientSide (s : Connection) : Prop where
  place : p.AtClient env s
  script : s.toServer.sent <+: p.script env
  answered : 3 ≤ s.toServer.sent.length → 1 ≤ s.toClient.read
  responded : 4 ≤ s.toServer.sent.length →
    2 ≤ s.toClient.read ∧ s.toClient.sent[1]? = some p.response
  output : s.outputMQ =
    ((s.toClient.sent.take s.toClient.read).drop 2).flatMap (Client.chunksOf env p.key)
  closed : s.closed = !s.clientAt.live

/-! ## The session's side -/

/-- The fields of the session. -/
structure Sees (s : Connection) (derived : Option Key) (sgxClient : Option EnclaveClient)
    (workerAt : WorkerAt) (processed : List Message) (read : Nat) (sent : List Message) : Prop where
  derived : s.derived = derived
  sgxClient : s.sgxClient = sgxClient
  workerAt : s.workerAt = workerAt
  processed : s.processed = processed
  read : s.toServer.read = read
  sent : s.toClient.sent = sent

/-- A buffer with this message. -/
structure Buffered (buf m : Message) : Prop where
  clientID : buf.clientID = m.clientID
  dataSize : buf.dataSize = m.dataSize
  currentItemNum : buf.currentItemNum = m.currentItemNum
  data : m.data <+: buf.data

/-- The other thread has sent nothing: what it has processed, and where it reads. -/
inductive Receiving : WorkerAt → List Message → Nat → Prop
  | recvChunks (r : Nat) (hr : 3 ≤ r) (hopt : p.c.task.opt ≠ some .download) :
      Receiving .recvChunks (((p.script env).take r).drop 3) r
  | exited (r : Nat) (hr : 3 ≤ r) (hopt : p.c.task.opt ≠ some .download) :
      Receiving .exited (((p.script env).take r).drop 3) r
  | recvReady (hopt : p.c.task.opt = some .download) : Receiving .recvReady [] 3

/-- The other thread restores: what it has sent. -/
inductive Sending : WorkerAt → List Message → Prop
  | sendBatches (out rest : List Message) (h : out ++ rest = p.batches env) :
      Sending (.sendBatches rest) out
  | recvClosed : Sending .recvClosed (p.batches env)
  | exited : Sending .exited (p.batches env)

inductive ServerSide (s : Connection) : Prop
  | recvRa (hat : s.threadAt = .recvRa) (h : Sees s none none .idle [] 0 [])
  | recvGone (hat : s.threadAt = .recvGone ∨ s.threadAt = .returned) (hopt : p.c.task.opt = none)
      (h : Sees s none none .idle [] 1 [])
  | recvKeyInit (hat : s.threadAt = .recvKeyInit) (hopt : p.c.task.opt ≠ none)
      (h : Sees s none none .idle [] 1 [])
  | exchange (hat : s.threadAt.exchanging = some p.c.clientID) (hopt : p.c.task.opt ≠ none)
      (hbuf : Buffered s.recvBuf p.c.keyInit) (h : Sees s none none .idle [] 2 [])
  | sendReply (hat : s.threadAt = .sendReply p.c.clientID) (hopt : p.c.task.opt ≠ none)
      (hbuf : Buffered s.recvBuf p.reply) (h : Sees s (some p.key) none .idle [] 2 [])
  | recvLogin (hat : s.threadAt = .recvLogin p.c.clientID) (hopt : p.c.task.opt ≠ none)
      (h : Sees s (some p.key) none .idle [] 2 [p.reply])
  | login (opt : Opt) (hat : s.threadAt.loggingIn = some (p.c.clientID, opt))
      (hopt : p.c.task.opt = some opt) (hbuf : Buffered s.recvBuf (p.c.login env p.key))
      (h : Sees s (some p.key) none .idle [] 3 [p.reply])
  | sendNonExist (hat : s.threadAt = .sendNonExist p.c.clientID)
      (hopt : p.c.task.opt = some .download) (hbuf : Buffered s.recvBuf (p.c.login env p.key))
      (h : Sees s (some p.key) none .idle [] 3 [p.reply])
  | nonExist (hat : s.threadAt = .recvClosed p.c.clientID ∨
        s.threadAt = .unlockClient p.c.clientID ∨ s.threadAt = .returned)
      (hopt : p.c.task.opt = some .download)
      (h : Sees s (some p.key) none .idle [] 3 [p.reply, p.nonExist])
  | responding (opt : Opt) (w : WorkerAt) (processed : List Message) (r : Nat)
      (hat : s.threadAt = .sendResponse p.c.clientID opt) (hopt : p.c.task.opt = some opt)
      (hbuf : Buffered s.recvBuf (p.c.login env p.key)) (hw : p.Receiving env w processed r)
      (h : Sees s (some p.key) (some (p.enclaveClient env)) w processed r [p.reply])
  | receiving (opt : Opt) (w : WorkerAt) (processed : List Message) (r : Nat)
      (hat : s.threadAt = .join p.c.clientID opt) (hopt : p.c.task.opt = some opt)
      (hw : p.Receiving env w processed r)
      (h : Sees s (some p.key) (some (p.enclaveClient env)) w processed r [p.reply, p.response])
  | sending (w : WorkerAt) (out : List Message) (hat : s.threadAt = .join p.c.clientID .download)
      (hopt : p.c.task.opt = some .download) (hw : p.Sending env w out)
      (h : Sees s (some p.key) (some (p.enclaveClient env)) w [] 4 ([p.reply, p.response] ++ out))
  | received (sgxClient : Option EnclaveClient) (processed : List Message) (r : Nat)
      (hat : s.threadAt.ending = true) (hopt : p.c.task.opt ≠ none)
      (hsgx : ∀ e, sgxClient = some e → e = p.enclaveClient env)
      (hw : p.Receiving env .exited processed r)
      (h : Sees s (some p.key) sgxClient .exited processed r [p.reply, p.response])
  | restored (sgxClient : Option EnclaveClient) (hat : s.threadAt.ending = true)
      (hopt : p.c.task.opt = some .download)
      (hsgx : ∀ e, sgxClient = some e → e = p.enclaveClient env)
      (h : Sees s (some p.key) sgxClient .exited [] 4 ([p.reply, p.response] ++ p.batches env))

def overAt : ThreadAt → WorkerAt → Bool
  | .unlockClient _, _ => true
  | .returned, _ => true
  | _, .exited => true
  | _, _ => false

/-- The session will read no more of its connection. -/
def isOver (s : Connection) : Bool := overAt s.threadAt s.workerAt

/-- What is known of a connection. -/
structure Paired (s : Connection) : Prop where
  client : p.ClientSide env s
  server : p.ServerSide env s
  readServer : s.toServer.read ≤ s.toServer.sent.length
  readClient : s.toClient.read ≤ s.toClient.sent.length
  drained : isOver s = true → s.closed = true ∧ s.toServer.read = s.toServer.sent.length

/-! ## What a client is sent -/

variable {env p} {s s' : Connection}

theorem ServerSide.sent_zero (h : p.ServerSide env s) {m : Message}
    (hm : s.toClient.sent[0]? = some m) : m = p.reply := by
  cases h <;> rename_i h <;> rw [h.sent] at hm <;> first
    | exact (Option.some.inj hm).symm
    | cases hm

theorem ServerSide.sent_one (h : p.ServerSide env s) {m : Message}
    (hm : s.toClient.sent[1]? = some m) :
    m = p.response ∨ (m = p.nonExist ∧ p.c.task.opt = some .download) := by
  cases h
  case nonExist hopt h =>
    rw [h.sent] at hm
    exact Or.inr ⟨(Option.some.inj hm).symm, hopt⟩
  all_goals
    rename_i h
    rw [h.sent] at hm
    first
      | exact Or.inl (Option.some.inj hm).symm
      | cases hm

theorem ServerSide.sent_batch (h : p.ServerSide env s) {n : Nat} {m : Message}
    (hm : s.toClient.sent[n + 2]? = some m) : (p.batches env)[n]? = some m := by
  cases h
  case sending w out hat hopt hw h =>
    rw [h.sent] at hm
    have hout : out[n]? = some m := hm
    have hprefix : out <+: p.batches env := by
      cases hw with
      | sendBatches out rest h => exact ⟨rest, h⟩
      | recvClosed => exact List.prefix_rfl
      | exited => exact List.prefix_rfl
    exact (List.prefix_iff_getElem?.mp hprefix n (List.getElem?_eq_some_iff.mp hout).1).trans
      ((List.getElem?_eq_getElem _).symm.trans hout)
  case restored h =>
    rw [h.sent] at hm
    exact hm
  all_goals
    rename_i h
    rw [h.sent] at hm
    cases hm

/-- The last message of a restore is the final one, and no other is. -/
theorem batches_type {n : Nat} {m : Message} (hm : (p.batches env)[n]? = some m) :
    (m.messageType = .serverRestoreChunk ∧ n + 1 < (p.batches env).length) ∨
      (m.messageType = .serverRestoreFinal ∧ n + 1 = (p.batches env).length) := by
  rw [batches] at hm ⊢
  split at hm
  · rename_i restored _
    rw [restoreMessages] at hm ⊢
    dsimp only at hm ⊢
    rw [List.length_append, List.length_map, List.length_singleton]
    rcases Nat.lt_or_ge n restored.1.length with hlt | hge
    · rw [List.getElem?_append_left (by rw [List.length_map]; exact hlt), List.getElem?_map] at hm
      obtain ⟨cs, -, rfl⟩ := Option.map_eq_some_iff.mp hm
      exact Or.inl ⟨rfl, by omega⟩
    · rw [List.getElem?_append_right (by rw [List.length_map]; exact hge), List.length_map] at hm
      obtain ⟨hn, hm⟩ := List.getElem?_eq_some_iff.mp hm
      rw [List.length_singleton] at hn
      have hzero : n - restored.1.length = 0 := by omega
      rw [List.getElem_singleton] at hm
      rw [← hm]
      exact Or.inr ⟨rfl, by omega⟩
  · cases hm

/-! ## The steps of the client -/

theorem script_ra (hopt : p.c.task.opt = none) : p.script env = [p.c.raDecision] := if_pos hopt

theorem script_opt (hopt : p.c.task.opt ≠ none) : p.script env =
    [p.c.raDecision, p.c.keyInit, p.c.login env p.key] ++ p.dataMessages env := if_neg hopt

theorem script_download (hopt : p.c.task.opt = some .download) : p.script env =
    [p.c.raDecision, p.c.keyInit, p.c.login env p.key, p.c.ready] := by
  rw [script_opt (ne_none_of_eq hopt), dataMessages]
  cases htask : p.c.task with
  | download => rfl
  | ra => rw [htask] at hopt; cases hopt
  | upload offline chunks head => exact absurd (htask ▸ hopt) (Task.upload_ne_download _ _ _)

theorem dataMessages_upload (hopt : p.c.task.opt ≠ some .download) :
    p.dataMessages env = p.c.uploadMessages env p.key := by
  rw [dataMessages, Client.uploadMessages]
  cases htask : p.c.task with
  | download => rw [htask] at hopt; exact absurd rfl hopt
  | ra => rfl
  | upload offline chunks head => rfl

namespace ClientSide

variable {m : Message} {at' : ClientAt}

/-- The client sends what is next in the script. -/
theorem send (h : p.ClientSide env s) (hopen : s.clientAt.live = true) (hlive : at'.live = true)
    (hplace : p.AtClient env (s.clientSend m at'))
    (hscript : s.toServer.sent ++ [m] <+: p.script env)
    (hanswered : 2 ≤ s.toServer.sent.length → 1 ≤ s.toClient.read)
    (hresponded : 3 ≤ s.toServer.sent.length →
      2 ≤ s.toClient.read ∧ s.toClient.sent[1]? = some p.response) :
    p.ClientSide env (s.clientSend m at') where
  place := hplace
  script := hscript
  answered := fun hlen => hanswered (by
    change 3 ≤ (s.toServer.sent ++ [m]).length at hlen
    rw [List.length_append, List.length_singleton] at hlen
    omega)
  responded := fun hlen => hresponded (by
    change 4 ≤ (s.toServer.sent ++ [m]).length at hlen
    rw [List.length_append, List.length_singleton] at hlen
    omega)
  output := h.output
  closed := by
    have hclosed := h.closed
    rw [hopen] at hclosed
    exact hclosed.trans (by rw [Connection.clientSend, hlive])

/-- The client has read a message that is not a batch of a restore. -/
theorem read (h : p.ClientSide env s) (hfirst : s.toClient.read < 2)
    (hs' : s'.toServer = s.toServer)
    (hc' : s'.toClient = s.toClient.advance) (ho' : s'.outputMQ = s.outputMQ)
    (hclosed : s'.closed = !s'.clientAt.live) (hplace : p.AtClient env s') :
    p.ClientSide env s' where
  place := hplace
  script := by rw [hs']; exact h.script
  answered := fun _ => by rw [hc']; exact Nat.le_add_left 1 _
  responded := fun hlen => by
    rw [hs'] at hlen
    exact absurd (h.responded hlen).1 (Nat.not_le.mpr hfirst)
  output := by
    have hnone : ∀ n ≤ 2, (s.toClient.sent.take n).drop 2 = [] := fun n hn =>
      List.drop_eq_nil_of_le (List.length_take_le n _ |>.trans hn)
    rw [ho', hc', h.output, Channel.advance, hnone _ hfirst.le, hnone _ hfirst]
  closed := hclosed

end ClientSide

/-- The client derives the key from the reply. -/
theorem secret_reply : p.c.secret p.reply = some p.key := by
  have hlen : (kx.publicKey p.c.privateKey).1.length =
      (kx.publicKey (setup.privateKey i)).1.length :=
    (kx.publicKey p.c.privateKey).2.trans (kx.publicKey (setup.privateKey i)).2.symm
  have hbuf : writeAt (kx.publicKey p.c.privateKey).1 0 (kx.publicKey (setup.privateKey i)).1 =
      (kx.publicKey (setup.privateKey i)).1 := by
    rw [writeAt, List.take_zero, List.nil_append, Nat.zero_add, ← hlen, List.drop_length,
      List.append_nil]
  have hsize : (UInt32.ofNat SESSION_KEY_BUFFER_SIZE).toNat = SESSION_KEY_BUFFER_SIZE := rfl
  rw [Client.secret, reply]
  dsimp only
  rw [hbuf, hsize, List.take_of_length_le (kx.publicKey (setup.privateKey i)).2.le,
    BytesN.ofBytes_val, p.agreed]

theorem Paired.next_reply (h : p.Paired env s) (hread : s.toClient.read = 0) {m : Message}
    (hm : s.toClient.next = some m) : m = p.reply := by
  rw [Channel.next, hread] at hm
  exact h.server.sent_zero hm

theorem Paired.next_response (h : p.Paired env s) (hread : s.toClient.read = 1) {m : Message}
    (hm : s.toClient.next = some m) :
    m = p.response ∨ (m = p.nonExist ∧ p.c.task.opt = some .download) := by
  rw [Channel.next, hread] at hm
  exact h.server.sent_one hm

/-- A client that reads a restore. -/
theorem Paired.recvData (h : p.Paired env s) {head : BytesN 16}
    (hat : s.clientAt = .recvData p.key head) (hhead : head = setup.recipeHead i)
    (hopt : p.c.task.opt = some .download) (hsent : s.toServer.sent = p.script env)
    (hread : 2 ≤ s.toClient.read) {s' : Connection} (hstep : s.clientStep env p.c = some s') :
    p.ClientSide env s' := by
  have hclient := h.client
  simp only [Connection.clientStep, hat] at hstep
  obtain ⟨m, hm, rfl⟩ := Connection.clientReceive_cases hstep
  have hnext : s.toClient.sent[s.toClient.read]? = some m := hm
  obtain ⟨n, hn⟩ := Nat.exists_eq_add_of_le' hread
  rw [hn] at hnext
  have hbatch := h.server.sent_batch hnext
  have hlen : 4 ≤ s.toServer.sent.length := by
    rw [hsent, script_download hopt]
    exact le_refl 4
  have hresponse := (hclient.responded hlen).2
  have houtput : s.outputMQ ++ Client.chunksOf env p.key m =
      ((s.toClient.sent.take (s.toClient.read + 1)).drop 2).flatMap
        (Client.chunksOf env p.key) := by
    have hbound : 2 ≤ (s.toClient.sent.take s.toClient.read).length := by
      rw [List.length_take, Nat.min_eq_left h.readClient]
      exact hread
    rw [List.take_add_one, hn, hnext, ← hn, Option.toList_some,
      List.drop_append_of_le_length hbound,
      List.flatMap_append, List.flatMap_singleton, ← hclient.output]
  have hlive : s.closed = false := by
    have hclosed := hclient.closed
    rw [hat] at hclosed
    exact hclosed
  dsimp only
  rcases batches_type hbatch with ⟨htype, hmore⟩ | ⟨htype, hlast⟩
  · rw [htype]
    exact
      { place := by
          simp only [AtClient, hat]
          exact ⟨trivial, hhead, hopt, hsent, Nat.le_succ_of_le hread, fun _ => by
            change s.toClient.read + 1 < _
            omega⟩
        script := hclient.script
        answered := fun _ => Nat.le_add_left 1 _
        responded := fun _ => ⟨Nat.le_succ_of_le hread, hresponse⟩
        output := houtput
        closed := hclient.closed }
  · rw [htype]
    exact
      { place := by
          refine Or.inr (Or.inl ⟨hopt, ?_, hsent, ?_⟩)
          · rw [hhead]
            rfl
          · change s.toClient.read + 1 = _
            omega
        script := hclient.script
        answered := fun _ => Nat.le_add_left 1 _
        responded := fun _ => ⟨Nat.le_succ_of_le hread, hresponse⟩
        output := houtput
        closed := rfl }

/-! What each step does. -/

/-- The request for an attestation. -/
theorem Paired.client_sendRa (h : p.Paired env s) (hat : s.clientAt = .sendRa) {s' : Connection}
    (hstep : s.clientStep env p.c = some s') : p.ClientSide env s' := by
  have hclient := h.client
  have hplace := h.client.place
  simp only [AtClient, hat] at hplace
  obtain ⟨hsent, hread⟩ := hplace
  simp only [Connection.clientStep, hat, Option.some.injEq] at hstep
  have hopen : s.clientAt.live = true := by rw [hat]; rfl
  have hprefix : s.toServer.sent ++ [p.c.raDecision] <+: p.script env := by
    rw [hsent]
    by_cases hopt : p.c.task.opt = none
    · rw [script_ra hopt]
      exact List.prefix_rfl
    · rw [script_opt hopt]
      exact ⟨_, rfl⟩
  subst hstep
  refine hclient.send hopen ?_ ?_ hprefix (fun hlen => ?_) fun hlen => ?_
  · cases p.c.task <;> rfl
  · have hnew : (s.toServer.send p.c.raDecision).sent = [p.c.raDecision] := by
      rw [Channel.send, hsent, List.nil_append]
    cases htask : p.c.task with
    | ra =>
        have hopt : p.c.task.opt = none := by rw [htask]; rfl
        refine ⟨by rw [hopt]; exact (Option.some_ne_none _).symm, ?_, fun hne => absurd hopt hne⟩
        rw [script_ra hopt]
        exact hnew
    | upload offline chunks head =>
        refine ⟨?_, hnew, hread⟩
        rw [htask]
        exact Task.upload_ne_none _ _ _
    | download =>
        refine ⟨?_, hnew, hread⟩
        rw [htask]
        exact Option.some_ne_none _
  · rw [hsent] at hlen
    cases hlen
  · rw [hsent] at hlen
    cases hlen

theorem Paired.client_sendKeyInit (h : p.Paired env s) (hat : s.clientAt = .sendKeyInit)
    {s' : Connection} (hstep : s.clientStep env p.c = some s') : p.ClientSide env s' := by
  have hclient := h.client
  have hplace := h.client.place
  simp only [AtClient, hat] at hplace
  obtain ⟨hopt, hsent, hread⟩ := hplace
  simp only [Connection.clientStep, hat, Option.some.injEq] at hstep
  subst hstep
  have hnew : s.toServer.sent ++ [p.c.keyInit] = [p.c.raDecision, p.c.keyInit] := by
    rw [hsent]
    rfl
  refine hclient.send (by rw [hat]; rfl) rfl ⟨hopt, hnew, hread⟩ ?_ (fun hlen => ?_) fun hlen => ?_
  · rw [hnew, script_opt hopt]
    exact ⟨_, rfl⟩
  · rw [hsent] at hlen
    exact absurd hlen (Nat.not_succ_le_self 1)
  · rw [hsent] at hlen
    exact absurd hlen (Nat.not_le.mpr (Nat.lt_add_of_pos_right Nat.two_pos))

/-- The key that the client derives is the server's. -/
theorem Paired.client_recvReply (h : p.Paired env s) (hat : s.clientAt = .recvReply)
    {s' : Connection} (hstep : s.clientStep env p.c = some s') : p.ClientSide env s' := by
  have hclient := h.client
  have hplace := h.client.place
  simp only [AtClient, hat] at hplace
  obtain ⟨hopt, hsent, hread⟩ := hplace
  simp only [Connection.clientStep, hat] at hstep
  obtain ⟨m, hm, rfl⟩ := Connection.clientReceive_cases hstep
  obtain rfl := h.next_reply hread hm
  have hclosed := hclient.closed
  rw [hat] at hclosed
  rw [if_pos (show p.reply.messageType = .sessionKeyReply from rfl), secret_reply]
  refine hclient.read (by omega) rfl rfl rfl hclosed ⟨rfl, hopt, hsent, ?_⟩
  change s.toClient.read + 1 = 1
  rw [hread]

theorem Paired.client_sendLogin (h : p.Paired env s) {k : Key} (hat : s.clientAt = .sendLogin k)
    {s' : Connection} (hstep : s.clientStep env p.c = some s') : p.ClientSide env s' := by
  have hclient := h.client
  have hplace := h.client.place
  simp only [AtClient, hat] at hplace
  obtain ⟨rfl, hopt, hsent, hread⟩ := hplace
  simp only [Connection.clientStep, hat, Option.some.injEq] at hstep
  subst hstep
  have hnew : s.toServer.sent ++ [p.c.login env p.key] =
      [p.c.raDecision, p.c.keyInit, p.c.login env p.key] := by
    rw [hsent]
    rfl
  refine hclient.send (by rw [hat]; rfl) rfl ⟨rfl, hopt, hnew, hread⟩ ?_ (fun _ => hread.ge)
    fun hlen => ?_
  · rw [hnew, script_opt hopt]
    exact ⟨_, rfl⟩
  · rw [hsent] at hlen
    exact absurd hlen (Nat.not_succ_le_self 2)

theorem Paired.client_recvResponse (h : p.Paired env s) {k : Key}
    (hat : s.clientAt = .recvResponse k) {s' : Connection}
    (hstep : s.clientStep env p.c = some s') : p.ClientSide env s' := by
  have hclient := h.client
  have hplace := h.client.place
  simp only [AtClient, hat] at hplace
  obtain ⟨rfl, hopt, hsent, hread⟩ := hplace
  simp only [Connection.clientStep, hat] at hstep
  obtain ⟨m, hm, rfl⟩ := Connection.clientReceive_cases hstep
  have hnext : s.toClient.sent[1]? = some m := by rw [← hread]; exact hm
  have hclosed := hclient.closed
  rw [hat] at hclosed
  have htwo : s.toClient.read + 1 = 2 := by rw [hread]
  rcases h.next_response hread hm with rfl | ⟨rfl, hdown⟩
  · rw [if_pos (show p.response.messageType = .serverLoginResponse from rfl)]
    split
    · rename_i htask
      have hdown : p.c.task.opt = some .download := by rw [htask]; rfl
      have hhead : BytesN.ofBytes 16 p.response.data = setup.recipeHead i := by
        rw [response, if_pos hdown, BytesN.ofBytes_val]
      exact hclient.read (by omega) rfl rfl rfl hclosed ⟨rfl, hhead, hdown, hsent, htwo, hnext⟩
    · rename_i htask
      have hup : p.c.task.opt ≠ some .download := by
        intro hdown
        cases hcase : p.c.task with
        | download => exact htask hcase
        | ra => rw [hcase] at hdown; cases hdown
        | upload offline chunks head => exact Task.upload_ne_download _ _ _ (hcase ▸ hdown)
      refine hclient.read (by omega) rfl rfl rfl hclosed ⟨hopt, hup, ?_, ?_, htwo, hnext⟩
      · rw [script_opt hopt, dataMessages_upload hup, ← hsent]
      · change 3 ≤ s.toServer.sent.length
        rw [hsent]
        exact le_refl 3
  · rw [if_neg (show p.nonExist.messageType ≠ .serverLoginResponse from fun hne => by cases hne)]
    exact hclient.read (by omega) rfl rfl rfl rfl
      (Or.inr (Or.inr ⟨hdown, rfl, htwo, hnext, hsent⟩))

theorem Paired.client_sendData (h : p.Paired env s) {rest : List Message}
    (hat : s.clientAt = .sendData rest) {s' : Connection}
    (hstep : s.clientStep env p.c = some s') : p.ClientSide env s' := by
  have hclient := h.client
  have hplace := h.client.place
  simp only [AtClient, hat] at hplace
  obtain ⟨hopt, hup, hsent, hlen, hread, hresponse⟩ := hplace
  cases rest with
  | nil =>
      simp only [Connection.clientStep, hat, Option.some.injEq] at hstep
      subst hstep
      have hclosed := hclient.closed
      rw [hat] at hclosed
      rw [List.append_nil] at hsent
      exact ⟨⟨hup, hsent, fun _ => hread⟩, hclient.script, hclient.answered, hclient.responded,
        hclient.output, hclosed⟩
  | cons m rest =>
      simp only [Connection.clientStep, hat, Option.some.injEq] at hstep
      subst hstep
      have hnew : s.toServer.sent ++ [m] ++ rest = p.script env := by
        rw [List.append_assoc]
        exact hsent
      have hlen' : 3 ≤ (s.toServer.sent ++ [m]).length := by
        rw [List.length_append]
        exact Nat.le_add_right_of_le hlen
      exact hclient.send (by rw [hat]; rfl) rfl ⟨hopt, hup, hnew, hlen', hread, hresponse⟩
        ⟨rest, hnew⟩ (fun _ => by omega) fun _ => ⟨hread.ge, hresponse⟩

theorem Paired.client_sendReady (h : p.Paired env s) {k : Key} {head : BytesN 16}
    (hat : s.clientAt = .sendReady k head) {s' : Connection}
    (hstep : s.clientStep env p.c = some s') : p.ClientSide env s' := by
  have hclient := h.client
  have hplace := h.client.place
  simp only [AtClient, hat] at hplace
  obtain ⟨rfl, hhead, hdown, hsent, hread, hresponse⟩ := hplace
  simp only [Connection.clientStep, hat, Option.some.injEq] at hstep
  subst hstep
  have hnew : s.toServer.sent ++ [p.c.ready] = p.script env := by
    rw [hsent, script_download hdown]
    rfl
  refine hclient.send (by rw [hat]; rfl) rfl ⟨rfl, hhead, hdown, hnew, hread.ge, fun hne => ?_⟩
    ⟨[], by rw [List.append_nil]; exact hnew⟩ (fun _ => by omega) fun _ => ⟨hread.ge, hresponse⟩
  have hpos := List.length_pos_of_ne_nil hne
  change s.toClient.read < _
  omega

theorem Paired.client_finish (h : p.Paired env s) (hat : s.clientAt = .finish) {s' : Connection}
    (hstep : s.clientStep env p.c = some s') : p.ClientSide env s' := by
  have hclient := h.client
  have hplace := h.client.place
  simp only [AtClient, hat] at hplace
  obtain ⟨hup, hsent, hread⟩ := hplace
  simp only [Connection.clientStep, hat, Option.some.injEq] at hstep
  subst hstep
  exact ⟨Or.inl ⟨hup, rfl, hsent, hread⟩, hclient.script, hclient.answered, hclient.responded,
    hclient.output, rfl⟩

/-- Every step of the client follows the script. -/
theorem Paired.clientSide (h : p.Paired env s) {s' : Connection}
    (hstep : s.clientStep env p.c = some s') : p.ClientSide env s' := by
  have hplace := h.client.place
  cases hat : s.clientAt
  case sendRa => exact h.client_sendRa hat hstep
  case sendKeyInit => exact h.client_sendKeyInit hat hstep
  case recvReply => exact h.client_recvReply hat hstep
  case sendLogin k => exact h.client_sendLogin hat hstep
  case recvResponse k => exact h.client_recvResponse hat hstep
  case sendData rest => exact h.client_sendData hat hstep
  case sendReady k head => exact h.client_sendReady hat hstep
  case recvData k head =>
    simp only [AtClient, hat] at hplace
    obtain ⟨rfl, hhead, hdown, hsent, hread, -⟩ := hplace
    exact h.recvData hat hhead hdown hsent hread hstep
  case finish => exact h.client_finish hat hstep
  case exited success => simp only [Connection.clientStep, hat] at hstep; cases hstep
  case killed => simp only [Connection.clientStep, hat] at hstep; cases hstep
  case foreign => simp only [Connection.clientStep, hat] at hstep; cases hstep

/-! ## One side while the other takes a step -/

theorem Sees.of_same {derived : Option Key} {sgxClient : Option EnclaveClient} {w : WorkerAt}
    {processed : List Message} {r : Nat} {sent : List Message}
    (h : Sees s derived sgxClient w processed r sent) (hs : ServerSame s s') :
    Sees s' derived sgxClient w processed r sent where
  derived := hs.derived.trans h.derived
  sgxClient := hs.sgxClient.trans h.sgxClient
  workerAt := hs.workerAt.trans h.workerAt
  processed := hs.processed.trans h.processed
  read := hs.read.trans h.read
  sent := hs.sent.trans h.sent

theorem ServerSide.of_same (h : p.ServerSide env s) (hs : ServerSame s s') :
    p.ServerSide env s' := by
  have hat' := hs.threadAt
  cases h with
  | recvRa hat h => exact .recvRa (hat'.trans hat) (h.of_same hs)
  | recvGone hat hopt h => exact .recvGone (hat' ▸ hat) hopt (h.of_same hs)
  | recvKeyInit hat hopt h => exact .recvKeyInit (hat'.trans hat) hopt (h.of_same hs)
  | exchange hat hopt hbuf h =>
      exact .exchange (hat' ▸ hat) hopt (by rw [hs.recvBuf]; exact hbuf) (h.of_same hs)
  | sendReply hat hopt hbuf h =>
      exact .sendReply (hat'.trans hat) hopt (by rw [hs.recvBuf]; exact hbuf) (h.of_same hs)
  | recvLogin hat hopt h => exact .recvLogin (hat'.trans hat) hopt (h.of_same hs)
  | login opt hat hopt hbuf h =>
      exact .login opt (hat' ▸ hat) hopt (by rw [hs.recvBuf]; exact hbuf) (h.of_same hs)
  | sendNonExist hat hopt hbuf h =>
      exact .sendNonExist (hat'.trans hat) hopt (by rw [hs.recvBuf]; exact hbuf) (h.of_same hs)
  | nonExist hat hopt h => exact .nonExist (hat' ▸ hat) hopt (h.of_same hs)
  | responding opt w processed r hat hopt hbuf hw h =>
      exact .responding opt w processed r (hat'.trans hat) hopt (by rw [hs.recvBuf]; exact hbuf) hw
        (h.of_same hs)
  | receiving opt w processed r hat hopt hw h =>
      exact .receiving opt w processed r (hat'.trans hat) hopt hw (h.of_same hs)
  | sending w out hat hopt hw h => exact .sending w out (hat'.trans hat) hopt hw (h.of_same hs)
  | received sgxClient processed r hat hopt hsgx hw h =>
      exact .received sgxClient processed r (hat' ▸ hat) hopt hsgx hw (h.of_same hs)
  | restored sgxClient hat hopt hsgx h =>
      exact .restored sgxClient (hat' ▸ hat) hopt hsgx (h.of_same hs)

/-- The client's side of a connection stays as it is, but for what it may be sent. -/
structure ClientSame (s s' : Connection) : Prop where
  clientAt : s'.clientAt = s.clientAt
  outputMQ : s'.outputMQ = s.outputMQ
  sent : s'.toServer.sent = s.toServer.sent
  read : s'.toClient.read = s.toClient.read
  closed : s'.closed = s.closed
  replies : s.toClient.sent <+: s'.toClient.sent

theorem getElem?_mono {l l' : List Message} (h : l <+: l') {n : Nat} {m : Message}
    (hm : l[n]? = some m) : l'[n]? = some m := by
  obtain ⟨hn, rfl⟩ := List.getElem?_eq_some_iff.mp hm
  exact List.prefix_iff_getElem?.mp h n hn

theorem ClientSide.of_same (h : p.ClientSide env s)
    (hread : s.toClient.read ≤ s.toClient.sent.length) (hs : ClientSame s s') :
    p.ClientSide env s' where
  place := by
    have hplace := h.place
    cases hat : s.clientAt <;> simp only [AtClient, hs.clientAt, hs.sent, hs.read, hat]
      at hplace ⊢
    case sendData rest =>
      obtain ⟨hopt, hup, hsent, hlen, hread, hm⟩ := hplace
      exact ⟨hopt, hup, hsent, hlen, hread, getElem?_mono hs.replies hm⟩
    case sendReady k head =>
      obtain ⟨hk, hhead, hopt, hsent, hread, hm⟩ := hplace
      exact ⟨hk, hhead, hopt, hsent, hread, getElem?_mono hs.replies hm⟩
    case exited success =>
      rw [complete, hs.outputMQ]
      refine hplace.imp_right (Or.imp_right ?_)
      rintro ⟨hopt, hsuccess, hread, hm, hsent⟩
      exact ⟨hopt, hsuccess, hread, getElem?_mono hs.replies hm, hsent⟩
    all_goals exact hplace
  script := by rw [hs.sent]; exact h.script
  answered := by rw [hs.sent, hs.read]; exact h.answered
  responded := by
    rw [hs.sent, hs.read]
    exact fun hlen => (h.responded hlen).imp_right (getElem?_mono hs.replies)
  output := by
    obtain ⟨new, hnew⟩ := hs.replies
    rw [hs.outputMQ, hs.read, ← hnew, List.take_append_of_le_length hread]
    exact h.output
  closed := by rw [hs.closed, hs.clientAt]; exact h.closed

/-! ## Steps of the client -/

theorem over_of_same (hs : ServerSame s s') : isOver s' = isOver s := by
  rw [isOver, isOver, hs.threadAt, hs.workerAt]

theorem Paired.clientStep (h : p.Paired env s) (hstep : s.clientStep env p.c = some s') :
    p.Paired env s' := by
  have hsame := Connection.clientStep_same hstep
  obtain ⟨hsent, hread⟩ := Connection.clientStep_channels hstep
  refine ⟨h.clientSide hstep, h.server.of_same hsame, ?_, ?_, fun hover => ?_⟩
  · rw [hsame.read]
    exact h.readServer.trans hsent.length_le
  · rw [hsame.sent]
    rcases hread with heq | ⟨hnext, heq⟩
    · rw [heq]
      exact h.readClient
    · rw [heq]
      exact Channel.read_lt hnext
  · -- a client whose session is over has closed its side
    have hclosed := h.client.closed
    rw [Connection.live_of_clientStep hstep] at hclosed
    rw [over_of_same hsame] at hover
    rw [(h.drained hover).1] at hclosed
    cases hclosed

theorem Paired.kill (h : p.Paired env s) (hopen : s.closed = false) :
    p.Paired env { s with clientAt := .killed, closed := true } where
  client := ⟨trivial, h.client.script, h.client.answered, h.client.responded, h.client.output, rfl⟩
  server := h.server.of_same ⟨rfl, rfl, rfl, rfl, rfl, rfl, rfl, rfl⟩
  readServer := h.readServer
  readClient := h.readClient
  drained := fun hover => by
    have hclosed := (h.drained hover).1
    rw [hopen] at hclosed
    cases hclosed

/-- A connection that was accepted, before either side has done anything. -/
theorem Paired.accepted : p.Paired env (accepted setup i) := by
  have hat : (Protocol.accepted setup i).clientAt = .sendRa := if_pos (by rw [p.client]; rfl)
  exact
    { client :=
        { place := by
            simp only [AtClient, hat]
            exact ⟨rfl, rfl⟩
          script := List.nil_prefix
          answered := fun hlen => by cases hlen
          responded := fun hlen => by cases hlen
          output := rfl
          closed := by
            rw [hat]
            rfl }
      server := .recvRa rfl ⟨rfl, rfl, rfl, rfl, rfl, rfl⟩
      readServer := le_refl 0
      readClient := le_refl 0
      drained := fun hover => by cases hover }

/-! ## Steps of the session -/

/-- The session takes a step that is right on its own side. -/
theorem Paired.serverStep (h : p.Paired env s) (hsame : ClientSame s s')
    (hread : s'.toServer.read = s.toServer.read ∨
      s.toServer.next ≠ none ∧ s'.toServer.read = s.toServer.read + 1)
    (hside : p.ServerSide env s')
    (hover : isOver s' = true → s'.toServer.read = s.toServer.read ∧
      (isOver s = true ∨ s.closed = true ∧ s.toServer.next = none)) : p.Paired env s' where
  client := h.client.of_same h.readClient hsame
  server := hside
  readServer := by
    rw [hsame.sent]
    rcases hread with heq | ⟨hnext, heq⟩
    · rw [heq]
      exact h.readServer
    · rw [heq]
      exact Channel.read_lt hnext
  readClient := by
    rw [hsame.read]
    exact h.readClient.trans hsame.replies.length_le
  drained := fun ho => by
    obtain ⟨heq, hbefore⟩ := hover ho
    rw [hsame.closed, hsame.sent, heq]
    rcases hbefore with hbefore | ⟨hclosed, hnone⟩
    · exact h.drained hbefore
    · exact ⟨hclosed, h.readServer.antisymm (List.getElem?_eq_none_iff.mp hnone)⟩

theorem Paired.next_script (h : p.Paired env s) {m : Message} (hm : s.toServer.next = some m) :
    (p.script env)[s.toServer.read]? = some m := getElem?_mono h.client.script hm

/-- The session goes on, with the same other thread. -/
theorem Sees.goOn {derived : Option Key} {sgxClient : Option EnclaveClient} {w : WorkerAt}
    {processed : List Message} {r : Nat} {sent : List Message}
    (h : Sees s derived sgxClient w processed r sent) (t : ThreadAt) :
    Sees (s.goTo t) derived sgxClient w processed r sent :=
  ⟨h.derived, h.sgxClient, h.workerAt, h.processed, h.read, h.sent⟩

/-- It has read a message. -/
theorem Sees.read_one {derived : Option Key} {sgxClient : Option EnclaveClient} {w : WorkerAt}
    {processed : List Message} {r : Nat} {sent : List Message}
    (h : Sees s derived sgxClient w processed r sent) (m : Message) (t : ThreadAt) :
    Sees ((Connection.store { s with toServer := s.toServer.advance } m).goTo t)
      derived sgxClient w processed (r + 1) sent :=
  ⟨h.derived, h.sgxClient, h.workerAt, h.processed, congrArg (· + 1) h.read, h.sent⟩

/-- It has sent a message. -/
theorem Sees.send_one {derived : Option Key} {sgxClient : Option EnclaveClient} {w : WorkerAt}
    {processed : List Message} {r : Nat} {sent : List Message}
    (h : Sees s derived sgxClient w processed r sent) (m : Message) (t : ThreadAt) :
    Sees (Connection.goTo { s with toClient := s.toClient.send m } t)
      derived sgxClient w processed r (sent ++ [m]) :=
  ⟨h.derived, h.sgxClient, h.workerAt, h.processed, h.read, congrArg (· ++ [m]) h.sent⟩

theorem buffered_store (s : Connection) (m : Message) : Buffered (s.store m).recvBuf m :=
  ⟨rfl, rfl, rfl, prefix_writeAt _ _⟩

theorem over_false {t : ThreadAt} {w : WorkerAt} {P : Prop} (hover : isOver s = true)
    (hat : s.threadAt = t) (hw : s.workerAt = w) (h : overAt t w = false) : P := by
  rw [isOver, hat, hw, h] at hover
  cases hover

/-- The session has read a message. -/
theorem Paired.read_one (h : p.Paired env s) {derived : Option Key}
    {sgxClient : Option EnclaveClient} {processed : List Message} {r : Nat} {sent : List Message}
    (hsees : Sees s derived sgxClient .idle processed r sent) {m : Message} {t : ThreadAt}
    (hm : s.toServer.next = some m) (hlive : overAt t .idle = false)
    (hside : p.ServerSide env
      ((Connection.store { s with toServer := s.toServer.advance } m).goTo t)) :
    p.Paired env ((Connection.store { s with toServer := s.toServer.advance } m).goTo t) :=
  h.serverStep ⟨rfl, rfl, rfl, rfl, rfl, List.prefix_rfl⟩ (Or.inr ⟨ne_none_of_eq hm, rfl⟩) hside
    fun ho => over_false ho rfl hsees.workerAt hlive

/-- A step between places that read and send nothing. -/
theorem Paired.goTo (h : p.Paired env s) {derived : Option Key} {sgxClient : Option EnclaveClient}
    {w : WorkerAt} {processed : List Message} {r : Nat} {sent : List Message} {t : ThreadAt}
    (hsees : Sees s derived sgxClient w processed r sent) (hside : p.ServerSide env (s.goTo t))
    (hover : overAt t w = true → isOver s = true) : p.Paired env (s.goTo t) := by
  refine h.serverStep ⟨rfl, rfl, rfl, rfl, rfl, List.prefix_rfl⟩ (Or.inl rfl) hside fun ho => ?_
  refine ⟨rfl, Or.inl (hover ?_)⟩
  rwa [isOver, Connection.goTo, hsees.workerAt] at ho

theorem script_zero : (p.script env)[0]? = some p.c.raDecision := by
  by_cases hopt : p.c.task.opt = none
  · rw [script_ra hopt]
    rfl
  · rw [script_opt hopt]
    rfl

theorem opt_of_ra (h : p.c.raDecision.messageType = .sgxRaNotSupport) : p.c.task.opt = none := by
  rw [Client.raDecision] at h
  cases htask : p.c.task with
  | ra => rfl
  | download => rw [htask] at h; cases h
  | upload offline chunks head => rw [htask] at h; cases h

theorem opt_of_not_ra (h : p.c.raDecision.messageType = .sgxRaNotNeed) :
    p.c.task.opt ≠ none := by
  rw [Client.raDecision] at h
  cases htask : p.c.task with
  | ra => rw [htask] at h; cases h
  | download => exact Option.some_ne_none _
  | upload offline chunks head => exact Task.upload_ne_none _ _ _

/-- What goes out of a buffer. -/
theorem Buffered.message_eq {buf m : Message} (h : Buffered buf m) (messageType : MessageType)
    (data : Bytes) : { buf with messageType := messageType, data := data } =
      (⟨messageType, m.clientID, m.dataSize, m.currentItemNum, data⟩ : Message) := by
  rw [Message.mk.injEq]
  exact ⟨rfl, h.clientID, h.dataSize, h.currentItemNum, rfl⟩

theorem optOf_login (hopt : p.c.task.opt ≠ none) :
    optOf (p.c.login env p.key).messageType = p.c.task.opt := by
  rw [Client.login]
  cases htask : p.c.task with
  | ra => rw [htask] at hopt; exact absurd rfl hopt
  | download => rfl
  | upload offline chunks head => cases offline <;> rfl

/-- The enclave finds the master key in the login. -/
theorem masterKey_login (hcipher : SessionCipher env) {buf : Message}
    (hbuf : Buffered buf (p.c.login env p.key)) :
    BytesN.ofBytes CHUNK_HASH_SIZE (env.sessionKeyDec p.key
      ((buf.data.drop CHUNK_HASH_SIZE).take CHUNK_HASH_SIZE)) = p.c.masterKey env := by
  obtain ⟨t, ht⟩ := hbuf.data
  have hname : (p.c.fileNameHash env).1.length = CHUNK_HASH_SIZE := (p.c.fileNameHash env).2
  have hsecret : (env.sessionKeyEnc p.key (p.c.masterKey env).1).length = CHUNK_HASH_SIZE :=
    (hcipher.length _ _).trans (p.c.masterKey env).2
  have hslice : (buf.data.drop CHUNK_HASH_SIZE).take CHUNK_HASH_SIZE =
      env.sessionKeyEnc p.key (p.c.masterKey env).1 := by
    rw [← ht, Client.login, List.append_assoc, List.drop_left' hname, List.take_left' hsecret]
  rw [hslice, hcipher.dec]
  exact BytesN.ofBytes_val _

section Thread

variable [DecidableEq ι] {st st' : State ι} {taken : Bool}

theorem Paired.thread_recvRa (h : p.Paired env (st.connections i))
    (hat : (st.connections i).threadAt = .recvRa)
    (hsees : Sees (st.connections i) none none .idle [] 0 [])
    (hstep : threadStep env setup st i taken = some st') : p.Paired env (st'.connections i) := by
  simp only [threadStep, hat] at hstep
  refine State.receive_self hstep h (fun m s hm hs => ?_) fun _ _ _ hs => by cases hs
  have hmsg := h.next_script hm
  rw [hsees.read, script_zero] at hmsg
  obtain rfl := Option.some.inj hmsg
  split at hs
  · rename_i htype
    obtain rfl := Option.some.inj hs
    exact h.read_one hsees hm rfl (.recvGone (Or.inl rfl) (opt_of_ra htype) (hsees.read_one _ _))
  · rename_i htype
    obtain rfl := Option.some.inj hs
    exact h.read_one hsees hm rfl (.recvKeyInit rfl (opt_of_not_ra htype) (hsees.read_one _ _))
  · cases hs

theorem Paired.thread_recvGone (h : p.Paired env (st.connections i))
    (hat : (st.connections i).threadAt = .recvGone) (hopt : p.c.task.opt = none)
    (hsees : Sees (st.connections i) none none .idle [] 1 [])
    (hstep : threadStep env setup st i taken = some st') : p.Paired env (st'.connections i) := by
  simp only [threadStep, hat] at hstep
  refine State.receive_self hstep h (fun m s hm hs => ?_) fun hnone hclosed s hs => ?_
  · have hmsg := h.next_script hm
    rw [hsees.read, script_ra hopt] at hmsg
    cases hmsg
  · obtain rfl := Option.some.inj hs
    exact h.serverStep ⟨rfl, rfl, rfl, rfl, rfl, List.prefix_rfl⟩ (Or.inl rfl)
      (.recvGone (Or.inr rfl) hopt (hsees.goOn _)) fun _ => ⟨rfl, Or.inr ⟨hclosed, hnone⟩⟩

theorem Paired.thread_recvKeyInit (h : p.Paired env (st.connections i))
    (hat : (st.connections i).threadAt = .recvKeyInit) (hopt : p.c.task.opt ≠ none)
    (hsees : Sees (st.connections i) none none .idle [] 1 [])
    (hstep : threadStep env setup st i taken = some st') : p.Paired env (st'.connections i) := by
  simp only [threadStep, hat] at hstep
  refine State.receive_self hstep h (fun m s hm hs => ?_) fun _ _ _ hs => by cases hs
  have hscript : (p.script env)[1]? = some p.c.keyInit := by rw [script_opt hopt]; rfl
  have hmsg := h.next_script hm
  rw [hsees.read, hscript] at hmsg
  obtain rfl := Option.some.inj hmsg
  rw [if_pos (show p.c.keyInit.messageType = .sessionKeyInit from rfl)] at hs
  obtain rfl := Option.some.inj hs
  exact h.read_one hsees hm rfl (.exchange rfl hopt (buffered_store _ _) (hsees.read_one _ _))

theorem Paired.thread_exchange (h : p.Paired env (st.connections i))
    (hat : (st.connections i).threadAt.exchanging = some p.c.clientID)
    (hopt : p.c.task.opt ≠ none) (hbuf : Buffered (st.connections i).recvBuf p.c.keyInit)
    (hsees : Sees (st.connections i) none none .idle [] 2 [])
    (hstep : threadStep env setup st i taken = some st') : p.Paired env (st'.connections i) := by
  have hgo : ∀ t : ThreadAt, t.exchanging = some p.c.clientID → overAt t .idle = false →
      p.Paired env ((st.connections i).goTo t) := fun t ht hover =>
    h.goTo hsees (.exchange ht hopt hbuf (hsees.goOn t)) fun ho => by rw [hover] at ho; cases ho
  cases hplace : (st.connections i).threadAt <;> rw [hplace] at hat <;>
    simp only [ThreadAt.exchanging, reduceCtorEq] at hat <;> obtain rfl := Option.some.inj hat <;>
    simp only [threadStep, hplace] at hstep
  case lockSet =>
    split at hstep
    · obtain rfl := Option.some.inj hstep
      rw [show (State.set st i _).connections i = _ from State.connections_set_self ..]
      exact hgo _ rfl rfl
    · cases hstep
  case findLock =>
    split at hstep <;> obtain rfl := Option.some.inj hstep <;>
      rw [show (State.set st i _).connections i = _ from State.connections_set_self ..] <;>
      exact hgo _ rfl rfl
  case lockClient =>
    split at hstep
    · obtain rfl := Option.some.inj hstep
      rw [show (State.set st i _).connections i = _ from State.connections_set_self ..]
      exact hgo _ rfl rfl
    · cases hstep
  case unlockSet =>
    obtain rfl := Option.some.inj hstep
    rw [show (State.set st i _).connections i = _ from State.connections_set_self ..]
    exact hgo _ rfl rfl
  case keyExchange =>
    obtain ⟨t, ht⟩ := hbuf.data
    have hpub : BytesN.ofBytes SESSION_KEY_BUFFER_SIZE (st.connections i).recvBuf.data =
        kx.publicKey p.c.privateKey := by
      rw [← ht]
      exact BytesN.ofBytes_append _ _
    rw [hpub, p.server] at hstep
    obtain rfl := Option.some.inj hstep
    rw [show (State.set st i _).connections i = _ from State.connections_set_self ..]
    refine h.serverStep ⟨rfl, rfl, rfl, rfl, rfl, List.prefix_rfl⟩ (Or.inl rfl) ?_
      fun ho => over_false ho rfl hsees.workerAt rfl
    exact .sendReply rfl hopt
      ⟨hbuf.clientID, hbuf.dataSize, hbuf.currentItemNum, prefix_writeAt _ _⟩
      ⟨rfl, hsees.sgxClient, hsees.workerAt, hsees.processed, hsees.read, hsees.sent⟩

theorem Paired.thread_sendReply (h : p.Paired env (st.connections i))
    (hat : (st.connections i).threadAt = .sendReply p.c.clientID) (hopt : p.c.task.opt ≠ none)
    (hbuf : Buffered (st.connections i).recvBuf p.reply)
    (hsees : Sees (st.connections i) (some p.key) none .idle [] 2 [])
    (hstep : threadStep env setup st i taken = some st') : p.Paired env (st'.connections i) := by
  simp only [threadStep, hat] at hstep
  obtain rfl := Option.some.inj hstep
  obtain ⟨t, ht⟩ := hbuf.data
  have hdata : (st.connections i).recvBuf.data.take SESSION_KEY_BUFFER_SIZE = p.reply.data := by
    rw [← ht]
    exact List.take_left' (kx.publicKey (setup.privateKey i)).2
  have hmsg : { (st.connections i).recvBuf with
      messageType := .sessionKeyReply
      data := (st.connections i).recvBuf.data.take SESSION_KEY_BUFFER_SIZE } = p.reply := by
    rw [hdata, hbuf.message_eq]
    rfl
  rw [hmsg]
  refine State.send_self h (h.serverStep ⟨rfl, rfl, rfl, rfl, rfl, List.prefix_append _ _⟩
    (Or.inl rfl) (.recvLogin rfl hopt (hsees.send_one _ _)) fun ho =>
      over_false ho rfl hsees.workerAt rfl)

theorem Paired.thread_recvLogin (h : p.Paired env (st.connections i))
    (hat : (st.connections i).threadAt = .recvLogin p.c.clientID) (hopt : p.c.task.opt ≠ none)
    (hsees : Sees (st.connections i) (some p.key) none .idle [] 2 [p.reply])
    (hstep : threadStep env setup st i taken = some st') : p.Paired env (st'.connections i) := by
  simp only [threadStep, hat] at hstep
  refine State.receive_self hstep h (fun m s hm hs => ?_) fun _ _ _ hs => by cases hs
  have hscript : (p.script env)[2]? = some (p.c.login env p.key) := by rw [script_opt hopt]; rfl
  have hmsg := h.next_script hm
  rw [hsees.read, hscript] at hmsg
  obtain rfl := Option.some.inj hmsg
  rw [optOf_login hopt] at hs
  obtain ⟨opt, hopt, rfl⟩ := Option.map_eq_some_iff.mp hs
  exact h.read_one hsees hm rfl (.login opt rfl hopt (buffered_store _ _) (hsees.read_one _ _))

theorem Paired.thread_login (h : p.Paired env (st.connections i))
    (hlock : Holds st.toShared i (st.connections i)) (hcipher : SessionCipher env) {opt : Opt}
    (hat : (st.connections i).threadAt.loggingIn = some (p.c.clientID, opt))
    (hopt : p.c.task.opt = some opt)
    (hbuf : Buffered (st.connections i).recvBuf (p.c.login env p.key))
    (hsees : Sees (st.connections i) (some p.key) none .idle [] 3 [p.reply])
    (hstep : threadStep env setup st i taken = some st') : p.Paired env (st'.connections i) := by
  have hgo : ∀ t : ThreadAt, t.loggingIn = some (p.c.clientID, opt) → overAt t .idle = false →
      p.Paired env ((st.connections i).goTo t) := fun t ht hover =>
    h.goTo hsees (.login opt ht hopt hbuf (hsees.goOn t)) fun ho => by rw [hover] at ho; cases ho
  cases hplace : (st.connections i).threadAt <;> rw [hplace] at hat <;>
    simp only [ThreadAt.loggingIn, reduceCtorEq] at hat <;>
    obtain ⟨rfl, rfl⟩ := Prod.mk.inj (Option.some.inj hat) <;>
    simp only [threadStep, hplace] at hstep
  case checkFileStatus =>
    split at hstep <;> rename_i hmissing <;> obtain rfl := Option.some.inj hstep <;>
      rw [State.connections_set_self]
    · rw [hmissing.1] at hopt
      exact h.goTo hsees (.sendNonExist rfl hopt hbuf (hsees.goOn _)) fun ho => by cases ho
    · exact hgo _ rfl rfl
  case newClientVar =>
    obtain rfl := Option.some.inj hstep
    split <;> rw [show (State.set st i _).connections i = _ from State.connections_set_self ..] <;>
      exact hgo _ rfl rfl
  case initClient opt =>
    obtain rfl := Option.some.inj hstep
    have hkey := hlock.key p.c.clientID (by rw [hplace]; rfl)
    rw [hsees.derived] at hkey
    rw [hkey, Option.map_some]
    refine State.goOn_self h fun s hs => ?_
    obtain rfl := Option.some.inj hs
    rw [masterKey_login hcipher hbuf]
    by_cases hdown : opt = .download
    · subst hdown
      rw [if_pos rfl]
      refine h.serverStep ⟨rfl, rfl, rfl, rfl, rfl, List.prefix_rfl⟩ (Or.inl rfl) ?_
        fun ho => over_false ho rfl rfl rfl
      exact .responding .download .recvReady [] 3 rfl hopt hbuf (.recvReady hopt)
        ⟨hsees.derived, rfl, rfl, hsees.processed, hsees.read, hsees.sent⟩
    · rw [if_neg hdown]
      refine h.serverStep ⟨rfl, rfl, rfl, rfl, rfl, List.prefix_rfl⟩ (Or.inl rfl) ?_
        fun ho => over_false ho rfl rfl rfl
      have hprocessed : ((p.script env).take 3).drop 3 = [] :=
        List.drop_eq_nil_of_le (List.length_take_le _ _)
      exact .responding opt .recvChunks _ 3 rfl hopt hbuf
        (.recvChunks 3 (le_refl 3) (by rw [hopt]; exact fun heq => hdown (Option.some.inj heq)))
        ⟨hsees.derived, rfl, rfl, by rw [hprocessed]; exact hsees.processed, hsees.read, hsees.sent⟩

theorem Paired.thread_sendNonExist (h : p.Paired env (st.connections i))
    (hat : (st.connections i).threadAt = .sendNonExist p.c.clientID)
    (hopt : p.c.task.opt = some .download)
    (hbuf : Buffered (st.connections i).recvBuf (p.c.login env p.key))
    (hsees : Sees (st.connections i) (some p.key) none .idle [] 3 [p.reply])
    (hstep : threadStep env setup st i taken = some st') : p.Paired env (st'.connections i) := by
  simp only [threadStep, hat] at hstep
  obtain rfl := Option.some.inj hstep
  rw [hbuf.message_eq]
  exact State.send_self h (h.serverStep ⟨rfl, rfl, rfl, rfl, rfl, List.prefix_append _ _⟩
    (Or.inl rfl) (.nonExist (Or.inl rfl) hopt (hsees.send_one _ _)) fun ho =>
      over_false ho rfl hsees.workerAt rfl)

theorem Paired.thread_nonExist (h : p.Paired env (st.connections i))
    (hat : (st.connections i).threadAt = .recvClosed p.c.clientID ∨
      (st.connections i).threadAt = .unlockClient p.c.clientID ∨
      (st.connections i).threadAt = .returned)
    (hopt : p.c.task.opt = some .download)
    (hsees : Sees (st.connections i) (some p.key) none .idle [] 3 [p.reply, p.nonExist])
    (hstep : threadStep env setup st i taken = some st') : p.Paired env (st'.connections i) := by
  rcases hat with hat | hat | hat <;> simp only [threadStep, hat] at hstep
  · refine State.receive_self hstep h (fun _ _ _ hs => by cases hs) fun hnone hclosed s hs => ?_
    obtain rfl := Option.some.inj hs
    exact h.serverStep ⟨rfl, rfl, rfl, rfl, rfl, List.prefix_rfl⟩ (Or.inl rfl)
      (.nonExist (Or.inr (Or.inl rfl)) hopt (hsees.goOn _)) fun _ => ⟨rfl, Or.inr ⟨hclosed, hnone⟩⟩
  · obtain rfl := Option.some.inj hstep
    rw [show (State.set st i _).connections i = _ from State.connections_set_self ..]
    refine h.goTo hsees (.nonExist (Or.inr (Or.inr rfl)) hopt (hsees.goOn _)) fun _ => ?_
    rw [isOver, hat]
    rfl
  · cases hstep

theorem Paired.thread_responding (h : p.Paired env (st.connections i)) {opt : Opt} {w : WorkerAt}
    {processed : List Message} {r : Nat}
    (hat : (st.connections i).threadAt = .sendResponse p.c.clientID opt)
    (hopt : p.c.task.opt = some opt)
    (hbuf : Buffered (st.connections i).recvBuf (p.c.login env p.key))
    (hw : p.Receiving env w processed r)
    (hsees : Sees (st.connections i) (some p.key) (some (p.enclaveClient env)) w processed r
      [p.reply])
    (hstep : threadStep env setup st i taken = some st') : p.Paired env (st'.connections i) := by
  simp only [threadStep, hat] at hstep
  obtain rfl := Option.some.inj hstep
  have hdata : (if opt = .download then (setup.recipeHead i).1 else []) = p.response.data := by
    simp only [response, hopt, Option.some.injEq]
  have hmsg : { (st.connections i).recvBuf with
      messageType := .serverLoginResponse
      data := if opt = .download then (setup.recipeHead i).1 else [] } = p.response := by
    rw [hdata, hbuf.message_eq]
    rfl
  rw [hmsg]
  refine State.send_self h (h.serverStep ⟨rfl, rfl, rfl, rfl, rfl, List.prefix_append _ _⟩
    (Or.inl rfl) (.receiving opt w processed r rfl hopt hw (hsees.send_one _ _)) fun ho =>
      ⟨rfl, Or.inl ?_⟩)
  change overAt (.join p.c.clientID opt) (st.connections i).workerAt = true at ho
  rw [hsees.workerAt] at ho
  rw [isOver, hat, hsees.workerAt]
  cases w <;> first
    | rfl
    | cases ho

/-- The session's other thread has ended. -/
theorem Paired.thread_join (h : p.Paired env (st.connections i)) {opt : Opt}
    (hat : (st.connections i).threadAt = .join p.c.clientID opt)
    (hended : ∀ t : ThreadAt, t.ending = true → (st.connections i).workerAt = .exited →
      p.ServerSide env ((st.connections i).goTo t))
    (hstep : threadStep env setup st i taken = some st') : p.Paired env (st'.connections i) := by
  simp only [threadStep, hat] at hstep
  split at hstep
  · rename_i hw
    obtain rfl := Option.some.inj hstep
    rw [State.connections_set_self]
    refine h.serverStep ⟨rfl, rfl, rfl, rfl, rfl, List.prefix_rfl⟩ (Or.inl rfl)
      (hended _ (by split <;> rfl) hw) fun _ => ⟨rfl, Or.inl ?_⟩
    rw [isOver, hat, hw]
    rfl
  · cases hstep

theorem Paired.thread_ending (h : p.Paired env (st.connections i))
    (hat : (st.connections i).threadAt.ending = true)
    (hw : (st.connections i).workerAt = .exited)
    (hgo : ∀ t : ThreadAt, t.ending = true → p.ServerSide env ((st.connections i).goTo t))
    (hdestroy : ∀ t : ThreadAt, t.ending = true →
      p.ServerSide env { st.connections i with threadAt := t, sgxClient := none })
    (hstep : threadStep env setup st i taken = some st') : p.Paired env (st'.connections i) := by
  have hover : isOver (st.connections i) = true := by
    rw [isOver, hw]
    cases (st.connections i).threadAt <;> rfl
  cases hplace : (st.connections i).threadAt <;> rw [hplace] at hat <;>
    simp only [ThreadAt.ending, Bool.false_eq_true] at hat <;>
    simp only [threadStep, hplace, reduceCtorEq] at hstep <;>
    obtain rfl := Option.some.inj hstep <;>
    rw [show (State.set st i _).connections i = _ from State.connections_set_self ..]
  case processOff =>
    exact h.serverStep ⟨rfl, rfl, rfl, rfl, rfl, List.prefix_rfl⟩ (Or.inl rfl) (hgo _ rfl)
      fun _ => ⟨rfl, Or.inl hover⟩
  case destroyClient =>
    exact h.serverStep ⟨rfl, rfl, rfl, rfl, rfl, List.prefix_rfl⟩ (Or.inl rfl) (hdestroy _ rfl)
      fun _ => ⟨rfl, Or.inl hover⟩
  case unlockClient =>
    exact h.serverStep ⟨rfl, rfl, rfl, rfl, rfl, List.prefix_rfl⟩ (Or.inl rfl) (hgo _ rfl)
      fun _ => ⟨rfl, Or.inl hover⟩

/-- Every step of the session's thread follows the script. -/
theorem Paired.threadStep (h : p.Paired env (st.connections i))
    (hlock : Holds st.toShared i (st.connections i)) (hcipher : SessionCipher env)
    (hstep : threadStep env setup st i taken = some st') : p.Paired env (st'.connections i) := by
  cases h.server with
  | recvRa hat hsees => exact h.thread_recvRa hat hsees hstep
  | recvGone hat hopt hsees =>
      rcases hat with hat | hat
      · exact h.thread_recvGone hat hopt hsees hstep
      · simp only [Protocol.threadStep, hat] at hstep
        cases hstep
  | recvKeyInit hat hopt hsees => exact h.thread_recvKeyInit hat hopt hsees hstep
  | exchange hat hopt hbuf hsees => exact h.thread_exchange hat hopt hbuf hsees hstep
  | sendReply hat hopt hbuf hsees => exact h.thread_sendReply hat hopt hbuf hsees hstep
  | recvLogin hat hopt hsees => exact h.thread_recvLogin hat hopt hsees hstep
  | login opt hat hopt hbuf hsees =>
      exact h.thread_login hlock hcipher hat hopt hbuf hsees hstep
  | sendNonExist hat hopt hbuf hsees => exact h.thread_sendNonExist hat hopt hbuf hsees hstep
  | nonExist hat hopt hsees => exact h.thread_nonExist hat hopt hsees hstep
  | responding opt w processed r hat hopt hbuf hw hsees =>
      exact h.thread_responding hat hopt hbuf hw hsees hstep
  | receiving opt w processed r hat hopt hw hsees =>
      refine h.thread_join hat (fun t ht hexited => ?_) hstep
      rw [hsees.workerAt] at hexited
      subst hexited
      exact .received _ processed r ht (ne_none_of_eq hopt) (fun e he => (Option.some.inj he).symm)
        hw (hsees.goOn t)
  | sending w out hat hopt hw hsees =>
      refine h.thread_join hat (fun t ht hexited => ?_) hstep
      rw [hsees.workerAt] at hexited
      subst hexited
      cases hw
      exact .restored _ ht hopt (fun e he => (Option.some.inj he).symm) (hsees.goOn t)
  | received sgxClient processed r hat hopt hsgx hw hsees =>
      exact h.thread_ending hat hsees.workerAt
        (fun t ht => .received sgxClient processed r ht hopt hsgx hw (hsees.goOn t))
        (fun t ht => .received none processed r ht hopt (fun _ he => by cases he) hw
          ⟨hsees.derived, rfl, hsees.workerAt, hsees.processed, hsees.read, hsees.sent⟩) hstep
  | restored sgxClient hat hopt hsgx hsees =>
      exact h.thread_ending hat hsees.workerAt
        (fun t ht => .restored sgxClient ht hopt hsgx (hsees.goOn t))
        (fun t ht => .restored none ht hopt (fun _ he => by cases he)
          ⟨hsees.derived, rfl, hsees.workerAt, hsees.processed, hsees.read, hsees.sent⟩) hstep

/-! ## Steps of the other thread -/

theorem drop_take_succ {l : List Message} {n k : Nat} {m : Message} (hm : l[n]? = some m)
    (hk : k ≤ n) : (l.take (n + 1)).drop k = (l.take n).drop k ++ [m] := by
  have hn := (List.getElem?_eq_some_iff.mp hm).1
  have hbound : k ≤ (l.take n).length := by
    rw [List.length_take, Nat.min_eq_left hn.le]
    exact hk
  rw [List.take_add_one, hm, Option.toList_some, List.drop_append_of_le_length hbound]

/-- `DataReceiver` takes the next message of the script, or finds the end. -/
theorem Paired.worker_recvChunks (h : p.Paired env (st.connections i)) {r : Nat}
    {sent : List Message} (hr : 3 ≤ r) (hup : p.c.task.opt ≠ some .download)
    (hnotover : overAt (st.connections i).threadAt .recvChunks = false)
    (hsees : Sees (st.connections i) (some p.key) (some (p.enclaveClient env)) .recvChunks
      (((p.script env).take r).drop 3) r sent)
    (hside : ∀ (s : Connection) (w : WorkerAt) (processed : List Message) (n : Nat),
      s.threadAt = (st.connections i).threadAt → s.recvBuf = (st.connections i).recvBuf →
      p.Receiving env w processed n →
      Sees s (some p.key) (some (p.enclaveClient env)) w processed n sent → p.ServerSide env s)
    (hstep : workerStep env setup st i taken = some st') : p.Paired env (st'.connections i) := by
  simp only [workerStep, hsees.workerAt] at hstep
  refine State.receive_self hstep h (fun m s hm hs => ?_) fun hnone hclosed s hs => ?_
  · have hmsg := h.next_script hm
    rw [hsees.read] at hmsg
    have hs' : s = { st.connections i with
        toServer := (st.connections i).toServer.advance
        processed := (st.connections i).processed ++ [m] } := by
      split at hs
      · exact (Option.some.inj hs).symm
      · exact (Option.some.inj hs).symm
      · cases hs
    subst hs'
    refine h.serverStep ⟨rfl, rfl, rfl, rfl, rfl, List.prefix_rfl⟩ (Or.inr ⟨ne_none_of_eq hm, rfl⟩)
      (hside _ _ _ (r + 1) rfl rfl (.recvChunks (r + 1) (Nat.le_succ_of_le hr) hup)
        ⟨hsees.derived, hsees.sgxClient, hsees.workerAt, ?_, congrArg (· + 1) hsees.read,
          hsees.sent⟩) fun ho => over_false ho rfl hsees.workerAt hnotover
    rw [drop_take_succ hmsg hr, ← hsees.processed]
  · obtain rfl := Option.some.inj hs
    exact h.serverStep ⟨rfl, rfl, rfl, rfl, rfl, List.prefix_rfl⟩ (Or.inl rfl)
      (hside _ _ _ r rfl rfl (.exited r hr hup)
        ⟨hsees.derived, hsees.sgxClient, rfl, hsees.processed, hsees.read, hsees.sent⟩)
      fun _ => ⟨rfl, Or.inr ⟨hclosed, hnone⟩⟩

/-- `EnclaveRecvDecoder` is told to start. -/
theorem Paired.worker_recvReady (h : p.Paired env (st.connections i)) {sent : List Message}
    (hnotover : ∀ rest, overAt (st.connections i).threadAt (.sendBatches rest) = false)
    (hsees : Sees (st.connections i) (some p.key) (some (p.enclaveClient env)) .recvReady [] 3 sent)
    (hside : ∀ s : Connection, 2 ≤ sent.length → s.threadAt = (st.connections i).threadAt →
      Sees s (some p.key) (some (p.enclaveClient env)) (.sendBatches (p.batches env)) [] 4 sent →
      p.ServerSide env s)
    (hstep : workerStep env setup st i taken = some st') : p.Paired env (st'.connections i) := by
  simp only [workerStep, hsees.workerAt] at hstep
  refine State.receive_self hstep h (fun m s hm hs => ?_) fun _ _ _ hs => by cases hs
  -- the client is ready once it has read the response
  have hlen : 4 ≤ (st.connections i).toServer.sent.length := by
    have hlt := Channel.lt_of_next hm
    rwa [hsees.read] at hlt
  have hreplies := (h.client.responded hlen).1.trans h.readClient
  rw [hsees.sent] at hreplies
  split at hs
  · rw [hsees.sgxClient, Option.bind_some] at hs
    obtain ⟨restored, hrestored, rfl⟩ := Option.map_eq_some_iff.mp hs
    have hbatches : restoreMessages env (p.enclaveClient env).clientID
        (p.enclaveClient env).sessionKey restored = p.batches env := by
      rw [batches, hrestored]
      rfl
    exact h.serverStep ⟨rfl, rfl, rfl, rfl, rfl, List.prefix_rfl⟩
      (Or.inr ⟨ne_none_of_eq hm, rfl⟩)
      (hside _ hreplies rfl ⟨hsees.derived, rfl, by rw [hbatches], hsees.processed,
        congrArg (· + 1) hsees.read, hsees.sent⟩)
      fun ho => over_false ho rfl rfl (hnotover _)
  · cases hs

/-- `EnclaveRecvDecoder` sends, and waits for the end. -/
theorem Paired.worker_sending (h : p.Paired env (st.connections i)) {w : WorkerAt}
    {out : List Message} (hat : (st.connections i).threadAt = .join p.c.clientID .download)
    (hopt : p.c.task.opt = some .download) (hw : p.Sending env w out)
    (hsees : Sees (st.connections i) (some p.key) (some (p.enclaveClient env)) w [] 4
      ([p.reply, p.response] ++ out))
    (hstep : workerStep env setup st i taken = some st') : p.Paired env (st'.connections i) := by
  cases hw with
  | sendBatches out rest hall =>
      cases rest with
      | nil =>
          simp only [workerStep, hsees.workerAt, Option.some.injEq] at hstep
          subst hstep
          rw [List.append_nil] at hall
          subst hall
          rw [State.connections_set_self]
          exact h.serverStep ⟨rfl, rfl, rfl, rfl, rfl, List.prefix_rfl⟩ (Or.inl rfl)
            (.sending .recvClosed _ hat hopt .recvClosed
              ⟨hsees.derived, hsees.sgxClient, rfl, hsees.processed, hsees.read, hsees.sent⟩)
            fun ho => over_false ho hat rfl rfl
      | cons m rest =>
          simp only [workerStep, hsees.workerAt, Option.some.injEq] at hstep
          subst hstep
          refine State.send_self h (h.serverStep ⟨rfl, rfl, rfl, rfl, rfl, List.prefix_append _ _⟩
            (Or.inl rfl) (.sending (.sendBatches rest) (out ++ [m]) hat hopt
              (.sendBatches _ _ (by rw [List.append_assoc]; exact hall))
              ⟨hsees.derived, hsees.sgxClient, rfl, hsees.processed, hsees.read, ?_⟩)
            fun ho => over_false ho hat rfl rfl)
          change (st.connections i).toClient.sent ++ [m] = _
          rw [hsees.sent, List.append_assoc]
  | recvClosed =>
      simp only [workerStep, hsees.workerAt] at hstep
      refine State.receive_self hstep h (fun m s hm hs => ?_) fun hnone hclosed s hs => ?_
      · have hmsg := h.next_script hm
        rw [hsees.read, script_download hopt] at hmsg
        cases hmsg
      · obtain rfl := Option.some.inj hs
        exact h.serverStep ⟨rfl, rfl, rfl, rfl, rfl, List.prefix_rfl⟩ (Or.inl rfl)
          (.sending .exited _ hat hopt .exited
            ⟨hsees.derived, hsees.sgxClient, rfl, hsees.processed, hsees.read, hsees.sent⟩)
          fun _ => ⟨rfl, Or.inr ⟨hclosed, hnone⟩⟩
  | exited =>
      simp only [workerStep, hsees.workerAt] at hstep
      cases hstep

/-- Every step of the session's other thread follows the script. -/
theorem Paired.workerStep (h : p.Paired env (st.connections i))
    (hstep : workerStep env setup st i taken = some st') : p.Paired env (st'.connections i) := by
  have hnone : ∀ {derived sgxClient w processed r sent},
      Sees (st.connections i) derived sgxClient w processed r sent → (w = .idle ∨ w = .exited) →
      p.Paired env (st'.connections i) := by
    intro derived sgxClient w processed r sent hsees hw
    rcases hw with rfl | rfl <;> simp only [Protocol.workerStep, hsees.workerAt] at hstep <;>
      cases hstep
  cases h.server with
  | responding opt w processed r hat hopt hbuf hw hsees =>
      cases hw with
      | recvChunks r hr hup =>
          exact h.worker_recvChunks hr hup (by rw [hat]; rfl) hsees
            (fun s w processed n hat' hbuf' hw hs =>
              .responding opt w processed n (hat'.trans hat) hopt (by rw [hbuf']; exact hbuf) hw hs)
            hstep
      | exited r hr hup => exact hnone hsees (Or.inr rfl)
      | recvReady hdown =>
          exact h.worker_recvReady (fun _ => by rw [hat]; rfl) hsees
            (fun s hlen => absurd hlen (Nat.not_succ_le_self 1)) hstep
  | receiving opt w processed r hat hopt hw hsees =>
      cases hw with
      | recvChunks r hr hup =>
          exact h.worker_recvChunks hr hup (by rw [hat]; rfl) hsees
            (fun s w processed n hat' _ hw hs =>
              .receiving opt w processed n (hat'.trans hat) hopt hw hs) hstep
      | exited r hr hup => exact hnone hsees (Or.inr rfl)
      | recvReady hdown =>
          rw [hopt] at hdown
          obtain rfl := Option.some.inj hdown
          exact h.worker_recvReady (fun _ => by rw [hat]; rfl) hsees (fun s _ hat' hs =>
            .sending _ [] (hat'.trans hat) hopt (.sendBatches [] _ rfl) hs) hstep
  | sending w out hat hopt hw hsees => exact h.worker_sending hat hopt hw hsees hstep
  | received sgxClient processed r hat hopt hsgx hw hsees => exact hnone hsees (Or.inr rfl)
  | restored sgxClient hat hopt hsgx hsees => exact hnone hsees (Or.inr rfl)
  | recvRa hat hsees | recvGone hat hopt hsees | recvKeyInit hat hopt hsees
  | exchange hat hopt hbuf hsees | sendReply hat hopt hbuf hsees | recvLogin hat hopt hsees
  | login opt hat hopt hbuf hsees | sendNonExist hat hopt hbuf hsees | nonExist hat hopt hsees =>
      exact hnone hsees (Or.inl rfl)

/-! ## Whole runs -/

/-- Whatever anyone does, a client and its session follow their script. -/
theorem Paired.step (h : p.Paired env (st.connections i)) (hlocked : Locked st)
    (hcipher : SessionCipher env) {a : Act ι} (hstep : step env setup st a = some st') :
    p.Paired env (st'.connections i) := by
  have hcases := (step_cases hstep).2
  by_cases hi : a.connection = i
  · cases a with
    | thread j taken =>
        obtain rfl : j = i := hi
        exact h.threadStep (hlocked j) hcipher hcases
    | worker j taken =>
        obtain rfl : j = i := hi
        exact h.workerStep hcases
    | client j =>
        obtain rfl : j = i := hi
        obtain ⟨c, s, hc, hs, rfl⟩ := hcases
        obtain rfl := Option.some.inj (hc.symm.trans p.client)
        rw [State.connections_set_self]
        exact h.clientStep hs
    | kill j =>
        obtain rfl : j = i := hi
        obtain ⟨-, hopen, rfl⟩ := hcases
        rw [State.connections_set_self]
        exact h.kill hopen
    | foreignSend j m =>
        obtain rfl : j = i := hi
        cases hcases.1.symm.trans p.client
    | foreignClose j =>
        obtain rfl : j = i := hi
        cases hcases.1.symm.trans p.client
  · rw [step_others hstep (Ne.symm hi)]
    exact h

theorem Paired.exec (h : p.Paired env (st.connections i)) (hlocked : Locked st)
    (hcipher : SessionCipher env) {as : List (Act ι)}
    (hexec : exec (Protocol.step env setup) st as = some st') : p.Paired env (st'.connections i) :=
  (exec_inv' (I := fun st => Locked st ∧ p.Paired env (st.connections i))
    (fun _ _ _ hinv hstep => ⟨hinv.1.step hstep, hinv.2.step hinv.1 hcipher hstep⟩) as
    ⟨hlocked, h⟩ hexec).2

end Thread

end Pairing

end ShieldReduce.Protocol
