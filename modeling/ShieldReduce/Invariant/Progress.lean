import ShieldReduce.Invariant.Dialogue
import Mathlib.Algebra.Order.BigOperators.Group.Finset
import Mathlib.Data.Fintype.Defs

/-!
# Connections come to an end

Every step of a connection of a `ShieldReduceClient` lowers its `work`,
the steps and messages that are left to both sides. A connection without a
step has returned, or waits for a lock: a session that waits for a message
waits for a client that waits for nothing, as the counts of what either
side has sent and read show. The same counts show that a client that is not
killed never brings the server to its `exit(EXIT_FAILURE)`.
-/

namespace ShieldReduce.Protocol

open ByteLib UMapLib StepLib

/-! ## What is left to do -/

/-- The steps of a client with `n` messages of data, but for those that read. -/
def ClientAt.rank (n : Nat) : ClientAt → Nat
  | .sendRa => n + 8
  | .sendKeyInit => n + 7
  | .recvReply => n + 6
  | .sendLogin _ => n + 5
  | .recvResponse _ => n + 4
  | .sendData rest => rest.length + 2
  | .sendReady _ _ => 3
  | .recvData _ _ => 2
  | .finish => 1
  | .exited _ => 0
  | .killed => 0
  | .foreign => 0

def ThreadAt.rank : ThreadAt → Nat
  | .recvRa => 20
  | .recvGone => 19
  | .recvKeyInit => 19
  | .lockSet _ => 18
  | .findLock _ => 17
  | .lockClient _ => 16
  | .unlockSet _ => 15
  | .keyExchange _ => 14
  | .sendReply _ => 13
  | .recvLogin _ => 12
  | .checkFileStatus _ _ => 11
  | .sendNonExist _ => 4
  | .recvClosed _ => 3
  | .newClientVar _ _ => 10
  | .initClient _ _ => 9
  | .sendResponse _ _ => 8
  | .join _ _ => 7
  | .processOff _ => 6
  | .destroyClient _ => 5
  | .unlockClient _ => 2
  | .returned => 0

/-- The same for the other thread of a session with `n` messages of a restore. -/
def WorkerAt.rank (n : Nat) : WorkerAt → Nat
  | .idle => n + 4
  | .recvReady => n + 3
  | .sendBatches rest => rest.length + 2
  | .recvChunks => 1
  | .recvClosed => 1
  | .exited => 0

variable {ι : Type} {env : Env} {kx : KeyExchange} {setup : Setup ι kx} {i : ι}

namespace Pairing

section

variable (env) (p : Pairing setup i)

/-- What is left to do for a connection. -/
def work (s : Connection) : Nat :=
  s.clientAt.rank (p.dataMessages env).length + s.threadAt.rank +
    s.workerAt.rank (p.batches env).length + ((p.script env).length - s.toServer.read) +
    (2 + (p.batches env).length - s.toClient.read)

end

variable {p : Pairing setup i} {s s' : Connection}

theorem ServerSide.length_sent (h : p.ServerSide env s) :
    s.toClient.sent.length ≤ 2 + (p.batches env).length := by
  cases h
  case sending w out hat hopt hw h =>
    rw [h.sent, List.length_append]
    refine Nat.add_le_add_left ?_ 2
    cases hw with
    | sendBatches out rest hall =>
        rw [← hall, List.length_append]
        exact Nat.le_add_right _ _
    | recvClosed => exact le_refl _
    | exited => exact le_refl _
  case restored h =>
    rw [h.sent, List.length_append]
    exact le_refl _
  all_goals
    rename_i h
    rw [h.sent]
    simp only [List.length_nil, List.length_cons]
    omega

theorem length_uploadMessages_le (env : Env) (p : Pairing setup i) :
    (p.c.uploadMessages env p.key).length ≤ (p.dataMessages env).length := by
  rw [dataMessages, Client.uploadMessages]
  cases p.c.task with
  | upload offline chunks head => exact le_refl _
  | download => exact Nat.zero_le _
  | ra => exact le_refl _

/-- A client takes a step, or reads a message. -/
theorem Paired.clientStep_rank (h : p.Paired env s) (hstep : s.clientStep env p.c = some s') :
    (s'.clientAt.rank (p.dataMessages env).length < s.clientAt.rank (p.dataMessages env).length ∧
        s'.toClient.read = s.toClient.read) ∨
      (s'.clientAt.rank (p.dataMessages env).length ≤ s.clientAt.rank (p.dataMessages env).length ∧
        s.toClient.next ≠ none ∧ s'.toClient.read = s.toClient.read + 1) := by
  have hupload := p.length_uploadMessages_le env
  have hplace := h.client.place
  cases hat : s.clientAt <;> simp only [Connection.clientStep, hat] at hstep
  case recvReply =>
    obtain ⟨m, hm, rfl⟩ := Connection.clientReceive_cases hstep
    refine Or.inr ⟨?_, ne_none_of_eq hm, by split <;> [split; skip] <;> rfl⟩
    split
    · split <;> simp only [Connection.exitClient, ClientAt.rank] <;> omega
    · exact Nat.zero_le _
  case recvResponse k =>
    simp only [AtClient, hat] at hplace
    obtain ⟨rfl, -⟩ := hplace
    obtain ⟨m, hm, rfl⟩ := Connection.clientReceive_cases hstep
    refine Or.inr ⟨?_, ne_none_of_eq hm, by split <;> [split; skip] <;> rfl⟩
    split
    · split <;> simp only [ClientAt.rank] <;> omega
    · exact Nat.zero_le _
  case recvData k head =>
    obtain ⟨m, hm, rfl⟩ := Connection.clientReceive_cases hstep
    refine Or.inr ⟨?_, ne_none_of_eq hm, by split <;> rfl⟩
    split
    · rw [← hat]
    · exact Nat.zero_le _
    · exact Nat.zero_le _
  case sendRa =>
    obtain rfl := Option.some.inj hstep
    refine Or.inl ⟨?_, rfl⟩
    simp only [Connection.clientSend]
    split <;> simp only [ClientAt.rank] <;> omega
  case sendData rest =>
    cases rest <;> obtain rfl := Option.some.inj hstep <;> refine Or.inl ⟨?_, rfl⟩ <;>
      simp only [Connection.clientSend, ClientAt.rank, List.length_nil, List.length_cons] <;> omega
  case sendKeyInit | sendLogin | sendReady | finish =>
    obtain rfl := Option.some.inj hstep
    refine Or.inl ⟨?_, rfl⟩
    simp only [Connection.clientSend, Connection.exitClient, ClientAt.rank]
    omega
  case exited | killed | foreign => cases hstep

theorem Paired.work_clientStep (h : p.Paired env s) (hstep : s.clientStep env p.c = some s') :
    p.work env s' < p.work env s := by
  have hsame := Connection.clientStep_same hstep
  have hbound := h.server.length_sent
  rw [work, work, hsame.threadAt, hsame.workerAt, hsame.read]
  rcases h.clientStep_rank hstep with ⟨hrank, hread⟩ | ⟨hrank, hnext, hread⟩
  · omega
  · have hlt := Channel.read_lt hnext
    omega

theorem Paired.work_kill (h : p.Paired env s) (hopen : s.closed = false) :
    p.work env { s with clientAt := .killed, closed := true } < p.work env s := by
  have hplace := h.client.place
  have hlive := h.client.closed
  rw [hopen] at hlive
  rw [work, work]
  cases hat : s.clientAt <;> rw [hat] at hlive <;> simp only [AtClient, hat] at hplace <;>
    simp only [ClientAt.rank, ClientAt.live, Bool.not_false, Bool.false_eq_true] at hlive ⊢ <;>
    omega

/-! ## Steps of the session -/

theorem work_lt {p : Pairing setup i} (hthread : s'.threadAt.rank < s.threadAt.rank)
    (hworker : s'.workerAt.rank (p.batches env).length ≤ s.workerAt.rank (p.batches env).length)
    (hclient : s'.clientAt = s.clientAt) (hread : s.toServer.read ≤ s'.toServer.read)
    (hreadClient : s'.toClient.read = s.toClient.read) : p.work env s' < p.work env s := by
  rw [work, work, hclient, hreadClient]
  omega

theorem work_lt_thread {p : Pairing setup i} {t : ThreadAt} (hat : s.threadAt = t)
    (hthread : s'.threadAt.rank < t.rank) (hworker : s'.workerAt = s.workerAt)
    (hclient : s'.clientAt = s.clientAt) (hread : s.toServer.read ≤ s'.toServer.read)
    (hreadClient : s'.toClient.read = s.toClient.read) : p.work env s' < p.work env s :=
  work_lt (by rw [hat]; exact hthread) (by rw [hworker]) hclient hread hreadClient

/-- The other thread has not started before the login is through. -/
theorem ServerSide.idle (h : p.ServerSide env s) {c : UInt32} {opt : Opt}
    (hat : s.threadAt = .initClient c opt) : s.workerAt = .idle := by
  cases h
  case login h => exact h.workerAt
  all_goals simp_all [ThreadAt.exchanging, ThreadAt.ending]

theorem work_lt_worker {p : Pairing setup i} (hthread : s'.threadAt = s.threadAt)
    (hworker : s'.workerAt.rank (p.batches env).length < s.workerAt.rank (p.batches env).length)
    (hclient : s'.clientAt = s.clientAt) (hread : s.toServer.read ≤ s'.toServer.read)
    (hreadClient : s'.toClient.read = s.toClient.read) : p.work env s' < p.work env s := by
  rw [work, work, hthread, hclient, hreadClient]
  omega

theorem work_lt_read {p : Pairing setup i} (hthread : s'.threadAt = s.threadAt)
    (hworker : s'.workerAt = s.workerAt) (hclient : s'.clientAt = s.clientAt)
    (hread : s'.toServer.read = s.toServer.read + 1)
    (hreadClient : s'.toClient.read = s.toClient.read)
    (hmore : s.toServer.read < (p.script env).length) : p.work env s' < p.work env s := by
  rw [work, work, hthread, hworker, hclient, hread, hreadClient]
  omega

theorem length_batches {restored : List (List Chunk) × List Chunk}
    (hrestored : setup.restored i = some restored) (clientID : UInt32) (sessionKey : Key) :
    (restoreMessages env clientID sessionKey restored).length = (p.batches env).length := by
  simp only [batches, hrestored, restoreMessages, List.length_append, List.length_map,
    List.length_singleton]

section Session

variable [DecidableEq ι] {st st' : State ι} {taken : Bool}

/-- The server exits, or the connection has less to do. -/
def Lowered (p : Pairing setup i) (env : Env) (st st' : State ι) : Prop :=
  (st'.down = true ∧ st'.connections = st.connections) ∨
    p.work env (st'.connections i) < p.work env (st.connections i)

theorem lowered_goOn {k : Option Connection}
    (hk : ∀ s, k = some s → p.work env s < p.work env (st.connections i)) :
    p.Lowered env st (st.goOn i k) :=
  State.goOn_cases (Or.inl ⟨rfl, rfl⟩) fun s hs => Or.inr (by
    rw [State.connections_set_self]
    exact hk s hs)

theorem lowered_receive {size : Nat} {onMessage : Message → Connection → Option Connection}
    {onClosed : Connection → Option Connection}
    (hstep : st.receive i size onMessage onClosed = some st')
    (hmessage : ∀ m s, (st.connections i).toServer.next = some m → onMessage m
      { st.connections i with toServer := (st.connections i).toServer.advance } = some s →
        p.work env s < p.work env (st.connections i))
    (hclosed : ∀ s, onClosed (st.connections i) = some s →
      p.work env s < p.work env (st.connections i)) : p.Lowered env st st' :=
  State.receive_cases hstep (fun m hm _ => lowered_goOn fun s => hmessage m s hm) fun _ _ =>
    lowered_goOn hclosed

theorem lowered_send {m : Message} {onSent : Connection → Connection}
    (hsent : p.work env (onSent { st.connections i with
      toClient := (st.connections i).toClient.send m }) < p.work env (st.connections i)) :
    p.Lowered env st (st.send i taken m onSent) :=
  State.send_cases (fun _ => Or.inl ⟨rfl, rfl⟩) (Or.inr (by
    rw [State.connections_set_self]
    exact hsent))

theorem Paired.lowered_threadStep (h : p.Paired env (st.connections i))
    (hstep : Protocol.threadStep env setup st i taken = some st') : p.Lowered env st st' := by
  have hgo : ∀ t : ThreadAt, t.rank < (st.connections i).threadAt.rank →
      p.work env ((st.connections i).goTo t) < p.work env (st.connections i) := fun t ht =>
    work_lt ht (le_refl _) rfl (le_refl _) rfl
  have hset : ∀ {g : Shared ι} {s : Connection},
      p.work env s < p.work env (st.connections i) →
      p.Lowered env st { st.set i s with toShared := g } := fun hs => Or.inr (by
    rw [show (State.set st i _).connections i = _ from State.connections_set_self ..]
    exact hs)
  rw [Protocol.threadStep] at hstep
  cases hat : (st.connections i).threadAt <;> simp only [hat] at hstep hgo
  case recvRa =>
    refine lowered_receive hstep (fun m s hm hs => ?_) fun _ hs => by cases hs
    split at hs
    · obtain rfl := Option.some.inj hs
      exact work_lt_thread hat (Nat.lt_succ_self 19) rfl rfl (Nat.le_succ _) rfl
    · obtain rfl := Option.some.inj hs
      exact work_lt_thread hat (Nat.lt_succ_self 19) rfl rfl (Nat.le_succ _) rfl
    · cases hs
  case recvGone =>
    refine lowered_receive hstep (fun m s hm hs => ?_) fun s hs => ?_ <;>
      obtain rfl := Option.some.inj hs
    · exact work_lt_thread hat (Nat.succ_pos 18) rfl rfl (Nat.le_succ _) rfl
    · exact work_lt_thread hat (Nat.succ_pos 18) rfl rfl (le_refl _) rfl
  case recvKeyInit =>
    refine lowered_receive hstep (fun m s hm hs => ?_) fun _ hs => by cases hs
    split at hs
    · obtain rfl := Option.some.inj hs
      exact work_lt_thread hat (Nat.lt_succ_self 18) rfl rfl (Nat.le_succ _) rfl
    · cases hs
  case lockSet c =>
    split at hstep
    · obtain rfl := Option.some.inj hstep
      exact hset (hgo _ (Nat.lt_succ_self 17))
    · cases hstep
  case findLock c =>
    split at hstep <;> obtain rfl := Option.some.inj hstep <;>
      exact hset (hgo _ (Nat.lt_succ_self 16))
  case lockClient c =>
    split at hstep
    · obtain rfl := Option.some.inj hstep
      exact hset (hgo _ (Nat.lt_succ_self 15))
    · cases hstep
  case unlockSet c =>
    obtain rfl := Option.some.inj hstep
    exact hset (hgo _ (Nat.lt_succ_self 14))
  case keyExchange c =>
    split at hstep <;> obtain rfl := Option.some.inj hstep
    · exact hset (work_lt_thread hat (Nat.lt_succ_self 13) rfl rfl (le_refl _) rfl)
    · exact Or.inl ⟨rfl, rfl⟩
  case sendReply c =>
    obtain rfl := Option.some.inj hstep
    exact lowered_send (work_lt_thread hat (Nat.lt_succ_self 12) rfl rfl (le_refl _) rfl)
  case recvLogin c =>
    refine lowered_receive hstep (fun m s hm hs => ?_) fun _ hs => by cases hs
    obtain ⟨opt, -, rfl⟩ := Option.map_eq_some_iff.mp hs
    exact work_lt_thread hat (Nat.lt_succ_self 11) rfl rfl (Nat.le_succ _) rfl
  case checkFileStatus c opt =>
    split at hstep <;> obtain rfl := Option.some.inj hstep
    · exact hset (hgo _ (by simp only [ThreadAt.rank]; omega))
    · exact hset (hgo _ (Nat.lt_succ_self 10))
  case sendNonExist c =>
    obtain rfl := Option.some.inj hstep
    exact lowered_send (work_lt_thread hat (Nat.lt_succ_self 3) rfl rfl (le_refl _) rfl)
  case recvClosed c =>
    refine lowered_receive hstep (fun _ _ _ hs => by cases hs) fun s hs => ?_
    obtain rfl := Option.some.inj hs
    exact hgo _ (Nat.lt_succ_self 2)
  case newClientVar c opt =>
    obtain rfl := Option.some.inj hstep
    split <;> exact hset (hgo _ (Nat.lt_succ_self 9))
  case initClient c opt =>
    obtain rfl := Option.some.inj hstep
    refine lowered_goOn fun s hs => ?_
    obtain ⟨k, -, rfl⟩ := Option.map_eq_some_iff.mp hs
    refine work_lt (by rw [hat]; exact Nat.lt_succ_self 8) ?_ rfl (le_refl _) rfl
    rw [h.server.idle hat]
    dsimp only
    split <;> simp only [WorkerAt.rank] <;> omega
  case sendResponse c opt =>
    obtain rfl := Option.some.inj hstep
    exact lowered_send (work_lt_thread hat (Nat.lt_succ_self 7) rfl rfl (le_refl _) rfl)
  case join c opt =>
    split at hstep
    · obtain rfl := Option.some.inj hstep
      exact hset (hgo _ (by split <;> simp only [ThreadAt.rank] <;> omega))
    · cases hstep
  case processOff c =>
    obtain rfl := Option.some.inj hstep
    exact hset (hgo _ (Nat.lt_succ_self 5))
  case destroyClient c =>
    obtain rfl := Option.some.inj hstep
    exact hset (work_lt_thread hat (by simp only [ThreadAt.rank]; omega) rfl rfl (le_refl _) rfl)
  case unlockClient c =>
    obtain rfl := Option.some.inj hstep
    exact hset (hgo _ (by simp only [ThreadAt.rank]; omega))
  case returned => cases hstep

theorem Paired.lowered_workerStep (h : p.Paired env (st.connections i))
    (hstep : Protocol.workerStep env setup st i taken = some st') : p.Lowered env st st' := by
  rw [Protocol.workerStep] at hstep
  cases hat : (st.connections i).workerAt <;> simp only [hat] at hstep
  case idle => cases hstep
  case recvChunks =>
    refine lowered_receive hstep (fun m s hm hs => ?_) fun s hs => ?_
    · have hlt := Channel.lt_of_next hm
      have hmore := hlt.trans_le h.client.script.length_le
      split at hs
      · obtain rfl := Option.some.inj hs
        exact work_lt_read rfl rfl rfl rfl rfl hmore
      · obtain rfl := Option.some.inj hs
        exact work_lt_read rfl rfl rfl rfl rfl hmore
      · cases hs
    · obtain rfl := Option.some.inj hs
      exact work_lt_worker rfl (by rw [hat]; exact Nat.one_pos) rfl (le_refl _) rfl
  case recvReady =>
    refine lowered_receive hstep (fun m s hm hs => ?_) fun _ hs => by cases hs
    split at hs
    · obtain ⟨e, -, hs⟩ := Option.bind_eq_some_iff.mp hs
      obtain ⟨restored, hrestored, rfl⟩ := Option.map_eq_some_iff.mp hs
      refine work_lt_worker rfl ?_ rfl (Nat.le_succ _) rfl
      rw [hat]
      simp only [WorkerAt.rank, p.length_batches hrestored]
      omega
    · cases hs
  case sendBatches rest =>
    cases rest with
    | nil =>
        obtain rfl := Option.some.inj hstep
        refine Or.inr ?_
        rw [State.connections_set_self]
        exact work_lt_worker rfl (by rw [hat]; exact Nat.lt_succ_self 1) rfl (le_refl _) rfl
    | cons m rest =>
        obtain rfl := Option.some.inj hstep
        exact lowered_send (work_lt_worker rfl (by rw [hat]; exact Nat.lt_succ_self _) rfl
          (le_refl _) rfl)
  case recvClosed =>
    refine lowered_receive hstep (fun m s hm hs => ?_) fun s hs => ?_ <;>
      obtain rfl := Option.some.inj hs
    · exact work_lt_worker rfl (by rw [hat]; exact Nat.one_pos) rfl (Nat.le_succ _) rfl
    · exact work_lt_worker rfl (by rw [hat]; exact Nat.one_pos) rfl (le_refl _) rfl
  case exited => cases hstep

end Session

/-! ## Connections without a step -/

/-- A client that waits for a message: what it has sent, and that it has read everything. -/
structure Waits (env : Env) (p : Pairing setup i) (s : Connection) : Prop where
  opt : p.c.task.opt ≠ none
  drained : s.toClient.read = s.toClient.sent.length
  place : (s.toServer.sent.length = 2 ∧ s.toClient.read = 0) ∨
    (s.toServer.sent.length = 3 ∧ s.toClient.read = 1) ∨
    (s.toServer.sent.length = 4 ∧ p.c.task.opt = some .download ∧
      (p.batches env ≠ [] → s.toClient.read < 2 + (p.batches env).length))

theorem Paired.waits (h : p.Paired env s) (hopen : s.closed = false)
    (hstuck : s.clientStep env p.c = none) : Waits env p s := by
  have hplace := h.client.place
  have hlive := h.client.closed
  rw [hopen] at hlive
  have hdrained : ∀ {onMessage}, s.clientReceive onMessage = none →
      s.toClient.read = s.toClient.sent.length := fun hnone =>
    h.readClient.antisymm (List.getElem?_eq_none_iff.mp (Option.map_eq_none_iff.mp hnone))
  cases hat : s.clientAt <;> rw [hat] at hlive <;> simp only [AtClient, hat] at hplace <;>
    simp only [Connection.clientStep, hat] at hstuck
  case recvReply =>
    obtain ⟨hopt, hsent, hread⟩ := hplace
    exact ⟨hopt, hdrained hstuck, Or.inl ⟨by rw [hsent]; rfl, hread⟩⟩
  case recvResponse k =>
    obtain ⟨-, hopt, hsent, hread⟩ := hplace
    exact ⟨hopt, hdrained hstuck, Or.inr (Or.inl ⟨by rw [hsent]; rfl, hread⟩)⟩
  case recvData k head =>
    obtain ⟨-, -, hopt, hsent, -, hmore⟩ := hplace
    refine ⟨ne_none_of_eq hopt, hdrained hstuck, Or.inr (Or.inr ⟨?_, hopt, hmore⟩)⟩
    rw [hsent, script_download hopt]
    rfl
  case sendData rest => cases rest <;> cases hstuck
  case sendRa | sendKeyInit | sendLogin | sendReady | finish => cases hstuck
  case exited | killed => cases hlive

theorem Paired.script_next (h : p.Paired env s) {derived : Option Key}
    {sgxClient : Option EnclaveClient} {w : WorkerAt} {processed : List Message} {r : Nat}
    {sent : List Message} (hsees : Sees s derived sgxClient w processed r sent) {m : Message}
    (hm : s.toServer.next = some m) : (p.script env)[r]? = some m := by
  rw [← hsees.read]
  exact h.next_script hm

/-! What a client sends fits the buffer that it goes to. -/

theorem length_login (hcipher : SessionCipher env) :
    (p.c.login env p.key).data.length ≤ SESSION_KEY_BUFFER_SIZE := by
  rw [Client.login]
  dsimp only
  rw [List.length_append, hcipher.length, (p.c.fileNameHash env).2, (p.c.masterKey env).2]
  decide

theorem exchange_fits (hcipher : SessionCipher env) {r : Nat} (hr : r < 3) (m : Message)
    (hm : (p.script env)[r]? = some m) : m.data.length ≤ SESSION_KEY_BUFFER_SIZE := by
  have hra : p.c.raDecision.data.length ≤ SESSION_KEY_BUFFER_SIZE := Nat.zero_le _
  have hinit : p.c.keyInit.data.length ≤ SESSION_KEY_BUFFER_SIZE :=
    (kx.publicKey p.c.privateKey).2.le
  have hlogin := length_login (p := p) hcipher
  by_cases hopt : p.c.task.opt = none
  · rw [script_ra hopt] at hm
    rw [List.mem_singleton.mp (List.mem_of_getElem? hm)]
    exact hra
  · rw [script_opt hopt, List.getElem?_append_left (by exact hr)] at hm
    have hmem := List.mem_of_getElem? hm
    rw [List.mem_cons, List.mem_cons, List.mem_singleton] at hmem
    rcases hmem with rfl | rfl | rfl
    · exact hra
    · exact hinit
    · exact hlogin

theorem data_fits (hcipher : SessionCipher env) (hn : 1 ≤ env.sendChunkBatchSize)
    (hfit : env.sendChunkBatchSize * sizeofChunk < 2 ^ 32) {r : Nat} (hr : 3 ≤ r) (m : Message)
    (hm : (p.script env)[r]? = some m) : m.data.length ≤ recvChunkBufSize env := by
  by_cases hopt : p.c.task.opt = none
  · rw [script_ra hopt, List.getElem?_eq_none (by rw [List.length_singleton]; omega)] at hm
    cases hm
  · rw [script_opt hopt, List.getElem?_append_right (by exact hr)] at hm
    have hmem := List.mem_of_getElem? hm
    rw [dataMessages] at hmem
    split at hmem
    · rename_i htask
      simp only [Client.uploadMessages, htask, List.mem_map] at hmem
      obtain ⟨m', hm', rfl⟩ := hmem
      exact DataSender.length_data_le env p.key hcipher.length hn hfit _ _ hm'
    · rw [List.mem_singleton.mp hmem]
      exact Nat.zero_le _
    · cases hmem

/-- `recvBuf` has room for what follows the login of a restore, too. -/
theorem ready_fits (hopt : p.c.task.opt = some .download) (m : Message)
    (hm : (p.script env)[3]? = some m) : m.data.length ≤ SESSION_KEY_BUFFER_SIZE := by
  rw [script_download hopt] at hm
  rw [← Option.some.inj hm]
  exact Nat.zero_le _

section Stuck

variable [DecidableEq ι] {st st' : State ι} {taken : Bool}

theorem receive_stuck {size : Nat} {onMessage : Message → Connection → Option Connection}
    {onClosed : Connection → Option Connection} (h : st.receive i size onMessage onClosed = none)
    (hfits : ∀ m, (st.connections i).toServer.next = some m → m.data.length ≤ size) :
    (st.connections i).toServer.next = none ∧ (st.connections i).closed = false := by
  rw [State.receive] at h
  split at h
  · rename_i m hm
    rw [if_pos (hfits m hm)] at h
    cases h
  · rename_i hnone
    split at h
    · cases h
    · rename_i hopen
      exact ⟨hnone, Bool.eq_false_iff.mpr hopen⟩

/-- A session that waits for a message has read what its client sent, which waits, too. -/
theorem Paired.waiting (h : p.Paired env (st.connections i))
    (hclient : (st.connections i).clientStep env p.c = none) {derived : Option Key}
    {sgxClient : Option EnclaveClient} {w : WorkerAt} {processed : List Message} {r : Nat}
    {sent : List Message}
    (hsees : Sees (st.connections i) derived sgxClient w processed r sent)
    {size : Nat} {onMessage : Message → Connection → Option Connection}
    {onClosed : Connection → Option Connection} (hnone : st.receive i size onMessage onClosed = none)
    (hfits : ∀ m, (p.script env)[r]? = some m → m.data.length ≤ size) :
    Waits env p (st.connections i) ∧ r = (st.connections i).toServer.sent.length ∧
      (st.connections i).toClient.read = sent.length := by
  obtain ⟨hnext, hopen⟩ := receive_stuck hnone fun m hm => hfits m (h.script_next hsees hm)
  have hwaits := h.waits hopen hclient
  have hread := h.readServer.antisymm (List.getElem?_eq_none_iff.mp hnext)
  exact ⟨hwaits, hsees.read ▸ hread, hsees.sent ▸ hwaits.drained⟩

theorem returned_of_ending (hat : (st.connections i).threadAt.ending = true)
    (hthread : Protocol.threadStep env setup st i taken = none) :
    (st.connections i).threadAt = .returned := by
  cases hplace : (st.connections i).threadAt <;> rw [hplace] at hat <;>
    simp only [ThreadAt.ending, Bool.false_eq_true] at hat <;>
    simp only [Protocol.threadStep, hplace] at hthread <;> cases hthread

/-- A connection without a step has returned, or waits for a lock. -/
theorem Paired.stuck (h : p.Paired env (st.connections i)) (hcipher : SessionCipher env)
    (hn : 1 ≤ env.sendChunkBatchSize) (hfit : env.sendChunkBatchSize * sizeofChunk < 2 ^ 32)
    (hrestored : (setup.restored i).isSome = true)
    (hthread : Protocol.threadStep env setup st i true = none)
    (hworker : Protocol.workerStep env setup st i true = none)
    (hclient : (st.connections i).clientStep env p.c = none) :
    (st.connections i).threadAt = .returned ∨
      (∃ c, (st.connections i).threadAt = .lockSet c) ∨
      ∃ c, (st.connections i).threadAt = .lockClient c := by
  have hside := h.server
  have hbatches : p.batches env ≠ [] := by
    obtain ⟨restored, hr⟩ := Option.isSome_iff_exists.mp hrestored
    simp only [batches, hr, restoreMessages]
    exact List.append_ne_nil_of_right_ne_nil _ (List.cons_ne_nil _ _)
  cases hside with
  | recvRa hat hsees =>
      simp only [Protocol.threadStep, hat] at hthread
      obtain ⟨⟨-, -, hplace⟩, hsent, hreply⟩ := h.waiting hclient hsees hthread
          (exchange_fits hcipher (by decide))
      omega
  | recvGone hat hopt hsees =>
      rcases hat with hat | hat
      · simp only [Protocol.threadStep, hat] at hthread
        exact absurd hopt (h.waiting hclient hsees hthread
          (exchange_fits hcipher (by decide))).1.opt
      · exact Or.inl hat
  | recvKeyInit hat hopt hsees =>
      simp only [Protocol.threadStep, hat] at hthread
      obtain ⟨⟨-, -, hplace⟩, hsent, hreply⟩ := h.waiting hclient hsees hthread
          (exchange_fits hcipher (by decide))
      omega
  | exchange hat hopt hbuf hsees =>
      cases hplace : (st.connections i).threadAt <;> rw [hplace] at hat <;>
        simp only [ThreadAt.exchanging, reduceCtorEq] at hat <;>
        simp only [Protocol.threadStep, hplace] at hthread
      case lockSet c => exact Or.inr (Or.inl ⟨c, rfl⟩)
      case lockClient c => exact Or.inr (Or.inr ⟨c, rfl⟩)
      case findLock | keyExchange => split at hthread <;> cases hthread
      case unlockSet => cases hthread
  | sendReply hat hopt hbuf hsees =>
      simp only [Protocol.threadStep, hat] at hthread
      cases hthread
  | recvLogin hat hopt hsees =>
      simp only [Protocol.threadStep, hat] at hthread
      obtain ⟨⟨-, -, hplace⟩, hsent, hreply⟩ := h.waiting hclient hsees hthread
          (exchange_fits hcipher (by decide))
      rw [List.length_singleton] at hreply
      omega
  | login opt hat hopt hbuf hsees =>
      cases hplace : (st.connections i).threadAt <;> rw [hplace] at hat <;>
        simp only [ThreadAt.loggingIn, reduceCtorEq] at hat <;>
        simp only [Protocol.threadStep, hplace] at hthread
      case checkFileStatus => split at hthread <;> cases hthread
      case newClientVar | initClient => cases hthread
  | sendNonExist hat hopt hbuf hsees =>
      simp only [Protocol.threadStep, hat] at hthread
      cases hthread
  | nonExist hat hopt hsees =>
      rcases hat with hat | hat | hat
      · simp only [Protocol.threadStep, hat] at hthread
        obtain ⟨⟨-, -, hplace⟩, hsent, hreply⟩ := h.waiting hclient hsees hthread
          (ready_fits hopt)
        change _ = 2 at hreply
        omega
      · simp only [Protocol.threadStep, hat] at hthread
        cases hthread
      · exact Or.inl hat
  | responding opt w processed r hat hopt hbuf hw hsees =>
      simp only [Protocol.threadStep, hat] at hthread
      cases hthread
  | receiving opt w processed r hat hopt hw hsees =>
      simp only [Protocol.threadStep, hat] at hthread
      cases hw with
      | recvChunks r hr hup =>
          simp only [Protocol.workerStep, hsees.workerAt] at hworker
          obtain ⟨⟨-, -, hplace⟩, hsent, hreply⟩ := h.waiting hclient hsees hworker
            (data_fits hcipher hn hfit hr)
          change _ = 2 at hreply
          rcases hplace with hplace | hplace | ⟨-, hdown, -⟩
          · omega
          · omega
          · exact absurd hdown hup
      | exited r hr hup => rw [hsees.workerAt] at hthread; cases hthread
      | recvReady hdown =>
          simp only [Protocol.workerStep, hsees.workerAt] at hworker
          obtain ⟨⟨-, -, hplace⟩, hsent, hreply⟩ := h.waiting hclient hsees hworker
            (data_fits hcipher hn hfit (by decide))
          change _ = 2 at hreply
          omega
  | sending w out hat hopt hw hsees =>
      simp only [Protocol.threadStep, hat] at hthread
      cases hw with
      | sendBatches out rest hall =>
          simp only [Protocol.workerStep, hsees.workerAt] at hworker
          cases rest <;> cases hworker
      | recvClosed =>
          simp only [Protocol.workerStep, hsees.workerAt] at hworker
          obtain ⟨⟨-, -, hplace⟩, hsent, hreply⟩ := h.waiting hclient hsees hworker
            (data_fits hcipher hn hfit (by decide))
          rw [List.length_append] at hreply
          change _ = 2 + _ at hreply
          rcases hplace with hplace | hplace | ⟨-, -, hmore⟩
          · omega
          · omega
          · exact absurd hreply (hmore hbatches).ne
      | exited => rw [hsees.workerAt] at hthread; cases hthread
  | received sgxClient processed r hat hopt hsgx hw hsees =>
      exact Or.inl (returned_of_ending hat hthread)
  | restored sgxClient hat hopt hsgx hsees => exact Or.inl (returned_of_ending hat hthread)

end Stuck

/-! ## The server stays up -/

/-- A client that has left by itself: what it has sent and read. -/
theorem Paired.left (h : p.Paired env s) (hclosed : s.closed = true)
    (hkill : s.clientAt ≠ .killed) :
    (p.c.task.opt = none ∧ s.toServer.sent.length = 1) ∨
      (p.c.task.opt ≠ none ∧ 3 ≤ s.toServer.sent.length ∧ 2 ≤ s.toClient.read ∧
        (p.c.task.opt = some .download →
          (s.toServer.sent.length = 4 ∧ s.toClient.read = 2 + (p.batches env).length) ∨
            s.toClient.sent[1]? = some p.nonExist)) := by
  have hplace := h.client.place
  have hlive := h.client.closed
  rw [hclosed] at hlive
  cases hat : s.clientAt <;> rw [hat] at hlive hkill <;> simp only [AtClient, hat] at hplace <;>
    try cases hlive
  case killed => exact absurd rfl hkill
  case exited success =>
    rcases hplace with ⟨hup, -, hsent, hread⟩ | ⟨hdown, -, hsent, hread⟩ |
      ⟨hdown, -, hread, hm, hsent⟩
    · by_cases hopt : p.c.task.opt = none
      · refine Or.inl ⟨hopt, ?_⟩
        rw [hsent, script_ra hopt]
        rfl
      · refine Or.inr ⟨hopt, ?_, (hread hopt).ge, fun hdown => absurd hdown hup⟩
        rw [hsent, script_opt hopt, List.length_append]
        exact Nat.le_add_right 3 _
    · have hlen : s.toServer.sent.length = 4 := by
        rw [hsent, script_download hdown]
        rfl
      exact Or.inr ⟨ne_none_of_eq hdown, by omega, by omega, fun _ => Or.inl ⟨hlen, hread⟩⟩
    · exact Or.inr ⟨ne_none_of_eq hdown, by rw [hsent]; exact le_refl 3, hread.ge,
        fun _ => Or.inr hm⟩

theorem uploadMessages_type {m : Message} (hm : m ∈ p.c.uploadMessages env p.key) :
    m.messageType = .clientUploadChunk ∨ m.messageType = .clientUploadRecipeEnd := by
  rw [Client.uploadMessages] at hm
  split at hm
  · obtain ⟨m', -, rfl⟩ := List.mem_map.mp hm
    rw [Client.ofSender]
    cases m'.messageType
    · exact Or.inl rfl
    · exact Or.inr rfl
  · cases hm

section Up

variable {derived : Option Key} {sgxClient : Option EnclaveClient} {w : WorkerAt}
  {processed : List Message} {r : Nat} {sent : List Message}

/-- The client stays until it has a response. -/
theorem Paired.open_of_sent (h : p.Paired env s) (hkill : s.clientAt ≠ .killed)
    (hsees : Sees s derived sgxClient w processed r sent)
    (hopt : p.c.task.opt ≠ none) (hlen : sent.length < 2) : s.closed ≠ true := by
  intro hgone
  have hreadClient := h.readClient
  rcases h.left hgone hkill with ⟨hnone, -⟩ | ⟨-, -, hread, -⟩
  · exact hopt hnone
  · rw [hsees.sent] at hreadClient
    omega

variable [DecidableEq ι] {st st' : State ι} {taken : Bool}

theorem goOn_up (hup : st.down = false) {k : Option Connection} (hk : k ≠ none) :
    (st.goOn i k).down = false := by
  obtain ⟨s, rfl⟩ := Option.ne_none_iff_exists'.mp hk
  exact hup

theorem receive_up (hup : st.down = false) {size : Nat}
    {onMessage : Message → Connection → Option Connection}
    {onClosed : Connection → Option Connection} (h : st.receive i size onMessage onClosed = some st')
    (hmessage : ∀ m, (st.connections i).toServer.next = some m → onMessage m
      { st.connections i with toServer := (st.connections i).toServer.advance } ≠ none)
    (hclosed : (st.connections i).toServer.next = none → (st.connections i).closed = true →
      onClosed (st.connections i) ≠ none) : st'.down = false :=
  State.receive_cases (P := fun st' => st'.down = false) h (fun m hm _ => goOn_up hup (hmessage m hm))
    fun hnone hgone => goOn_up hup (hclosed hnone hgone)

theorem send_up (hup : st.down = false) {m : Message} {onSent : Connection → Connection}
    (hopen : (st.connections i).closed ≠ true) : (st.send i taken m onSent).down = false :=
  State.send_cases (P := fun st' => st'.down = false) (fun hgone => absurd hgone hopen) hup

/-- The other thread takes the chunks and the recipe head of an upload. -/
theorem Paired.up_recvChunks (h : p.Paired env (st.connections i)) (hup : st.down = false)
    (hr : 3 ≤ r) (hopt : p.c.task.opt ≠ none) (hdown : p.c.task.opt ≠ some .download)
    (hsees : Sees (st.connections i) derived sgxClient .recvChunks processed r sent)
    (hstep : Protocol.workerStep env setup st i taken = some st') : st'.down = false := by
  simp only [Protocol.workerStep, hsees.workerAt] at hstep
  refine receive_up hup hstep (fun m hm => ?_) fun _ _ => Option.some_ne_none _
  have hmsg := h.script_next hsees hm
  rw [script_opt hopt, dataMessages_upload hdown, List.getElem?_append_right hr] at hmsg
  rcases uploadMessages_type (List.mem_of_getElem? hmsg) with htype | htype <;>
    rw [htype] <;> intro hne <;> cases hne

/-- The other thread takes the message that starts a restore, which does come. -/
theorem Paired.up_recvReady (h : p.Paired env (st.connections i))
    (hrestored : (setup.restored i).isSome = true) (hup : st.down = false)
    (hkill : (st.connections i).clientAt ≠ .killed) (hdown : p.c.task.opt = some .download)
    (hsees : Sees (st.connections i) derived (some (p.enclaveClient env)) .recvReady processed 3
      sent)
    (hsent : 1 < sent.length → sent[1]? = some p.response)
    (hstep : Protocol.workerStep env setup st i taken = some st') : st'.down = false := by
  simp only [Protocol.workerStep, hsees.workerAt] at hstep
  refine receive_up hup hstep (fun m hm => ?_) fun hnone hgone => ?_
  · have hmsg := h.script_next hsees hm
    rw [script_download hdown] at hmsg
    obtain rfl := Option.some.inj hmsg
    obtain ⟨restored, hr⟩ := Option.isSome_iff_exists.mp hrestored
    rw [if_pos (show p.c.ready.messageType = .clientRestoreReady from rfl), hsees.sgxClient, hr]
    exact Option.some_ne_none _
  · have hreadClient := h.readClient
    have hleft := h.left hgone hkill
    have hall := h.readServer.antisymm (List.getElem?_eq_none_iff.mp hnone)
    rw [hsees.read] at hall
    rw [hsees.sent] at hleft hreadClient
    rcases hleft with ⟨hnone, -⟩ | ⟨-, -, hread, hend⟩
    · rw [hdown] at hnone
      cases hnone
    · rcases hend hdown with ⟨hlen, -⟩ | hm
      · omega
      · rw [hsent (by omega)] at hm
        cases congrArg Message.messageType (Option.some.inj hm)

theorem up_ending (hup : st.down = false) (hat : (st.connections i).threadAt.ending = true)
    (hstep : Protocol.threadStep env setup st i taken = some st') : st'.down = false := by
  cases hplace : (st.connections i).threadAt <;> rw [hplace] at hat <;>
    simp only [ThreadAt.ending, Bool.false_eq_true] at hat <;>
    simp only [Protocol.threadStep, hplace, reduceCtorEq] at hstep <;>
    rw [← Option.some.inj hstep] <;> exact hup

theorem up_join (hup : st.down = false) {c : UInt32} {opt : Opt}
    (hat : (st.connections i).threadAt = .join c opt)
    (hstep : Protocol.threadStep env setup st i taken = some st') : st'.down = false := by
  simp only [Protocol.threadStep, hat] at hstep
  split at hstep
  · rw [← Option.some.inj hstep]
    exact hup
  · cases hstep

/-- No step of the session's thread is an exit, unless its client was killed. -/
theorem Paired.up_threadStep (h : p.Paired env (st.connections i))
    (hlock : Holds st.toShared i (st.connections i)) (hup : st.down = false)
    (hkill : (st.connections i).clientAt ≠ .killed)
    (hstep : Protocol.threadStep env setup st i taken = some st') : st'.down = false := by
  cases h.server with
  | recvRa hat hsees =>
      simp only [Protocol.threadStep, hat] at hstep
      refine receive_up hup hstep (fun m hm => ?_) fun hnone hgone => ?_
      · have hmsg := h.script_next hsees hm
        rw [script_zero] at hmsg
        obtain rfl := Option.some.inj hmsg
        rw [Client.raDecision]
        cases p.c.task <;> intro hne <;> cases hne
      · have hall := h.readServer.antisymm (List.getElem?_eq_none_iff.mp hnone)
        rw [hsees.read] at hall
        rcases h.left hgone hkill with ⟨-, hlen⟩ | ⟨-, hlen, -⟩ <;> omega
  | recvGone hat hopt hsees =>
      rcases hat with hat | hat <;> simp only [Protocol.threadStep, hat] at hstep
      · exact receive_up hup hstep (fun _ _ => Option.some_ne_none _) fun _ _ =>
          Option.some_ne_none _
      · cases hstep
  | recvKeyInit hat hopt hsees =>
      simp only [Protocol.threadStep, hat] at hstep
      refine receive_up hup hstep (fun m hm => ?_) fun hnone hgone => ?_
      · have hmsg := h.script_next hsees hm
        rw [script_opt hopt] at hmsg
        obtain rfl := Option.some.inj hmsg
        rw [if_pos (show p.c.keyInit.messageType = .sessionKeyInit from rfl)]
        exact Option.some_ne_none _
      · exact absurd hgone (h.open_of_sent hkill hsees hopt Nat.two_pos)
  | exchange hat hopt hbuf hsees =>
      cases hplace : (st.connections i).threadAt <;> rw [hplace] at hat <;>
        simp only [ThreadAt.exchanging, reduceCtorEq] at hat <;>
        simp only [Protocol.threadStep, hplace] at hstep
      case keyExchange =>
        obtain ⟨t, ht⟩ := hbuf.data
        have hpub : BytesN.ofBytes SESSION_KEY_BUFFER_SIZE (st.connections i).recvBuf.data =
            kx.publicKey p.c.privateKey := by
          rw [← ht]
          exact BytesN.ofBytes_append _ _
        rw [hpub, p.server] at hstep
        rw [← Option.some.inj hstep]
        exact hup
      case unlockSet =>
        rw [← Option.some.inj hstep]
        exact hup
      case lockSet | findLock | lockClient => split at hstep <;> cases hstep <;> exact hup
  | sendReply hat hopt hbuf hsees =>
      simp only [Protocol.threadStep, hat] at hstep
      obtain rfl := Option.some.inj hstep
      exact send_up hup (h.open_of_sent hkill hsees hopt Nat.two_pos)
  | recvLogin hat hopt hsees =>
      simp only [Protocol.threadStep, hat] at hstep
      refine receive_up hup hstep (fun m hm => ?_) fun hnone hgone => ?_
      · have hmsg := h.script_next hsees hm
        rw [script_opt hopt] at hmsg
        obtain rfl := Option.some.inj hmsg
        obtain ⟨opt, hopt⟩ := Option.ne_none_iff_exists'.mp hopt
        rw [optOf_login (ne_none_of_eq hopt), hopt]
        exact Option.some_ne_none _
      · exact absurd hgone (h.open_of_sent hkill hsees hopt Nat.one_lt_two)
  | login opt hat hopt hbuf hsees =>
      cases hplace : (st.connections i).threadAt <;> rw [hplace] at hat <;>
        simp only [ThreadAt.loggingIn, reduceCtorEq] at hat <;>
        simp only [Protocol.threadStep, hplace] at hstep
      case checkFileStatus => split at hstep <;> cases hstep <;> exact hup
      case newClientVar =>
        rw [← Option.some.inj hstep]
        split <;> exact hup
      case initClient c opt =>
        -- its key is in the index
        have hkey := hlock.key c (by rw [hplace]; rfl)
        rw [hsees.derived] at hkey
        rw [hkey] at hstep
        rw [← Option.some.inj hstep]
        exact goOn_up hup (Option.some_ne_none _)
  | sendNonExist hat hopt hbuf hsees =>
      simp only [Protocol.threadStep, hat] at hstep
      obtain rfl := Option.some.inj hstep
      exact send_up hup (h.open_of_sent hkill hsees (ne_none_of_eq hopt) Nat.one_lt_two)
  | nonExist hat hopt hsees =>
      rcases hat with hat | hat | hat <;> simp only [Protocol.threadStep, hat] at hstep
      · refine receive_up hup hstep (fun m hm => ?_) fun _ _ => Option.some_ne_none _
        -- it would have been sent after a response
        have hlt := Channel.lt_of_next hm
        rw [hsees.read] at hlt
        have hresponse := (h.client.responded hlt).2
        rw [hsees.sent] at hresponse
        have heq : p.nonExist = p.response := Option.some.inj hresponse
        cases congrArg Message.messageType heq
      · rw [← Option.some.inj hstep]
        exact hup
      · cases hstep
  | responding opt w processed r hat hopt hbuf hw hsees =>
      simp only [Protocol.threadStep, hat] at hstep
      obtain rfl := Option.some.inj hstep
      exact send_up hup (h.open_of_sent hkill hsees (ne_none_of_eq hopt) Nat.one_lt_two)
  | receiving opt w processed r hat hopt hw hsees => exact up_join hup hat hstep
  | sending w out hat hopt hw hsees => exact up_join hup hat hstep
  | received sgxClient processed r hat hopt hsgx hw hsees => exact up_ending hup hat hstep
  | restored sgxClient hat hopt hsgx hsees => exact up_ending hup hat hstep

/-- No step of the session's other thread is an exit, unless its client was killed. -/
theorem Paired.up_workerStep (h : p.Paired env (st.connections i))
    (hrestored : (setup.restored i).isSome = true) (hup : st.down = false)
    (hkill : (st.connections i).clientAt ≠ .killed)
    (hstep : Protocol.workerStep env setup st i taken = some st') : st'.down = false := by
  have hidle : ∀ {derived sgxClient w processed r sent},
      Sees (st.connections i) derived sgxClient w processed r sent → (w = .idle ∨ w = .exited) →
      st'.down = false := by
    intro _ _ w _ _ _ hsees hw
    rcases hw with rfl | rfl <;> simp only [Protocol.workerStep, hsees.workerAt] at hstep <;>
      cases hstep
  cases h.server with
  | responding opt w processed r hat hopt hbuf hw hsees =>
      cases hw with
      | recvChunks r hr hup' => exact h.up_recvChunks hup hr (ne_none_of_eq hopt) hup' hsees hstep
      | exited r hr hup' => exact hidle hsees (Or.inr rfl)
      | recvReady hdown =>
          exact h.up_recvReady hrestored hup hkill hdown hsees
            (fun hlt => absurd hlt (Nat.lt_irrefl 1)) hstep
  | receiving opt w processed r hat hopt hw hsees =>
      cases hw with
      | recvChunks r hr hup' => exact h.up_recvChunks hup hr (ne_none_of_eq hopt) hup' hsees hstep
      | exited r hr hup' => exact hidle hsees (Or.inr rfl)
      | recvReady hdown =>
          exact h.up_recvReady hrestored hup hkill hdown hsees (fun _ => rfl) hstep
  | sending w out hat hopt hw hsees =>
      cases hw with
      | sendBatches out rest hall =>
          cases rest with
          | nil =>
              simp only [Protocol.workerStep, hsees.workerAt] at hstep
              rw [← Option.some.inj hstep]
              exact hup
          | cons m rest =>
              simp only [Protocol.workerStep, hsees.workerAt] at hstep
              obtain rfl := Option.some.inj hstep
              -- the client stays until it has read what is left
              refine send_up hup fun hgone => ?_
              have hlen := congrArg List.length hall
              rw [List.length_append, List.length_cons] at hlen
              have hreadClient := h.readClient
              have hleft := h.left hgone hkill
              rw [hsees.sent] at hleft hreadClient
              rw [List.length_append] at hreadClient
              change _ ≤ 2 + _ at hreadClient
              rcases hleft with ⟨hnone, -⟩ | ⟨-, -, -, hend⟩
              · rw [hopt] at hnone
                cases hnone
              · rcases hend hopt with ⟨-, hread⟩ | hm
                · omega
                · cases congrArg Message.messageType (Option.some.inj hm)
      | recvClosed =>
          simp only [Protocol.workerStep, hsees.workerAt] at hstep
          exact receive_up hup hstep (fun _ _ => Option.some_ne_none _) fun _ _ =>
            Option.some_ne_none _
      | exited => exact hidle hsees (Or.inr rfl)
  | received sgxClient processed r hat hopt hsgx hw hsees => exact hidle hsees (Or.inr rfl)
  | restored sgxClient hat hopt hsgx hsees => exact hidle hsees (Or.inr rfl)
  | recvRa hat hsees | recvGone hat hopt hsees | recvKeyInit hat hopt hsees
  | exchange hat hopt hbuf hsees | sendReply hat hopt hbuf hsees | recvLogin hat hopt hsees
  | login opt hat hopt hbuf hsees | sendNonExist hat hopt hbuf hsees | nonExist hat hopt hsees =>
      exact hidle hsees (Or.inl rfl)

end Up

end Pairing

/-! ## The server with its connections -/

section System

variable [DecidableEq ι] {st st' : State ι}

/-- What is left to do, with the exit of the server. -/
def total [Fintype ι] (env : Env) (p : ∀ i, Pairing setup i) (st : State ι) : Nat :=
  (if st.down then 0 else 1) + ∑ i, (p i).work env (st.connections i)

theorem lowered_step {a : Act ι} {i : ι} (hi : a.connection = i) (p : Pairing setup i)
    (h : p.Paired env (st.connections i)) (hstep : step env setup st a = some st') :
    p.Lowered env st st' := by
  have hcases := (step_cases hstep).2
  cases a with
  | thread j taken =>
      obtain rfl : j = i := hi
      exact h.lowered_threadStep hcases
  | worker j taken =>
      obtain rfl : j = i := hi
      exact h.lowered_workerStep hcases
  | client j =>
      obtain rfl : j = i := hi
      obtain ⟨c, s, hc, hs, rfl⟩ := hcases
      obtain rfl := Option.some.inj (hc.symm.trans p.client)
      exact Or.inr (by
        rw [State.connections_set_self]
        exact h.work_clientStep hs)
  | kill j =>
      obtain rfl : j = i := hi
      obtain ⟨-, hopen, rfl⟩ := hcases
      exact Or.inr (by
        rw [State.connections_set_self]
        exact h.work_kill hopen)
  | foreignSend j m =>
      obtain rfl : j = i := hi
      cases hcases.1.symm.trans p.client
  | foreignClose j =>
      obtain rfl : j = i := hi
      cases hcases.1.symm.trans p.client

/-- Every step leaves less to do. -/
theorem total_step [Fintype ι] {p : ∀ i, Pairing setup i}
    (h : ∀ i, (p i).Paired env (st.connections i)) {a : Act ι}
    (hstep : step env setup st a = some st') : total env p st' < total env p st := by
  have hup := (step_cases hstep).1
  rcases lowered_step rfl (p a.connection) (h a.connection) hstep with ⟨hdown, hsame⟩ | hless
  · rw [total, total, hdown, hup, hsame]
    exact Nat.add_lt_add_right Nat.one_pos _
  · have hsum : ∑ i, (p i).work env (st'.connections i) <
        ∑ i, (p i).work env (st.connections i) := by
      refine Finset.sum_lt_sum (fun i _ => ?_) ⟨a.connection, Finset.mem_univ _, hless⟩
      by_cases hi : i = a.connection
      · rw [hi]
        exact hless.le
      · rw [step_others hstep hi]
    rw [total, total, hup, if_neg Bool.false_ne_true]
    refine Nat.lt_of_le_of_lt (Nat.add_le_add_right ?_ _) (Nat.add_lt_add_left hsum 1)
    split <;> decide

/-- Clients that are not killed never make the server exit. -/
theorem up_step {p : ∀ i, Pairing setup i} (hlocked : Locked st)
    (h : ∀ i, (p i).Paired env (st.connections i))
    (hrestored : ∀ i, (setup.restored i).isSome = true)
    (hkill : ∀ i, (st.connections i).clientAt ≠ .killed) {a : Act ι} (ha : ∀ i, a ≠ .kill i)
    (hstep : step env setup st a = some st') :
    st'.down = false ∧ ∀ i, (st'.connections i).clientAt ≠ .killed := by
  obtain ⟨hup, hcases⟩ := step_cases hstep
  have hothers : (st'.connections a.connection).clientAt ≠ .killed →
      ∀ i, (st'.connections i).clientAt ≠ .killed := fun hself i => by
    by_cases hi : i = a.connection
    · rw [hi]
      exact hself
    · rw [step_others hstep hi]
      exact hkill i
  cases a with
  | thread i taken =>
      refine ⟨(h i).up_threadStep (hlocked i) hup (hkill i) hcases, hothers ?_⟩
      rw [show (Act.thread i taken).connection = i from rfl, threadStep_clientAt hcases]
      exact hkill i
  | worker i taken =>
      refine ⟨(h i).up_workerStep (hrestored i) hup (hkill i) hcases, hothers ?_⟩
      rw [show (Act.worker i taken).connection = i from rfl, (workerStep_same hcases).2.1]
      exact hkill i
  | client i =>
      obtain ⟨c, s, hc, hs, rfl⟩ := hcases
      refine ⟨hup, hothers ?_⟩
      rw [show (Act.client i).connection = i from rfl, State.connections_set_self]
      exact Connection.ne_killed_of_clientStep hs
  | kill i => exact absurd rfl (ha i)
  | foreignSend i m => cases hcases.1.symm.trans (p i).client
  | foreignClose i => cases hcases.1.symm.trans (p i).client

/-- Nobody can take a step, but that a client may be killed. -/
def Stuck (env : Env) (setup : Setup ι kx) (st : State ι) : Prop :=
  ∀ a, (∀ i, a ≠ .kill i) → step env setup st a = none

/-- When nobody can take a step, all sessions have returned: one that waits for a lock
waits for one that does not. -/
theorem returned_of_stuck {p : ∀ i, Pairing setup i} (hlocked : Locked st)
    (h : ∀ i, (p i).Paired env (st.connections i)) (hcipher : SessionCipher env)
    (hn : 1 ≤ env.sendChunkBatchSize) (hfit : env.sendChunkBatchSize * sizeofChunk < 2 ^ 32)
    (hrestored : ∀ i, (setup.restored i).isSome = true) (hup : st.down = false)
    (hstuck : Stuck env setup st) : ∀ i, (st.connections i).threadAt = .returned := by
  have hthread : ∀ i, threadStep env setup st i true = none := fun i => by
    have hnone := hstuck (.thread i true) fun _ hne => by cases hne
    rwa [step, hup, if_neg Bool.false_ne_true] at hnone
  have hworker : ∀ i, workerStep env setup st i true = none := fun i => by
    have hnone := hstuck (.worker i true) fun _ hne => by cases hne
    rwa [step, hup, if_neg Bool.false_ne_true] at hnone
  have hclient : ∀ i, (st.connections i).clientStep env (p i).c = none := fun i => by
    have hnone := hstuck (.client i) fun _ hne => by cases hne
    rw [step, hup, if_neg Bool.false_ne_true] at hnone
    rw [(p i).client] at hnone
    exact Option.map_eq_none_iff.mp hnone
  have hplaces := fun i => (h i).stuck hcipher hn hfit (hrestored i) (hthread i) (hworker i) (hclient i)
  -- nobody waits for the lock of a client: its holder would be stuck elsewhere
  have hnoclient : ∀ i c, (st.connections i).threadAt ≠ .lockClient c := by
    intro i c hat
    have hnone := hthread i
    simp only [threadStep, hat] at hnone
    split at hnone
    · cases hnone
    · rename_i hheld
      have hmem := (hlocked i).found c hat
      obtain ⟨holder, hholder⟩ := Option.isSome_iff_exists.mp (AList.lookup_isSome.mpr hmem)
      cases holder with
      | none => exact hheld hholder
      | some j =>
          have hinside := ((hlocked j).client c).mp hholder
          rcases hplaces j with hj | ⟨c', hj⟩ | ⟨c', hj⟩ <;> rw [hj] at hinside <;> cases hinside
  intro i
  rcases hplaces i with hi | ⟨c, hi⟩ | ⟨c, hi⟩
  · exact hi
  · have hnone := hthread i
    simp only [threadStep, hi] at hnone
    split at hnone
    · cases hnone
    · rename_i hheld
      obtain ⟨j, hj⟩ := Option.ne_none_iff_exists'.mp (mt Option.isNone_iff_eq_none.mpr hheld)
      have hset := (hlocked j).set.mp hj
      rcases hplaces j with hat | ⟨c', hat⟩ | ⟨c', hat⟩
      · rw [hat] at hset
        cases hset
      · rw [hat] at hset
        cases hset
      · exact absurd hat (hnoclient j c')
  · exact absurd hi (hnoclient i c)

end System

end ShieldReduce.Protocol
