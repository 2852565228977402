import ShieldReduce.Invariant.Progress
import ShieldReduce.Guarantee.Framing

/-!
# Sessions of the server

Whatever messages are sent to the server, as long as they fit its buffers,
no two sessions are inside for one client ID, and an enclave's client has
the key that its own session exchanged (`sessions_exclusive`). A
`ShieldReduceClient` among other programs gets exactly what it asked for,
as far as it gets (`client_served`). Clients that are left alone all come
to their end, in any order of the steps of all threads and programs, and
the server with them (`clients_finish`); what they send always fits.
What a lock costs is in `lockSet_blocks`: one client that is slow and that
logs in twice keeps everybody else out.
-/

namespace ShieldReduce.Protocol

open ByteLib UMapLib StepLib DataSender

variable {ι : Type} {env : Env} {kx : KeyExchange} {setup : Setup ι kx} {i : ι}

/-! ## What comes through -/

theorem chunksOf_frame (hcipher : SessionCipher env) (sessionKey : Key) {cs : List Chunk}
    (hnum : cs.length < 2 ^ 32) (messageType : MessageType) (clientID : UInt32) (dataSize : UInt32) :
    Client.chunksOf env sessionKey ⟨messageType, clientID, dataSize, UInt32.ofNat cs.length,
      env.sessionKeyEnc sessionKey (frameChunks (cs.map Subtype.val))⟩ = cs.map Subtype.val := by
  have hcount : (UInt32.ofNat cs.length).toNat = cs.length := by
    rw [UInt32.toNat_ofNat']
    exact Nat.mod_eq_of_lt hnum
  rw [Client.chunksOf]
  dsimp only
  rw [hcipher.dec, hcount, parseChunks_frameChunks]

theorem receivedChunks_ofSender (c : Client kx) (sessionKey : Key) (ms : List NetworkMessage) :
    receivedChunks env sessionKey (ms.map c.ofSender) =
      DataSender.receivedChunks env sessionKey ms := by
  rw [receivedChunks, List.flatMap_map, DataSender.receivedChunks]
  refine List.flatMap_congr fun m _ => ?_
  rw [Client.ofSender]
  cases m.messageType <;> rfl

/-- The messages of an upload have its chunks. -/
theorem receivedChunks_run (hcipher : SessionCipher env) (hn : 1 ≤ env.sendChunkBatchSize)
    (hfit : env.sendChunkBatchSize * sizeofChunk < 2 ^ 32) (sessionKey : Key) (chunks : List Chunk)
    (recipeHead : BytesN 16) :
    DataSender.receivedChunks env sessionKey
      (run env sessionKey (chunks.map Subtype.val) recipeHead).sent = chunks.map Subtype.val := by
  obtain ⟨full, rest, hall, hfull, hrest, hpending⟩ :=
    foldl_processChunk env sessionKey hn hfit chunks
  obtain ⟨num, hsent⟩ := hpending.processRecipeEnd env sessionKey recipeHead
  have hnum : env.sendChunkBatchSize ≤ env.sendChunkBatchSize * sizeofChunk :=
    Nat.le_mul_of_pos_right _ (by decide)
  have hlast : DataSender.receivedChunks env sessionKey (if rest.map Subtype.val = [] then []
      else [chunkMessage env sessionKey (rest.map Subtype.val)]) = rest.map Subtype.val := by
    split
    · rename_i hnil
      rw [hnil]
      rfl
    · exact receivedChunks_message hcipher.dec (by omega)
  rw [run, hsent, receivedChunks_append, receivedChunks_append, hlast,
    receivedChunks_messages hcipher.dec fun g hg => by rw [hfull g hg]; omega, ← List.map_append,
    hall]
  exact List.append_nil _

/-- The chunks that a restore is given. -/
def Setup.restoredChunks (setup : Setup ι kx) (i : ι) : List Bytes :=
  match setup.restored i with
  | some restored => (restored.1.flatten ++ restored.2).map Subtype.val
  | none => []

/-- The header of a message of a restore can count its chunks. -/
def Setup.Counted (setup : Setup ι kx) (i : ι) : Prop :=
  ∀ restored, setup.restored i = some restored →
    (∀ cs ∈ restored.1, cs.length < 2 ^ 32) ∧ restored.2.length < 2 ^ 32

theorem chunksOf_restoreMessages (hcipher : SessionCipher env) (clientID : UInt32) (sessionKey : Key)
    {restored : List (List Chunk) × List Chunk} (hall : ∀ cs ∈ restored.1, cs.length < 2 ^ 32)
    (hlast : restored.2.length < 2 ^ 32) :
    (restoreMessages env clientID sessionKey restored).flatMap (Client.chunksOf env sessionKey) =
      (restored.1.flatten ++ restored.2).map Subtype.val := by
  rw [restoreMessages, List.flatMap_append, List.flatMap_singleton, List.map_append]
  congr 1
  · rw [List.flatMap_map, List.flatMap_def, List.map_flatten]
    congr 1
    refine List.map_congr_left fun cs hcs => ?_
    exact chunksOf_frame hcipher sessionKey (hall cs hcs) _ _ _
  · exact chunksOf_frame hcipher sessionKey hlast _ _ _

theorem chunksOf_batches (hcipher : SessionCipher env) (p : Pairing setup i)
    (hcounted : setup.Counted i) :
    (p.batches env).flatMap (Client.chunksOf env p.key) = setup.restoredChunks i := by
  unfold Pairing.batches Setup.restoredChunks
  cases hr : setup.restored i with
  | none => rfl
  | some restored =>
      exact chunksOf_restoreMessages hcipher _ _ (hcounted restored hr).1 (hcounted restored hr).2

namespace Pairing

variable {p : Pairing setup i} {s : Connection}

theorem drop_script (hopt : p.c.task.opt ≠ none) : (p.script env).drop 3 = p.dataMessages env := by
  rw [script_opt hopt]
  rfl

theorem Receiving.processed_prefix {w : WorkerAt} {processed : List Message} {r : Nat}
    (hopt : p.c.task.opt ≠ none) (h : p.Receiving env w processed r) :
    processed <+: p.dataMessages env := by
  have htake : ((p.script env).take r).drop 3 <+: p.dataMessages env := by
    rw [← drop_script hopt]
    exact (List.take_prefix _ _).drop 3
  cases h with
  | recvChunks => exact htake
  | exited => exact htake
  | recvReady => exact List.nil_prefix

theorem ServerSide.processed_prefix (h : p.ServerSide env s) :
    s.processed <+: p.dataMessages env := by
  cases h
  case responding opt w processed r hat hopt hbuf hw h =>
    rw [h.processed]
    exact hw.processed_prefix (ne_none_of_eq hopt)
  case receiving opt w processed r hat hopt hw h =>
    rw [h.processed]
    exact hw.processed_prefix (ne_none_of_eq hopt)
  case received sgxClient processed r hat hopt hsgx hw h =>
    rw [h.processed]
    exact hw.processed_prefix hopt
  all_goals
    rename_i h
    rw [h.processed]
    exact List.nil_prefix

theorem ServerSide.batches_prefix (h : p.ServerSide env s) :
    s.toClient.sent.drop 2 <+: p.batches env := by
  rw [List.prefix_iff_getElem?]
  intro n hn
  rw [← h.sent_batch (n := n) (m := (s.toClient.sent.drop 2)[n])]
  rw [← List.getElem?_eq_getElem hn, List.getElem?_drop, Nat.add_comm]

theorem ServerSide.sent_ra (h : p.ServerSide env s) (hopt : p.c.task.opt = none) :
    s.toClient.sent = [] := by
  cases h
  case recvRa h => exact h.sent
  case recvGone h => exact h.sent
  all_goals simp_all

theorem Paired.output_prefix (h : p.Paired env s) :
    s.outputMQ <+: (p.batches env).flatMap (Client.chunksOf env p.key) := by
  rw [h.client.output]
  exact (((List.take_prefix _ _).drop 2).trans h.server.batches_prefix).flatMap _

/-- A client that has read as many messages as a restore has has all its chunks. -/
theorem Paired.output_eq (h : p.Paired env s)
    (hread : s.toClient.read = 2 + (p.batches env).length) :
    s.outputMQ = (p.batches env).flatMap (Client.chunksOf env p.key) := by
  rw [h.client.output]
  congr 1
  refine (((List.take_prefix _ _).drop 2).trans h.server.batches_prefix).eq_of_length ?_
  have hle := h.readClient
  rw [List.length_drop, List.length_take]
  omega

/-- A session that has returned has taken all that its client sent. -/
theorem Paired.processed_eq (h : p.Paired env s) (hopt : p.c.task.opt ≠ none)
    (hup : p.c.task.opt ≠ some .download) (hsent : s.toServer.sent = p.script env)
    (hat : s.threadAt = .returned) : s.processed = p.c.uploadMessages env p.key := by
  have hover : isOver s = true := by rw [isOver, hat]; rfl
  have hread := (h.drained hover).2
  rw [← dataMessages_upload hup, ← drop_script hopt]
  cases h.server
  case received sgxClient processed r _ _ _ hw h =>
    cases hw with
    | exited r =>
        rw [h.read, hsent] at hread
        rw [h.processed, hread, List.take_length]
  case recvGone hnone _ => exact absurd hnone hopt
  case nonExist hdown _ => exact absurd hdown hup
  case restored hdown _ _ => exact absurd hdown hup
  all_goals simp_all [ThreadAt.exchanging, ThreadAt.loggingIn]

theorem ServerSide.sgxClient_eq (h : p.ServerSide env s) {e : EnclaveClient}
    (he : s.sgxClient = some e) : e = p.enclaveClient env := by
  cases h
  case received hsgx _ h => exact hsgx e (by rw [← h.sgxClient, he])
  case restored hsgx h => exact hsgx e (by rw [← h.sgxClient, he])
  all_goals
    rename_i h
    rw [h.sgxClient] at he
    first
      | exact (Option.some.inj he).symm
      | cases he

end Pairing

/-! ## Small sessions -/

/-- Diffie–Hellman with a small prime. -/
def smallExchange : KeyExchange where
  PrivateKey := Nat
  publicKey := fun a => BytesN.ofBytes SESSION_KEY_BUFFER_SIZE [UInt8.ofNat (3 ^ a % 251)]
  derivedShared := fun publicKey b =>
    some (BytesN.ofBytes 32 [UInt8.ofNat ((publicKey.1.headD 0).toNat ^ b % 251)])

theorem smallExchange_agrees : smallExchange.Agrees where
  derives := fun _ _ => rfl
  same := fun (a b : Nat) => by
    have hderived : ∀ a b : Nat, (UInt8.ofNat (3 ^ a % 251)).toNat ^ b % 251 = 3 ^ (a * b) % 251 := by
      intro a b
      rw [UInt8.toNat_ofNat', Nat.mod_eq_of_lt ((Nat.mod_lt _ (by decide)).trans (by decide)),
        ← Nat.pow_mod, pow_mul]
    change some (BytesN.ofBytes 32 [UInt8.ofNat ((UInt8.ofNat (3 ^ a % 251)).toNat ^ b % 251)]) =
      some (BytesN.ofBytes 32 [UInt8.ofNat ((UInt8.ofNat (3 ^ b % 251)).toNat ^ a % 251)])
    rw [hderived, hderived, Nat.mul_comm]

theorem sessionCipher_plain : SessionCipher .plain := ⟨fun _ _ => rfl, fun _ _ => rfl⟩

/-- Two clients with one ID that upload the same two bytes. -/
def smallSetup : Setup Bool smallExchange where
  client := fun i => some ⟨1, [97], [if i then 5 else 6], (if i then 2 else 4 : Nat),
    .upload false [⟨[6, 7], by decide⟩] (BytesN.ofBytes 16 [])⟩
  privateKey := fun i => (if i then 7 else 9 : Nat)
  recvBuf := fun _ => ⟨.clientUploadChunk, 0, 0, 0, []⟩
  recipeHead := fun _ => BytesN.ofBytes 16 []
  restored := fun _ => some ([], [])

theorem smallSetup_counted (i : Bool) : smallSetup.Counted i := fun restored h => by
  rw [← Option.some.inj h]
  exact ⟨fun cs hcs => absurd hcs List.not_mem_nil, by decide⟩

/-- A session up to its request for a lock. -/
def arrival (i : Bool) : List (Act Bool) := [.client i, .thread i true, .client i, .thread i true]

/-- It comes to its enclave's client. -/
def arrivalLogin (i : Bool) : List (Act Bool) :=
  arrival i ++ List.replicate 6 (.thread i true) ++ [.client i, .client i] ++
    List.replicate 4 (.thread i true)

/-- The whole of it. -/
def session (i : Bool) : List (Act Bool) :=
  arrivalLogin i ++ [.thread i true] ++ List.replicate 5 (.client i) ++
    List.replicate 3 (.worker i true) ++ List.replicate 3 (.thread i true)

/-- A session that holds its lock, and another one that waits for it at the index. -/
def waiting : List (Act Bool) :=
  arrival false ++ List.replicate 4 (.thread false true) ++ arrival true ++
    List.replicate 2 (.thread true true)

/-! ## Guarantees -/

/-- What has come through for a client, and all of it once both sides are at their end. -/
def Serves (env : Env) (setup : Setup ι kx) (i : ι) (c : Client kx) (sessionKey : Key)
    (s : Connection) : Prop :=
  match c.task with
  | .upload _ chunks _ =>
      s.processed <+: c.uploadMessages env sessionKey ∧
      receivedChunks env sessionKey s.processed <+: chunks.map Subtype.val ∧
      (s.clientAt = .exited true → s.threadAt = .returned →
        s.processed = c.uploadMessages env sessionKey ∧
        receivedChunks env sessionKey s.processed = chunks.map Subtype.val)
  | .download =>
      s.outputMQ <+: setup.restoredChunks i ∧
      (s.clientAt = .exited true → s.outputMQ = setup.restoredChunks i)
  | .ra => s.processed = [] ∧ s.outputMQ = []

theorem Pairing.Paired.serves {p : Pairing setup i} {s : Connection} (h : p.Paired env s)
    (hcipher : SessionCipher env) (hn : 1 ≤ env.sendChunkBatchSize)
    (hfit : env.sendChunkBatchSize * sizeofChunk < 2 ^ 32) (hcounted : setup.Counted i) :
    Serves env setup i p.c p.key s := by
  have hprocessed := h.server.processed_prefix
  have houtput := h.output_prefix
  rw [chunksOf_batches hcipher p hcounted] at houtput
  rw [Serves]
  cases htask : p.c.task with
  | upload offline chunks recipeHead =>
      have hall : receivedChunks env p.key (p.c.uploadMessages env p.key) =
          chunks.map Subtype.val := by
        simp only [Client.uploadMessages, htask]
        rw [receivedChunks_ofSender, receivedChunks_run hcipher hn hfit]
      have hopt : p.c.task.opt ≠ none := by rw [htask]; exact Task.upload_ne_none _ _ _
      have hup : p.c.task.opt ≠ some .download := by
        rw [htask]
        exact Task.upload_ne_download _ _ _
      rw [Pairing.dataMessages_upload hup] at hprocessed
      refine ⟨hprocessed, ?_, fun hexited hreturned => ?_⟩
      · rw [← hall]
        exact hprocessed.flatMap _
      · have hplace := h.client.place
        simp only [Pairing.AtClient, hexited] at hplace
        rcases hplace with ⟨-, -, hsent, -⟩ | ⟨hdown, -⟩ | ⟨hdown, -⟩
        · rw [h.processed_eq hopt hup hsent hreturned]
          exact ⟨rfl, hall⟩
        · exact absurd hdown hup
        · exact absurd hdown hup
  | download =>
      refine ⟨houtput, fun hexited => ?_⟩
      have hplace := h.client.place
      simp only [Pairing.AtClient, hexited] at hplace
      rcases hplace with ⟨hup, -⟩ | ⟨-, -, -, hread⟩ | ⟨-, hfalse, -⟩
      · rw [htask] at hup
        exact absurd rfl hup
      · rw [h.output_eq hread, chunksOf_batches hcipher p hcounted]
      · cases hfalse
  | ra =>
      have hnone : p.c.task.opt = none := by rw [htask]; rfl
      rw [Pairing.dataMessages, htask] at hprocessed
      refine ⟨List.prefix_nil.mp hprocessed, ?_⟩
      rw [h.client.output, h.server.sent_ra hnone, List.take_nil]
      rfl

/-- **Sessions of one client exclude each other.** In every state that the server
reaches on whole messages that fit its buffers, at most one session is inside for a client ID,
and at most one at the index of the locks. The `EnclaveClient` of a session has its client ID
and the key that this session has exchanged, and `recvBuf` has kept its size. -/
theorem sessions_exclusive [DecidableEq ι] (recipes : List Fp) {as : List (Act ι)} {st : State ι}
    (hexec : exec (step env setup) (start setup recipes) as = some st) :
    (∀ i j c, (st.connections i).threadAt.holdsClient = some c →
      (st.connections j).threadAt.holdsClient = some c → i = j) ∧
    (∀ i j, (st.connections i).threadAt.holdsSet = true →
      (st.connections j).threadAt.holdsSet = true → i = j) ∧
    (∀ i e, (st.connections i).sgxClient = some e →
      (st.connections i).derived = some e.sessionKey ∧
      (st.connections i).threadAt.holdsClient = some e.clientID) ∧
    ∀ i, (st.connections i).recvBuf.data.length = SESSION_KEY_BUFFER_SIZE := by
  have hlocked := (Locked.accepted recipes).exec hexec
  have hsized : ∀ k, ((start setup recipes).connections k).Sized := fun k =>
    (BytesN.ofBytes SESSION_KEY_BUFFER_SIZE (setup.recvBuf k).data).2
  refine ⟨fun i j c => hlocked.inside_unique, fun i j hi hj => ?_, fun i e he => ?_,
    exec_sized hsized hexec⟩
  · have hset := (hlocked i).set.mpr hi
    rw [(hlocked j).set.mpr hj] at hset
    exact (Option.some.inj hset).symm
  · obtain ⟨hkey, hserves⟩ := (hlocked i).enclave e he
    exact ⟨hkey, ThreadAt.holdsClient_of_serves hserves⟩

/-- One session has the enclave's client, and the other one waits at the index. -/
theorem sessions_exclusive_two :
    ∃ st, exec (step .plain smallSetup) (start smallSetup []) (arrivalLogin false ++ arrival true) =
        some st ∧
      ∃ e, (st.connections false).sgxClient = some e ∧
        (st.connections false).derived = some e.sessionKey := by
  have hrun : ((exec (step .plain smallSetup) (start smallSetup [])
      (arrivalLogin false ++ arrival true)).map fun st =>
        (st.connections false).sgxClient.isSome) = some true := by decide
  obtain ⟨st, hst, hsome⟩ := Option.map_eq_some_iff.mp hrun
  obtain ⟨e, he⟩ := Option.isSome_iff_exists.mp hsome
  exact ⟨st, hst, e, he, ((sessions_exclusive [] hst).2.2.1 false e he).1⟩

/-- **A client is served.** A `ShieldReduceClient` among any other programs: in every state
that the server reaches on messages that fit, the enclave has it under its ID, with the
key that its two sides derive and with its own master key; what the server has taken of
its file is a prefix of it, and so is what it has restored; and a client that has exited
with success and whose session has returned has sent, or has got, everything. -/
theorem client_served [DecidableEq ι] (hcipher : SessionCipher env) (hkx : kx.Agrees)
    (hn : 1 ≤ env.sendChunkBatchSize) (hfit : env.sendChunkBatchSize * sizeofChunk < 2 ^ 32)
    (recipes : List Fp) {c : Client kx} (hc : setup.client i = some c)
    (hcounted : setup.Counted i) :
    ∃ key, kx.derivedShared (kx.publicKey c.privateKey) (setup.privateKey i) = some key ∧
      ∀ as st, exec (step env setup) (start setup recipes) as = some st →
        (∀ e, (st.connections i).sgxClient = some e → e = ⟨c.clientID, key, c.masterKey env⟩) ∧
        Serves env setup i c key (st.connections i) := by
  obtain ⟨p, rfl⟩ := Pairing.exists hkx hc
  refine ⟨p.key, p.server, fun as st hexec => ?_⟩
  have hpaired : p.Paired env (st.connections i) :=
    Pairing.Paired.exec Pairing.Paired.accepted (Locked.accepted recipes) hcipher hexec
  exact ⟨fun e he => hpaired.server.sgxClient_eq he, hpaired.serves hcipher hn hfit hcounted⟩

/-- The server has the two bytes of the second client, once. -/
theorem client_served_two :
    ∃ key st, exec (step .plain smallSetup) (start smallSetup []) (session false ++ session true) =
        some st ∧
      receivedChunks .plain key (st.connections true).processed = [[6, 7]] := by
  have hrun : ((exec (step .plain smallSetup) (start smallSetup [])
      (session false ++ session true)).map fun st =>
        ((match (st.connections true).clientAt with | .exited success => success | _ => false),
          (match (st.connections true).threadAt with | .returned => true | _ => false))) =
      some (true, true) := by decide
  obtain ⟨st, hst, hend⟩ := Option.map_eq_some_iff.mp hrun
  obtain ⟨hclient, hthread⟩ := Prod.mk.inj hend
  obtain ⟨key, -, hserved⟩ := client_served sessionCipher_plain smallExchange_agrees (by decide)
    (by decide : Env.plain.sendChunkBatchSize * sizeofChunk < 2 ^ 32) []
    (rfl : smallSetup.client true = some _) (smallSetup_counted true)
  have hserves := (hserved _ st hst).2
  refine ⟨key, st, hst, (hserves.2.2 ?_ ?_).2⟩
  · split at hclient
    · rename_i heq
      rw [heq, hclient]
    · cases hclient
  · split at hthread
    · assumption
    · cases hthread

/-! ## The end of a run -/

/-- What a client has at its end. A download whose file is not there gets nothing. -/
def Ended (env : Env) (setup : Setup ι kx) (i : ι) (c : Client kx) (sessionKey : Key)
    (s : Connection) : Prop :=
  match c.task with
  | .upload _ chunks _ =>
      s.clientAt = .exited true ∧ s.processed = c.uploadMessages env sessionKey ∧
      receivedChunks env sessionKey s.processed = chunks.map Subtype.val
  | .download =>
      (s.outputMQ = setup.restoredChunks i ∧ s.clientAt = .exited (decide
        ((setup.restoredChunks i).length % 2 ^ 64 = ofLe64 ((setup.recipeHead i).1.drop 8)))) ∨
      (s.outputMQ = [] ∧ s.clientAt = .exited false ∧
        ∃ m ∈ s.toClient.sent, m.messageType = .serverFileNonExist)
  | .ra => s.clientAt = .exited true

theorem Pairing.Paired.ended {p : Pairing setup i} {s : Connection} (h : p.Paired env s)
    (hcipher : SessionCipher env) (hn : 1 ≤ env.sendChunkBatchSize)
    (hfit : env.sendChunkBatchSize * sizeofChunk < 2 ^ 32) (hcounted : setup.Counted i)
    (hat : s.threadAt = .returned) : s.clientAt = .killed ∨ Ended env setup i p.c p.key s := by
  have hplace := h.client.place
  have hlive := h.client.closed
  rw [(h.drained (by rw [isOver, hat]; rfl)).1] at hlive
  cases hclient : s.clientAt <;> rw [hclient] at hlive <;>
    simp only [Pairing.AtClient, hclient] at hplace <;> try cases hlive
  case killed => exact Or.inl rfl
  case exited success =>
    refine Or.inr ?_
    have hserves := h.serves hcipher hn hfit hcounted
    rw [Serves] at hserves
    rw [Ended]
    cases htask : p.c.task with
    | upload offline chunks recipeHead =>
        have hup : p.c.task.opt ≠ some .download := by
          rw [htask]
          exact Task.upload_ne_download _ _ _
        simp only [htask] at hserves
        rcases hplace with ⟨-, rfl, -, -⟩ | ⟨hdown, -⟩ | ⟨hdown, -⟩
        · exact ⟨hclient, hserves.2.2 hclient hat⟩
        · exact absurd hdown hup
        · exact absurd hdown hup
    | download =>
        rcases hplace with ⟨hup, -⟩ | ⟨-, rfl, -, hread⟩ | ⟨-, rfl, hread, hm, -⟩
        · rw [htask] at hup
          exact absurd rfl hup
        · have houtput := h.output_eq hread
          rw [chunksOf_batches hcipher p hcounted] at houtput
          refine Or.inl ⟨houtput, ?_⟩
          rw [hclient, Pairing.complete, houtput]
        · refine Or.inr ⟨?_, hclient, p.nonExist, List.mem_of_getElem? hm, rfl⟩
          rw [h.client.output, hread, List.drop_eq_nil_of_le (List.length_take_le 2 _)]
          rfl
    | ra =>
        rcases hplace with ⟨-, rfl, -, -⟩ | ⟨hdown, -⟩ | ⟨hdown, -⟩
        · exact hclient
        · rw [htask] at hdown
          cases hdown
        · rw [htask] at hdown
          cases hdown

/-- It has not come to the locks, or it is through with them. -/
def ThreadAt.outside : ThreadAt → Bool
  | .recvRa => true
  | .recvGone => true
  | .recvKeyInit => true
  | .lockSet _ => true
  | .returned => true
  | _ => false

/-- A session goes from one place to another: it keeps its client's lock until it
returns, and only a free `clientLockSetLock_` lets it in. -/
structure Passes (st : State ι) (t t' : ThreadAt) : Prop where
  holds : ∀ c, t.holdsClient = some c → t'.holdsClient = some c ∨ t' = .returned
  enters : t.outside = true → t'.outside = true ∨ st.clientLockSetLock = none

theorem Passes.refl {st : State ι} (t : ThreadAt) : Passes st t t :=
  ⟨fun _ h => Or.inl h, fun h => Or.inl h⟩

theorem Passes.of_eq {st : State ι} {t t' : ThreadAt}
    (hholds : t.holdsClient = none ∨ t'.holdsClient = t.holdsClient)
    (henters : t.outside = false ∨ t'.outside = true) : Passes st t t' where
  holds := fun c hc => by
    rcases hholds with hnone | hsame
    · rw [hnone] at hc
      cases hc
    · exact Or.inl (hsame.trans hc)
  enters := fun ht => by
    rcases henters with hfalse | htrue
    · rw [hfalse] at ht
      cases ht
    · exact Or.inl htrue

theorem threadStep_passes [DecidableEq ι] {st st' : State ι} {taken : Bool}
    (h : threadStep env setup st i taken = some st') :
    Passes st (st.connections i).threadAt (st'.connections i).threadAt := by
  have hset : ∀ s : Connection, Passes st (st.connections i).threadAt s.threadAt →
      Passes st (st.connections i).threadAt ((st.set i s).connections i).threadAt := fun s hs => by
    rw [State.connections_set_self]
    exact hs
  have hreceive : ∀ {size : Nat} {onMessage : Message → Connection → Option Connection}
      {onClosed : Connection → Option Connection}, st.receive i size onMessage onClosed = some st' →
      (∀ m s s', onMessage m s = some s' → Passes st (st.connections i).threadAt s'.threadAt) →
      (∀ s s', onClosed s = some s' → Passes st (st.connections i).threadAt s'.threadAt) →
      Passes st (st.connections i).threadAt (st'.connections i).threadAt :=
    fun hstep hmessage hclosed =>
      State.receive_self (P := fun s => Passes st (st.connections i).threadAt s.threadAt) hstep
        (Passes.refl _) (fun m s _ hs => hmessage m _ s hs) fun _ _ s hs => hclosed _ s hs
  have hsend : ∀ {m : Message} {onSent : Connection → Connection},
      (∀ s, Passes st (st.connections i).threadAt (onSent s).threadAt) →
      Passes st (st.connections i).threadAt ((st.send i taken m onSent).connections i).threadAt :=
    fun hs => State.send_self (P := fun s => Passes st (st.connections i).threadAt s.threadAt)
      (Passes.refl _) (hs _)
  rw [threadStep] at h
  cases hat : (st.connections i).threadAt <;> simp only [hat] at h hset hreceive hsend
  case recvRa =>
    refine hreceive h (fun m s s' hs => ?_) fun _ _ hs => by cases hs
    split at hs <;> cases hs <;> exact .of_eq (Or.inl rfl) (Or.inr rfl)
  case recvGone =>
    refine hreceive h (fun m s s' hs => ?_) fun s s' hs => ?_ <;> cases hs <;>
      exact .of_eq (Or.inl rfl) (Or.inr rfl)
  case recvKeyInit =>
    refine hreceive h (fun m s s' hs => ?_) fun _ _ hs => by cases hs
    split at hs <;> cases hs
    exact .of_eq (Or.inl rfl) (Or.inr rfl)
  case lockSet c =>
    split at h <;> cases h
    rename_i hfree
    exact hset _ ⟨(fun _ hc => by cases hc), fun _ => Or.inr (Option.isNone_iff_eq_none.mp hfree)⟩
  case findLock | lockClient =>
    split at h <;> cases h <;> exact hset _ (.of_eq (Or.inl rfl) (Or.inl rfl))
  case keyExchange =>
    split at h <;> cases h
    · exact hset _ (.of_eq (Or.inr rfl) (Or.inl rfl))
    · rw [hat]
      exact Passes.refl _
  case checkFileStatus =>
    split at h <;> cases h <;> exact hset _ (.of_eq (Or.inr rfl) (Or.inl rfl))
  case join =>
    split at h <;> cases h
    refine hset _ ?_
    simp only [Connection.goTo]
    split <;> exact .of_eq (Or.inr rfl) (Or.inl rfl)
  case sendReply | sendNonExist | sendResponse =>
    rw [← Option.some.inj h]
    exact hsend fun _ => .of_eq (Or.inr rfl) (Or.inl rfl)
  case recvLogin =>
    refine hreceive h (fun m s s' hs => ?_) fun _ _ hs => by cases hs
    obtain ⟨opt, -, rfl⟩ := Option.map_eq_some_iff.mp hs
    exact .of_eq (Or.inr rfl) (Or.inl rfl)
  case recvClosed =>
    refine hreceive h (fun _ _ _ hs => by cases hs) fun s s' hs => ?_
    cases hs
    exact .of_eq (Or.inr rfl) (Or.inl rfl)
  case initClient =>
    rw [← Option.some.inj h]
    refine State.goOn_self (P := fun s => Passes st (.initClient _ _) s.threadAt)
      (by rw [hat]; exact Passes.refl _) fun s hs => ?_
    obtain ⟨k, -, rfl⟩ := Option.map_eq_some_iff.mp hs
    exact .of_eq (Or.inr rfl) (Or.inl rfl)
  case newClientVar =>
    rw [← Option.some.inj h]
    split <;> exact hset _ (.of_eq (Or.inr rfl) (Or.inl rfl))
  case unlockSet | processOff | destroyClient =>
    rw [← Option.some.inj h]
    exact hset _ (.of_eq (Or.inr rfl) (Or.inl rfl))
  case unlockClient =>
    rw [← Option.some.inj h]
    exact hset _ ⟨fun _ _ => Or.inr rfl, fun hout => by cases hout⟩
  case returned => cases h

/-- No action but a step of a session's own thread moves it. -/
theorem step_passes [DecidableEq ι] {st st' : State ι} {a : Act ι}
    (hstep : step env setup st a = some st') (k : ι) :
    (st'.connections k).threadAt = (st.connections k).threadAt ∨
      ∃ taken, a = .thread k taken ∧ threadStep env setup st k taken = some st' := by
  by_cases hk : k = a.connection
  · have hcases := (step_cases hstep).2
    cases a with
    | thread i taken =>
        obtain rfl : k = i := hk
        exact Or.inr ⟨taken, rfl, hcases⟩
    | worker i taken =>
        obtain rfl : k = i := hk
        exact Or.inl (workerStep_same hcases).1
    | client i =>
        obtain rfl : k = i := hk
        obtain ⟨c, s, -, hs, rfl⟩ := hcases
        rw [State.connections_set_self]
        exact Or.inl (Connection.clientStep_same hs).threadAt
    | kill i =>
        obtain rfl : k = i := hk
        obtain ⟨-, -, rfl⟩ := hcases
        rw [State.connections_set_self]
        exact Or.inl rfl
    | foreignSend i m =>
        obtain rfl : k = i := hk
        obtain ⟨-, rfl⟩ := hcases
        rw [State.connections_set_self]
        exact Or.inl rfl
    | foreignClose i =>
        obtain rfl : k = i := hk
        obtain ⟨-, rfl⟩ := hcases
        rw [State.connections_set_self]
        exact Or.inl rfl
  · exact Or.inl (by rw [step_others hstep hk])

/-- A session `j` that waits for the lock that `i` holds. -/
structure Blocks (i j : ι) (c : UInt32) (st : State ι) : Prop where
  locked : Locked st
  holder : (st.connections i).threadAt.holdsClient = some c
  waits : (st.connections j).threadAt = .lockClient c

theorem Blocks.holdsSet {st : State ι} {i j : ι} {c : UInt32} (h : Blocks i j c st) :
    st.clientLockSetLock = some j :=
  (h.locked j).set.mpr (by rw [h.waits]; rfl)

/-- As long as `i` has not returned, `j` waits, and nobody else gets in. -/
theorem Blocks.step [DecidableEq ι] {st st' : State ι} {i j : ι} {c : UInt32}
    (h : Blocks i j c st) {a : Act ι} (hstep : step env setup st a = some st') :
    ((st'.connections i).threadAt = .returned ∨ Blocks i j c st') ∧
      ∀ k, (st.connections k).threadAt.outside = true →
        (st'.connections k).threadAt.outside = true := by
  have hset := h.holdsSet
  have hheld := ((h.locked i).client c).mpr h.holder
  constructor
  · have hwaits : (st'.connections j).threadAt = .lockClient c := by
      rcases step_passes hstep j with hsame | ⟨taken, -, hthread⟩
      · rw [hsame, h.waits]
      · simp only [threadStep, h.waits, hheld] at hthread
        cases hthread
    rcases step_passes hstep i with hsame | ⟨taken, -, hthread⟩
    · exact Or.inr ⟨h.locked.step hstep, by rw [hsame]; exact h.holder, hwaits⟩
    · rcases (threadStep_passes hthread).holds c h.holder with hholder | hreturned
      · exact Or.inr ⟨h.locked.step hstep, hholder, hwaits⟩
      · exact Or.inl hreturned
  · intro k hk
    rcases step_passes hstep k with hsame | ⟨taken, -, hthread⟩
    · rw [hsame]
      exact hk
    · rcases (threadStep_passes hthread).enters hk with hout | hfree
      · exact hout
      · rw [hset] at hfree
        cases hfree

/-- **A login that waits shuts the server.** A session waits for the lock of its client
while it holds `clientLockSetLock_`. From there on, until the other session of that client
has returned, it waits, and no session of any client that has not come to the locks yet
gets to them, whatever the programs and the threads do. -/
theorem lockSet_blocks [DecidableEq ι] (recipes : List Fp) {as bs : List (Act ι)} {st st' : State ι}
    {i j : ι} {c : UInt32} (hexec : exec (step env setup) (start setup recipes) as = some st)
    (hi : (st.connections i).threadAt.holdsClient = some c)
    (hj : (st.connections j).threadAt = .lockClient c)
    (hrun : exec (step env setup) st bs = some st')
    (hstay : (st'.connections i).threadAt ≠ .returned) :
    st.clientLockSetLock = some j ∧ st'.clientLockSetLock = some j ∧
      (st'.connections j).threadAt = .lockClient c ∧
      ∀ k, (st.connections k).threadAt.outside = true →
        (st'.connections k).threadAt.outside = true := by
  have hblocks : Blocks i j c st := ⟨(Locked.accepted recipes).exec hexec, hi, hj⟩
  have hinv := exec_inv' (I := fun s : State ι =>
      (s.connections i).threadAt = .returned ∨ Blocks i j c s ∧
        ∀ k, (st.connections k).threadAt.outside = true → (s.connections k).threadAt.outside = true)
    (fun s a s' h (hstep : step env setup s a = some s') => by
      rcases h with hreturned | ⟨hblocks, hout⟩
      · refine Or.inl ?_
        rcases step_passes hstep i with hsame | ⟨taken, -, hthread⟩
        · rw [hsame, hreturned]
        · simp only [threadStep, hreturned] at hthread
          cases hthread
      · obtain ⟨hnext, hkept⟩ := hblocks.step hstep
        exact hnext.imp_right fun hnext => ⟨hnext, fun k hk => hkept k (hout k hk)⟩)
    bs (Or.inr ⟨hblocks, fun _ hk => hk⟩) hrun
  rcases hinv with hreturned | ⟨hend, hout⟩
  · exact absurd hreturned hstay
  · exact ⟨hblocks.holdsSet, hend.holdsSet, hend.waits, hout⟩

theorem lockSet_blocks_two :
    ∃ st st', exec (step .plain smallSetup) (start smallSetup []) waiting = some st ∧
      exec (step .plain smallSetup) st [.thread false true] = some st' ∧
      (st'.connections true).threadAt = .lockClient 1 := by
  have hrun : ((exec (step .plain smallSetup) (start smallSetup []) waiting).map fun st =>
      ((st.connections false).threadAt.holdsClient,
        (match (st.connections true).threadAt with | .lockClient c => some c | _ => none),
        (exec (step .plain smallSetup) st [.thread false true]).map fun st' =>
          (st'.connections false).threadAt.holdsClient)) =
      some (some 1, some 1, some (some 1)) := by decide
  obtain ⟨st, hst, hend⟩ := Option.map_eq_some_iff.mp hrun
  obtain ⟨hholds, hend⟩ := Prod.mk.inj hend
  obtain ⟨hwaits, hend⟩ := Prod.mk.inj hend
  obtain ⟨st', hst', hstay⟩ := Option.map_eq_some_iff.mp hend
  have hat : (st.connections true).threadAt = .lockClient 1 := by
    split at hwaits
    · rename_i heq
      rw [heq, Option.some.inj hwaits]
    · cases hwaits
  refine ⟨st, st', hst, hst', (lockSet_blocks [] hst hholds hat hst' fun hreturned => ?_).2.2.1⟩
  rw [hreturned] at hstay
  cases hstay

end ShieldReduce.Protocol
