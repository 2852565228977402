import ShieldReduce.System.Run

/-!
# Calls of the writer

Which chunks the store loop hands to `ProcessSheUniqueChunk`, with the
arguments of the call. A batch has a position for each of its chunks,
with a call or without one.
-/

namespace ShieldReduce

open ByteLib LoopLib

/-- A call of `ProcessSheUniqueChunk`, and the session in which it is made. -/
structure SheCall where
  session : Session
  chunkAddr : RecipeEntry
  chunk : Bytes
  sf : Sf
  fp : Fp

namespace SheCall

/-- The address that is answered, and the session after the call. -/
def result [ContainerNames] (env : Env) (c : SheCall) : RecipeEntry × Session :=
  c.session.processSheUniqueChunk env c.chunkAddr c.chunk c.sf c.fp

/-- What is encrypted. -/
def data (env : Env) (c : SheCall) : Bytes :=
  if c.chunkAddr.deltaFlag = NO_DELTA then env.pack c.chunk else c.chunk

/-- The IV that `PickNewIV` gives for it. -/
def iv (c : SheCall) : Iv := pickNewIV c.session.client.iv

end SheCall

namespace EcallFreqIndex

variable (env : Env)

/-- The call for a chunk that is new to the whole store. -/
def uniqueCall (recvBuffer : Bytes) (localFlag : Bool) (st : Storing) (e : InQueryEntry)
    (o : OutQueryEntry) : SheCall :=
  let fetched := offlinedeltaTure localFlag st.session.server e o
  let s := { st.session with server := fetched.1 }
  let encoded := if fetched.2.1.deltaFlag = .delta then
    processDeltachunk env recvBuffer s e fetched.2.1 else (none, s)
  match encoded.1 with
  | some delta => ⟨encoded.2, { e.chunkAddr with deltaFlag := DELTA }, delta,
      fetched.2.1.superfeature, fetched.2.1.chunkHash⟩
  | none => ⟨encoded.2, { e.chunkAddr with deltaFlag := NO_DELTA }, e.chunk,
      fetched.2.1.superfeature, fetched.2.1.chunkHash⟩

/-- The call of one round of the store loop. -/
def storeCall (recvBuffer : Bytes) (localFlag : Bool) (st : Storing) (e : InQueryEntry) :
    Option SheCall :=
  match e.out with
  | some o => if o.dedupFlag = .duplicate then none
      else some (uniqueCall env recvBuffer localFlag st e o)
  | none => none

/-- The calls of a batch. -/
def batchCalls (s : Session) (data : Bytes) (chunkNum : Nat) (stale : Nat → RecipeEntry) :
    List (Option SheCall) :=
  let recvBuffer := env.sessionKeyDec s.client.sessionKey data
  let queried := queryBatch env s.server recvBuffer chunkNum stale
  let localFlag := localChecker env queried.2
  outputs (storeEntry env recvBuffer localFlag) (storeCall env recvBuffer localFlag)
    ⟨{ s with server := queried.1 }, [], [], []⟩ queried.2

/-- A base container is read, into the host's buffer and the cache. -/
theorem offlinedeltaTure_frame (localFlag : Bool) (s : Server) (e : InQueryEntry)
    (o : OutQueryEntry) :
    (∃ b c, (offlinedeltaTure localFlag s e o).1 =
        { s with tmpOcallcontainer := b, inContainercache := c }) ∧
      (offlinedeltaTure localFlag s e o).2.1.dedupFlag = o.dedupFlag ∧
      (offlinedeltaTure localFlag s e o).2.1.chunkHash = o.chunkHash := by
  unfold offlinedeltaTure
  split
  · exact ⟨⟨_, _, rfl⟩, rfl, rfl⟩
  · split
    · split
      · exact ⟨⟨_, _, rfl⟩, rfl, rfl⟩
      · dsimp only
        split
        · exact ⟨⟨_, _, rfl⟩, rfl, rfl⟩
        · split
          · exact ⟨⟨_, _, rfl⟩, rfl, rfl⟩
          · exact ⟨⟨_, _, rfl⟩, rfl, rfl⟩
    · exact ⟨⟨_, _, rfl⟩, rfl, rfl⟩

/-- What is done before a chunk is stored: a base container is read and the chunk
is encoded. -/
theorem session_uniqueCall (recvBuffer : Bytes) (localFlag : Bool) (st : Storing)
    (e : InQueryEntry) (o : OutQueryEntry) : ∃ b c calls table,
    (uniqueCall env recvBuffer localFlag st e o).session =
      { st.session with
        server := { st.session.server with
          tmpOcallcontainer := b
          inContainercache := c
          encodes := calls }
        client := { st.session.client with psHTable := table } } := by
  obtain ⟨⟨b, c, hfetch⟩, -⟩ := offlinedeltaTure_frame localFlag st.session.server e o
  unfold uniqueCall
  dsimp only
  rw [hfetch]
  split
  · split
    · exact ⟨_, _, _, _, rfl⟩
    · exact ⟨_, _, _, _, rfl⟩
  · split
    · exact ⟨_, _, _, _, rfl⟩
    · exact ⟨_, _, _, _, rfl⟩

/-- The chunk is stored by the call: the session goes on with the one that the
call answers, and the entry with its address. -/
theorem storeUnique_call [ContainerNames] (recvBuffer : Bytes) (localFlag : Bool) (st : Storing)
    (e : InQueryEntry) (o : OutQueryEntry) :
    (storeUnique env recvBuffer localFlag st e o).session =
        ((uniqueCall env recvBuffer localFlag st e o).result env).2 ∧
      ∃ o' : OutQueryEntry, o'.dedupFlag = o.dedupFlag ∧ o'.chunkHash = o.chunkHash ∧
        (uniqueCall env recvBuffer localFlag st e o).fp = o.chunkHash ∧
        (storeUnique env recvBuffer localFlag st e o).entries = st.entries ++ [{ e with
          chunkAddr := ((uniqueCall env recvBuffer localFlag st e o).result env).1
          out := some ({ o' with chunkAddr := (env.encEntry
            ((uniqueCall env recvBuffer localFlag st e o).result env).1) }) }] := by
  obtain ⟨-, hfetch⟩ := offlinedeltaTure_frame localFlag st.session.server e o
  unfold storeUnique uniqueCall
  dsimp only
  generalize (if (offlinedeltaTure localFlag st.session.server e o).2.1.deltaFlag = .delta then
    processDeltachunk env recvBuffer
      { st.session with server := (offlinedeltaTure localFlag st.session.server e o).1 } e
      (offlinedeltaTure localFlag st.session.server e o).2.1
    else (none, { st.session with
      server := (offlinedeltaTure localFlag st.session.server e o).1 })) = encoded
  obtain ⟨delta?, s⟩ := encoded
  cases delta? with
  | some delta =>
      exact ⟨rfl, { (offlinedeltaTure localFlag st.session.server e o).2.1 with
        deltaFlag := .delta }, hfetch.1, hfetch.2, hfetch.2, rfl⟩
  | none =>
      exact ⟨rfl, { (offlinedeltaTure localFlag st.session.server e o).2.1 with
        deltaFlag := .noDelta }, hfetch.1, hfetch.2, hfetch.2, rfl⟩

end EcallFreqIndex

/-- The calls for a message of the client. -/
def Session.calls (env : Env) (s : Session) : Message → List (Option SheCall)
  | .chunk data currentItemNum stale => EcallFreqIndex.batchCalls env s data currentItemNum stale
  | .recipeEnd _ => []

/-- The calls of a session, complete or not. -/
def Upload.calls (env : Env) (s : Server) (u : Upload) (toEnd : Bool) : List (Option SheCall) :=
  (outputs (Session.receive env) (Session.calls env) (Session.start s u.login)
    (u.messages env toEnd)).flatten

end ShieldReduce
