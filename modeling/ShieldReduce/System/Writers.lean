import ShieldReduce.System.Run

/-!
# The writers of the index types

`Ecall_Init_Upload` picks the index of a server. All but one of them
store a chunk through `ProcessSheUniqueChunk`, which puts the entry, the
fingerprint and the super-features in front of the payload. `DEBE` stores
through `ProcessUniqueChunk`, and `SaveChunk` puts nothing there.

The deduplication of an index decides which chunks it stores and where
their deltas are taken from; here any sequence of chunks is stored.
-/

namespace ShieldReduce

open ByteLib

/-- `INDEX_TYPE_SET`. -/
inductive IndexType where
  | secureMega
  | debe
  | forword
  | onlyForword
  | freqIndex
deriving DecidableEq

/-- `EcallStorageCore::SaveChunk`. -/
def EcallStorageCore.saveChunk (s : Session) (chunkData : Bytes) (chunkAddr : RecipeEntry) :
    RecipeEntry × Session :=
  let saveOffset := (s.client.cur .base).buf.length
  let s := if CRYPTO_BLOCK_SIZE + chunkData.length + saveOffset < MAX_CONTAINER_SIZE then s
    else s.rollOver .base
  let c := s.client.cur .base
  ({ chunkAddr with
      length := UInt32.ofNat chunkData.length
      offset := UInt32.ofNat c.buf.length
      containerName := c.containerID },
    s.setCur .base { c with buf := c.buf ++ (chunkData ++ s.client.iv.1) })

/-- `EnclaveBase::ProcessUniqueChunk`. -/
def EnclaveBase.processUniqueChunk (env : Env) (s : Session) (chunkAddr : RecipeEntry)
    (chunk : Bytes) : RecipeEntry × Session :=
  let iv := pickNewIV s.client.iv
  let data := env.pack chunk
  EcallStorageCore.saveChunk
    { client := { s.client with iv := iv }
      server := { s.server with
        onlineBackupSize := s.server.onlineBackupSize + UInt64.ofNat data.length } }
    (env.encryptWithKeyIV data iv) chunkAddr

/-- The arguments of a call that stores a chunk. The entry says whether the
chunk is a delta, and holds the address of an earlier chunk otherwise. -/
structure StoreCall where
  chunkAddr : RecipeEntry
  chunk : Chunk
  sf : Sf
  fp : Fp

/-- What the writer places in a container, and the entry that it answers. -/
structure Placed where
  entry : RecipeEntry
  payload : Bytes
  iv : Iv

namespace IndexType

variable (env : Env) (t : IndexType)

/-- A chunk is stored by the index of the server. -/
def store (s : Session) (c : StoreCall) : RecipeEntry × Session :=
  match t with
  | debe => EnclaveBase.processUniqueChunk env s c.chunkAddr c.chunk.1
  | _ => s.processSheUniqueChunk env c.chunkAddr c.chunk.1 c.sf c.fp

/-- The bytes that the writer encrypts. `DEBE` has no deltas. -/
def data (c : StoreCall) : Bytes :=
  if t = debe ∨ c.chunkAddr.deltaFlag = NO_DELTA then env.pack c.chunk.1 else c.chunk.1

def placed (s : Session) (c : StoreCall) : Placed where
  entry := (t.store env s c).1
  payload := env.encryptWithKeyIV (t.data env c) (pickNewIV s.client.iv)
  iv := pickNewIV s.client.iv

/-- The chunks of a session, one after the other. -/
def storeAll : Session → List StoreCall → Session × List Placed
  | s, [] => (s, [])
  | s, c :: cs =>
      let rest := storeAll (t.store env s c).2 cs
      (rest.1, t.placed env s c :: rest.2)

/-- A session of the server, up to its end. -/
def session (s : Server) (l : Login) (cs : List StoreCall) : Server × List Placed :=
  let stored := t.storeAll env (.start s l) cs
  ((EcallFreqIndex.processTailBatch env stored.1).close.server, stored.2)

/-- The sessions of a run, and all that they placed. -/
def sessions : Server → List (Login × List StoreCall) → Server × List Placed
  | s, [] => (s, [])
  | s, (l, cs) :: later =>
      let first := t.session env s l cs
      let rest := sessions first.1 later
      (rest.1, first.2 ++ rest.2)

end IndexType

end ShieldReduce
