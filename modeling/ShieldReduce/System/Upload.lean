import ShieldReduce.System.State

/-!
# Uploads

One upload session: the client's containers and recipe, the batches that
`EcallFreqIndex::ProcessOneBatch` deduplicates and stores, the tail of
the session, and `DataReceiver::Run` around them.

In every loop of `ProcessOneBatch` the query entries outside the enclave
advance with the chunks that are new to the enclave. The model keeps such
an entry with its chunk, in the field `out` of `InQueryEntry`.
-/

namespace ShieldReduce

open ByteLib UMapLib

/-! ## Sessions -/

/-- A container that is being filled: `buf` inside the enclave
(`InContainer`), and the part of `body` outside of it that counts
(`Container_t`, up to `currentSize`). -/
structure OpenContainer where
  containerID : ContainerName
  body : Bytes
  buf : Bytes

/-- The variables of one upload client, inside the enclave and outside. -/
structure Client where
  cur : Dir → OpenContainer
  /-- `_inRecipe`: fingerprints that are not in the recipe file yet. -/
  inRecipe : List Fp
  recipePath : Fp
  recipe : Bytes
  iv : Iv
  psHTable : Edelta.CleanTable
  sessionKey : Key
  masterKey : Key

structure Session where
  server : Server
  client : Client

/-- `*(uint64_t*)_iv += 1`. -/
def incLe : Nat → Bytes → Bytes
  | 0, bs => bs
  | _ + 1, [] => []
  | n + 1, b :: bs => if b = 255 then 0 :: incLe n bs else (b + 1) :: bs

theorem length_incLe : ∀ (n : Nat) (bs : Bytes), (incLe n bs).length = bs.length
  | 0, _ => rfl
  | _ + 1, [] => rfl
  | n + 1, b :: bs => by
      rw [incLe]
      split
      · rw [List.length_cons, length_incLe n bs, List.length_cons]
      · rfl

def pickNewIV (iv : Iv) : Iv := ⟨incLe 8 iv.1, (length_incLe 8 iv.1).trans iv.2⟩

variable [names : ContainerNames]

namespace Session

def setCur (s : Session) (d : Dir) (c : OpenContainer) : Session :=
  { s with client := { s.client with cur := fun d' => if d' = d then c else s.client.cur d' } }

/-- `Ocall_WriteContainer` and `Ocall_WriteDeltaContainer`. -/
def writeContainer (s : Session) (d : Dir) : Session :=
  let c := s.client.cur d
  let server := s.server.saveToFile d c.containerID c.body
  setCur { s with server := { server with created := server.created + 1 } } d
    { c with containerID := containerName server.created, body := [] }

/-- The roll-over: the enclave's buffer goes out and starts again. -/
def rollOver (s : Session) (d : Dir) : Session :=
  let c := s.client.cur d
  let s := (s.setCur d { c with body := c.buf }).writeContainer d
  s.setCur d { s.client.cur d with buf := [] }

/-- What `SavebaseChunk` and `SavedeltaChunk` have in common. -/
def saveChunk (s : Session) (d : Dir) (chunkData : Bytes) (chunkAddr : RecipeEntry) (sf : Sf)
    (fp : Fp) : RecipeEntry × Session :=
  let saveOffset := (s.client.cur d).buf.length
  let s := if CRYPTO_BLOCK_SIZE + chunkData.length + saveOffset + 4 * CHUNK_HASH_SIZE +
      sizeofRecipeEntry < MAX_CONTAINER_SIZE then s else s.rollOver d
  let c := s.client.cur d
  let chunkAddr := { chunkAddr with
    length := UInt32.ofNat chunkData.length
    offset := UInt32.ofNat c.buf.length
    containerName := c.containerID }
  let record : Record := ⟨chunkAddr, fp, sf, chunkData, s.client.iv⟩
  (chunkAddr, s.setCur d { c with buf := c.buf ++ record.toBytes })

def savebaseChunk (s : Session) (chunkData : Bytes) (chunkAddr : RecipeEntry) (sf : Sf) (fp : Fp) :
    RecipeEntry × Session :=
  s.saveChunk .base chunkData { chunkAddr with superfeature := sf } sf fp

def savedeltaChunk (s : Session) (chunkData : Bytes) (chunkAddr : RecipeEntry) (sf : Sf)
    (fp : Fp) : RecipeEntry × Session :=
  s.saveChunk .delta chunkData chunkAddr sf fp

/-- `ProcessSheUniqueChunk`. -/
def processSheUniqueChunk (env : Env) (s : Session) (chunkAddr : RecipeEntry) (chunk : Bytes)
    (sf : Sf) (fp : Fp) : RecipeEntry × Session :=
  let iv := pickNewIV s.client.iv
  let data := if chunkAddr.deltaFlag = NO_DELTA then env.pack chunk else chunk
  let cipherChunk := env.encryptWithKeyIV data iv
  let s := { s with
    client := { s.client with iv := iv }
    server := { s.server with
      onlineBackupSize := s.server.onlineBackupSize + UInt64.ofNat data.length } }
  if chunkAddr.deltaFlag = NO_DELTA then s.savebaseChunk cipherChunk chunkAddr sf fp
  else s.savedeltaChunk cipherChunk chunkAddr sf fp

/-- The recipe so far goes to the recipe file. -/
def flushRecipe (env : Env) (s : Session) : Session :=
  let c := s.client
  { s with client := { c with
      recipe := c.recipe ++ env.encryptWithKey c.masterKey (c.inRecipe.flatMap Subtype.val)
      inRecipe := [] } }

/-- `UpdateFileRecipe`; it does not use the address it is given. -/
def updateFileRecipe (env : Env) (s : Session) (chunkHash : Fp) : Session :=
  let s := { s with client := { s.client with inRecipe := s.client.inRecipe ++ [chunkHash] } }
  if s.client.inRecipe.length % env.sendRecipeBatchSize = 0 then s.flushRecipe env else s

end Session

/-! ## The entries of a batch -/

/-- `dedupFlag` of an entry. -/
inductive DedupFlag where
  | unique
  | duplicate
  | tmpUnique
  | tmpDuplicate
deriving DecidableEq

/-- `deltaFlag` of an entry outside the enclave. -/
inductive DeltaStatus where
  | noDelta
  | delta
  | outDelta
deriving DecidableEq

/-- `OutQueryEntry_t`. While the entry is `OUT_DELTA`, `basechunkHash` is
that of its `chunkAddr`; later `chunkAddr` is the encrypted address. -/
structure OutQueryEntry where
  dedupFlag : DedupFlag
  deltaFlag : DeltaStatus
  offlineFlag : Bool
  chunkHash : Fp
  chunkAddr : Cipher
  basechunkHash : Fp
  superfeature : Sf
  basechunkAddr : Cipher
  containerbuffer : Bytes

/-- `InQueryEntry_t`, with the chunk in the receive buffer that it is for. -/
structure InQueryEntry where
  chunk : Bytes
  currentOffset : Nat
  chunkHash : Fp
  chunkFreq : UInt32
  dedupFlag : DedupFlag
  chunkAddr : RecipeEntry
  basechunkAddr : RecipeEntry
  out : Option OutQueryEntry

def zeroCipher : Cipher := BytesN.ofBytes 144 []

/-- An entry outside the enclave before the queries fill it in. -/
def OutQueryEntry.fresh (chunkHash : Fp) : OutQueryEntry where
  dedupFlag := .unique
  deltaFlag := .noDelta
  offlineFlag := false
  chunkHash := chunkHash
  chunkAddr := zeroCipher
  basechunkHash := BytesN.ofBytes 32 []
  superfeature := BytesN.ofBytes 96 []
  basechunkAddr := zeroCipher
  containerbuffer := []

/-- The chunks of a receive buffer, each with its offset. -/
def parseChunks (recvBuffer : Bytes) : (chunkNum currentOffset : Nat) → List (Nat × Bytes)
  | 0, _ => []
  | n + 1, off =>
      let chunkSize := (ofLe32 (recvBuffer.drop off)).toNat
      (off + 4, slice (memOf recvBuffer) (off + 4) chunkSize) ::
        parseChunks recvBuffer n (off + 4 + chunkSize)

/-- A batch as a client frames it. -/
def frameChunks (chunks : List Bytes) : Bytes :=
  chunks.flatMap fun c => le32 (UInt32.ofNat c.length) ++ c

namespace EcallFreqIndex

variable (env : Env)

/-- The entry of a chunk before the heap is asked. The slot still holds the
address of an earlier batch. -/
def readEntry (stale : RecipeEntry) (chunkFreq : UInt32) (c : Nat × Bytes) : InQueryEntry where
  chunk := c.2
  currentOffset := c.1
  chunkHash := env.generateHash c.2
  chunkFreq := chunkFreq
  dedupFlag := .unique
  chunkAddr := stale
  basechunkAddr := stale
  out := none

/-- Counting the chunks: each gets its estimate after its own update. -/
def countChunks : EcallCMSketch → List Bytes → EcallCMSketch × List UInt32
  | s, [] => (s, [])
  | s, c :: cs =>
      let s := s.update (env.generateHash c) 1
      let freq := s.estimate (env.generateHash c)
      let (s', freqs) := countChunks s cs
      (s', freq :: freqs)

/-- The entries so far, and `_localIndex`. -/
structure Checked where
  entries : List InQueryEntry
  localIndex : UMap Fp Nat

/-- An entry that is new to this batch and to the heap gets a query entry. -/
def askOutside (e : InQueryEntry) : InQueryEntry :=
  { e with dedupFlag := .unique, out := some (.fresh (env.indexAESCMCEnc e.chunkHash)) }

/-- One chunk against this batch and the heap. -/
def checkEntry (heap : EntryHeap) (minFreq : UInt32) (st : Checked) (e : InQueryEntry) : Checked :=
  match st.localIndex.lookup e.chunkHash with
  | some offset =>
      let dedupFlag := match (st.entries[offset]?).map InQueryEntry.dedupFlag with
        | some .duplicate => DedupFlag.tmpDuplicate
        | _ => .tmpUnique
      { st with entries :=
          st.entries.modify offset (fun f => { f with chunkFreq := e.chunkFreq }) ++
            [{ e with dedupFlag := dedupFlag }] }
  | none =>
      let e := if e.chunkFreq < minFreq then askOutside env e
        else match heap.getPriority e.chunkHash with
          | some item => { e with dedupFlag := .duplicate, chunkAddr := item.address }
          | none => askOutside env e
      { entries := st.entries ++ [e]
        localIndex := st.localIndex.insert e.chunkHash st.entries.length }

/-- The chunk's entry outside the enclave, if it has one, is changed. -/
def mapOut (f : OutQueryEntry → OutQueryEntry) (e : InQueryEntry) : InQueryEntry :=
  { e with out := e.out.map f }

/-- `Ocall_QueryOutIndex`, for one entry. -/
def queryOutIndex (db : InMemoryDatabase) (o : OutQueryEntry) : OutQueryEntry :=
  match db.queryBuffer o.chunkHash with
  | some chunkAddr => { o with dedupFlag := .duplicate, chunkAddr := chunkAddr }
  | none => { o with dedupFlag := .unique }

/-- The super-features of a chunk that is new (`OutEntrySFGet`). -/
def outEntrySFGet (recvBuffer : Bytes) (e : InQueryEntry) : InQueryEntry :=
  mapOut (fun o => if o.dedupFlag = .unique then
      { o with
        deltaFlag := .noDelta
        offlineFlag := false
        superfeature := env.getSF2 recvBuffer e.currentOffset e.chunk.length }
    else o) e

/-- `Ocall_QueryOutBasechunk`, for one entry. -/
def queryOutBasechunk (db : InMemoryDatabase) (o : OutQueryEntry) : OutQueryEntry :=
  if o.dedupFlag = .unique ∧ o.deltaFlag = .noDelta then
    match db.querySF o.superfeature with
    | some base =>
        { o with
          basechunkHash := base
          deltaFlag := .outDelta
          basechunkAddr := (db.queryBuffer base).getD o.basechunkAddr }
    | none => o
  else o

/-- `EntryLoad`. -/
def entryLoad (e : InQueryEntry) : InQueryEntry :=
  match e.out with
  | some o =>
      if o.dedupFlag = .unique ∧ o.deltaFlag = .outDelta then
        { e with
          chunkAddr := { e.chunkAddr with basechunkHash := o.basechunkHash }
          basechunkAddr := env.decEntry o.basechunkAddr }
      else e
  | none => e

/-- The container of the base, of a chunk that has one. -/
def baseContainer? (e : InQueryEntry) : Option ContainerName :=
  match e.out with
  | some o => if o.dedupFlag = .unique ∧ o.deltaFlag = .outDelta
      then some e.basechunkAddr.containerName else none
  | none => none

def thresold (chunkNum : Nat) : Nat :=
  if env.forwardFlag then chunkNum * 128 else chunkNum * 3 / 100

/-- `LocalChecker`, on the loaded entries. -/
def localChecker (entries : List InQueryEntry) : Bool :=
  decide (thresold env entries.length < (entries.filterMap baseContainer?).dedup.length)

/-! ## Storing a batch -/

/-- What the store loop works on. -/
structure Storing where
  session : Session
  /-- The entries that are done. -/
  entries : List InQueryEntry
  batchBasemap : List (Fp × Fp)
  processBuffer : List (Fp × Fp)

/-- The fingerprints that are never delta encoded. -/
def isExcluded (chunkHash : Fp) : Bool := chunkHash.1.take 3 = [161, 77, 140]

/-- `OfflinedeltaTure`: the entry, the server, and the pair for the log. -/
def offlinedeltaTure (localFlag : Bool) (s : Server) (e : InQueryEntry) (o : OutQueryEntry) :
    Server × OutQueryEntry × List (Fp × Fp) :=
  if isExcluded e.chunkHash then (s, { o with deltaFlag := .noDelta }, [])
  else if o.deltaFlag = .outDelta then
    if localFlag then
      (s, { o with deltaFlag := .noDelta, offlineFlag := true }, [(o.basechunkHash, o.chunkHash)])
    else
      let name := e.basechunkAddr.containerName
      if s.inContainercache.existsInCache name then
        let (buffer, cache) := s.inContainercache.readFromCache name
        ({ s with inContainercache := cache },
          { o with containerbuffer := buffer, deltaFlag := .delta }, [])
      else
        -- `Ocall_getRefContainer`
        match (s.containers .base).lookup name with
        | none => (s, { o with deltaFlag := .noDelta }, [])
        | some file =>
            let s := s.readContainer file
            let buffer := s.tmpOcallcontainer
            ({ s with inContainercache := s.inContainercache.insertToCacheOffline name buffer },
              { o with containerbuffer := buffer, deltaFlag := .delta }, [])
  else (s, o, [])

/-- The base that `ProcessDeltachunk` hands to the encoder. -/
def baseOf (e : InQueryEntry) (o : OutQueryEntry) : Bytes :=
  env.unpack (env.decryptionWithKeyIV (getChunkContent o.containerbuffer e.basechunkAddr)
    (getChunkIV o.containerbuffer e.basechunkAddr))

/-- The arguments of the encoder; the new chunk stays in the receive buffer. -/
def deltaJob (recvBuffer : Bytes) (e : InQueryEntry) (base : Bytes) : Edelta.Job where
  newBuf := memOf (recvBuffer.drop e.currentOffset)
  newSize := e.chunk.length
  baseBuf := memOf base
  baseSize := base.length

/-- `ProcessDeltachunk`: the delta, unless it is not shorter than the chunk. -/
def processDeltachunk (recvBuffer : Bytes) (s : Session) (e : InQueryEntry) (o : OutQueryEntry) :
    Option Bytes × Session :=
  let base := baseOf env e o
  let (delta, table) := Edelta.EcallFreqIndex.eDeltaEncode env.heuristics s.client.psHTable
    (deltaJob recvBuffer e base)
  let call : EncodeCall := ⟨o.basechunkHash, base, s.server.plaintext env o.basechunkHash⟩
  (if e.chunk.length ≤ delta.length then none else some delta,
    { client := { s.client with psHTable := table }
      server := { s.server with encodes := s.server.encodes ++ [call] } })

/-- A chunk that is new to the whole store. -/
def storeUnique (recvBuffer : Bytes) (localFlag : Bool) (st : Storing) (e : InQueryEntry)
    (o : OutQueryEntry) : Storing :=
  let (server, o, pairs) := offlinedeltaTure localFlag st.session.server e o
  let s := { st.session with server := server }
  let (delta?, s) := if o.deltaFlag = .delta then processDeltachunk env recvBuffer s e o
    else (none, s)
  let finish := fun (o : OutQueryEntry) (p : RecipeEntry × Session) (process : List (Fp × Fp)) =>
    let e := { e with chunkAddr := p.1, out := some { o with chunkAddr := env.encEntry p.1 } }
    { session := p.2
      entries := st.entries ++ [e]
      batchBasemap := st.batchBasemap ++ pairs
      processBuffer := st.processBuffer ++ process : Storing }
  match delta? with
  | some delta =>
      finish { o with deltaFlag := .delta }
        (s.processSheUniqueChunk env { e.chunkAddr with deltaFlag := DELTA } delta
          o.superfeature o.chunkHash)
        [(o.basechunkHash, o.chunkHash)]
  | none =>
      finish { o with deltaFlag := .noDelta }
        (s.processSheUniqueChunk env { e.chunkAddr with deltaFlag := NO_DELTA } e.chunk
          o.superfeature o.chunkHash)
        []

/-- One round of the store loop. -/
def storeEntry (recvBuffer : Bytes) (localFlag : Bool) (st : Storing) (e : InQueryEntry) :
    Storing :=
  let st := match e.out with
    | some o =>
        if o.dedupFlag = DedupFlag.duplicate then
          { st with entries := st.entries ++ [{ e with chunkAddr := env.decEntry o.chunkAddr }] }
        else storeUnique env recvBuffer localFlag st e o
    | none => { st with entries := st.entries ++ [e] }
  { st with session := st.session.updateFileRecipe env e.chunkHash }

/-! ## After the store loop -/

def checkIfAddToHeap (heap : EntryHeap) (chunkFreq : UInt32) : Bool :=
  decide (heap.size < env.topThreshold) || decide (heap.topEntry ≤ chunkFreq)

def addChunkToHeap (heap : EntryHeap) (chunkFreq : UInt32) (chunkAddr : RecipeEntry)
    (chunkFp : Fp) : EntryHeap :=
  let heap := if heap.size = env.topThreshold then heap.pop else heap
  heap.add chunkFp ⟨chunkAddr, chunkFreq, 0⟩

/-- The heap update for one entry. -/
def updateHeap (heap : EntryHeap) (e : InQueryEntry) : EntryHeap :=
  if (e.dedupFlag = .unique ∨ e.dedupFlag = .duplicate) ∧ checkIfAddToHeap env heap e.chunkFreq then
    if heap.contains e.chunkHash then heap.update e.chunkHash e.chunkFreq
    else addChunkToHeap env heap e.chunkFreq e.chunkAddr e.chunkHash
  else heap

/-- `Ocall_UpdateOutIndex`, for one entry. -/
def updateOutIndex (db : InMemoryDatabase) (o : OutQueryEntry) : InMemoryDatabase :=
  if o.dedupFlag = .unique then
    let db := db.insertBothBuffer o.chunkHash o.chunkAddr
    if o.deltaFlag = .noDelta ∧ o.offlineFlag = false then
      db.insertSF o.superfeature o.chunkHash .push
    else db
  else db

/-- The queries of `ProcessOneBatch`, up to its store loop. -/
def queryBatch (s : Server) (recvBuffer : Bytes) (chunkNum : Nat) (stale : Nat → RecipeEntry) :
    Server × List InQueryEntry :=
  let chunks := parseChunks recvBuffer chunkNum 0
  let (sketch, freqs) := countChunks env s.cmSketch (chunks.map Prod.snd)
  let heap := s.insideDedupIndex
  let minFreq := if heap.size = env.topThreshold then heap.topEntry else 0
  let entries := (chunks.zip freqs).mapIdx fun i c => readEntry env (stale i) c.2 c.1
  let checked := (entries.foldl (checkEntry env heap minFreq) ⟨[], ∅⟩).entries
  let asked := checked.map fun e =>
    mapOut (queryOutBasechunk s.db) (outEntrySFGet env recvBuffer (mapOut (queryOutIndex s.db) e))
  ({ s with cmSketch := sketch }, asked.map (entryLoad env))

/-- The log or the delta index, then the heap, then the index. -/
def finishBatch (localFlag : Bool) (st : Storing) : Session :=
  let s := st.session.server
  let db := if localFlag then st.batchBasemap.foldl (fun db p => db.localInsert p.1 p.2) s.db
    else st.processBuffer.foldl (fun db p => db.insertDeltaIndex p.1 p.2) s.db
  { st.session with server := { s with
      insideDedupIndex := st.entries.foldl (updateHeap env) s.insideDedupIndex
      db := (st.entries.filterMap InQueryEntry.out).foldl updateOutIndex db } }

/-- `ProcessOneBatch` of the enclave and of `EnclaveIndex`, for the message
`data` with `chunkNum` items. -/
def processOneBatch (s : Session) (data : Bytes) (chunkNum : Nat) (stale : Nat → RecipeEntry) :
    Session :=
  let recvBuffer := env.sessionKeyDec s.client.sessionKey data
  let (server, entries) := queryBatch env s.server recvBuffer chunkNum stale
  let localFlag := localChecker env entries
  finishBatch env localFlag (entries.foldl (storeEntry env recvBuffer localFlag)
    ⟨{ s with server := server }, [], [], []⟩)

/-- `ProcessTailBatch`. -/
def processTailBatch (s : Session) : Session :=
  let s := if s.client.inRecipe.length ≠ 0 then s.flushRecipe env else s
  let out := fun (s : Session) d =>
    let c := s.client.cur d
    if c.buf.length ≠ 0 then s.setCur d { c with body := c.buf } else s
  out (out s .base) .delta

end EcallFreqIndex

/-! ## A session -/

/-- A message of the client. -/
inductive Message where
  /-- `CLIENT_UPLOAD_CHUNK`, and what the entries of the batch held before. -/
  | chunk (data : Bytes) (currentItemNum : Nat) (stale : Nat → RecipeEntry)
  /-- `CLIENT_UPLOAD_RECIPE_END` with the head of the recipe. -/
  | recipeEnd (head : BytesN 16)

/-- What a session starts from: the file, the keys, the random IV, and the
head that the recipe has until its end. -/
structure Login where
  recipePath : Fp
  sessionKey : Key
  masterKey : Key
  iv : Iv
  virtualRecipeEnd : BytesN 16

namespace Session

/-- The client's variables, and its first two containers. -/
def start (s : Server) (l : Login) : Session where
  server := { s with created := s.created + 2 }
  client :=
    { cur := fun
        | .base => ⟨containerName s.created, [], []⟩
        | .delta => ⟨containerName (s.created + 1), [], []⟩
      inRecipe := []
      recipePath := l.recipePath
      recipe := l.virtualRecipeEnd.1
      iv := l.iv
      psHTable := ⟨Edelta.Htable.init 16384, Edelta.Htable.clean_init 16384⟩
      sessionKey := l.sessionKey
      masterKey := l.masterKey }

/-- One round of `DataReceiver::Run`. -/
def receive (env : Env) (s : Session) : Message → Session
  | .chunk data currentItemNum stale => EcallFreqIndex.processOneBatch env s data currentItemNum stale
  | .recipeEnd head =>
      let s := EcallFreqIndex.processTailBatch env s
      { s with client := { s.client with recipe := writeAt s.client.recipe 0 head.1 } }

/-- The end of `DataReceiver::Run`: the last containers go out. -/
def close (s : Session) : Session :=
  let last := fun (s : Session) d =>
    if (s.client.cur d).body.length ≠ 0 then s.writeContainer d else s
  last (last s .base) .delta

end Session

/-- `DataReceiver::Run` for a new client, and the recipe file it leaves. -/
def dataReceiverRun (env : Env) (s : Server) (l : Login) (msgs : List Message) : Server :=
  let s := (msgs.foldl (Session.receive env) (Session.start s l)).close
  { s.server with recipes := s.server.recipes.insert s.client.recipePath s.client.recipe }

/-- `Ecall_UpdateOnlineInfo`, at the end of every upload. -/
def Server.updateOnlineInfo (s : Server) : Server := { s with onlineBackupSize := 0 }

end ShieldReduce
