import Mathlib.Data.List.Sort
import ShieldReduce.System.Upload
import ShieldReduce.Lib.Loop

/-!
# The offline pass

`EnclaveIndex::ProcessOff`: the log of base replacements becomes a list
of pairs, and `OFFLineBackward::Easy_update` works through it. For each
pair the delta chunks of the old base are encoded against the new one
and moved to the hot container, and so is the old base itself once none
of its delta chunks has stayed behind. Then the containers that chunks
were moved out of are compacted, and small base containers are merged.

Compaction and merging copy records in the same way, each with its own
change to the entry in front of the record (`moveRecord`).
-/

namespace ShieldReduce

open ByteLib UMapLib LoopLib

structure HotContainer where
  containerID : ContainerName
  body : Bytes

/-- The variables of `OFFLineBackward`, and those of the client that it
exchanges containers through. -/
structure Pass where
  server : Server
  hotContainer : HotContainer
  psHTable : Edelta.Htable Edelta.DeltaRecord
  offlineCurrBackupSize : UInt64
  /-- `chunkAddr` and `containersize` of the query entry. -/
  chunkAddr : Cipher
  containersize : Nat
  /-- `offline_mergeNewContainer_`. -/
  mergeNewContainer : Bytes
  /-- `_mergeContianer.body`. -/
  mergeContainer : Bytes

/-- What the buffers of the pass hold at its start. -/
structure PassResidue where
  chunkAddr : Cipher
  containersize : Nat
  mergeNewContainer : Bytes
  mergeContainer : Bytes

namespace Pass

def mapDb (p : Pass) (f : InMemoryDatabase → InMemoryDatabase) : Pass :=
  { p with server := { p.server with db := f p.server.db } }

/-- The name of the container that is asked for next goes into the entry. -/
def askFor (p : Pass) (name : ContainerName) : Pass :=
  { p with chunkAddr := BytesN.ofBytes 144 (writeAt p.chunkAddr.1 0 name.1) }

/-- `Ocall_OneContainer`: `none` when there is no such file. -/
def oneContainer (p : Pass) (name : ContainerName) : Option Pass :=
  ((p.server.containers .base).lookup name).map fun file =>
    { p with server := p.server.readContainer file }

/-- `Ocall_OneDeltaContainer`, which does not report that there is no such file. -/
def oneDeltaContainer (p : Pass) (name : ContainerName) : Pass :=
  match (p.server.containers .delta).lookup name with
  | some file => { p with server := p.server.readContainer file }
  | none => p

/-- `Ocall_OneColdContainer`: the delta container, or else the base container. -/
def oneColdContainer (p : Pass) (name : ContainerName) : Dir × Pass :=
  let read := fun file : Bytes =>
    { p with server := p.server.readContainer file, containersize := file.length }
  match (p.server.containers .delta).lookup name with
  | some file => (.delta, read file)
  | none =>
      match (p.server.containers .base).lookup name with
      | some file => (.base, read file)
      | none => (.base, p)

/-- `Ocall_QueryDeltaIndex`. -/
def queryDeltaIndex (p : Pass) (base : Fp) : List Fp × Pass :=
  let (result, db) := p.server.db.queryDeltaIndex base
  (result.getD [], p.mapDb fun _ => db)

/-- `Ocall_SavehotContainer`. -/
def savehotContainer (p : Pass) : Pass :=
  { p with server := p.server.saveToFile .delta p.hotContainer.containerID p.hotContainer.body }

/-- `InsertHot_container`, which starts a new hot container when the chunk
does not fit. -/
def insertHotContainer (p : Pass) (tmpchunkcontent : Bytes) (tmprecipe : RecipeEntry) (tmpfp : Fp)
    (tmpsf : Sf) (tmpIV : Iv) : RecipeEntry × Pass :=
  let chunkSize := tmprecipe.length.toNat
  let saveOffset := p.hotContainer.body.length
  let p := if chunkSize + saveOffset + sizeofRecipeEntry + 4 * CHUNK_HASH_SIZE + CRYPTO_BLOCK_SIZE <
      MAX_CONTAINER_SIZE then p
    else
      let p := p.savehotContainer
      { p with
        server := { p.server with created := p.server.created + 1 }
        hotContainer := ⟨containerName p.server.created, []⟩ }
  let hot := p.hotContainer
  let tmprecipe := { tmprecipe with
    offset := UInt32.ofNat hot.body.length
    deltaFlag := DELTA
    containerName := hot.containerID }
  let record : Record := ⟨tmprecipe, tmpfp, tmpsf, tmpchunkcontent, tmpIV⟩
  (tmprecipe, { p with hotContainer := { hot with body := hot.body ++ record.toBytes } })

end Pass

/-! ## Copying records -/

/-- The state of a loop that copies records: how far it has read, what it has
written, and the index. -/
structure Moving where
  saveset : Nat
  out : Bytes
  db : InMemoryDatabase

/-- The record at `saveset` is copied with its entry changed, and the index
follows it. -/
def moveRecord (env : Env) (change : RecipeEntry → RecipeEntry) (container : Bytes) (m : Moving) :
    Moving :=
  let tmpRecipe := change (RecipeEntry.ofBytes (container.drop m.saveset))
  let tmpHash : Fp := BytesN.ofBytes 32 (container.drop (m.saveset + sizeofRecipeEntry))
  let size := tmpRecipe.length.toNat + 4 * CHUNK_HASH_SIZE + CRYPTO_BLOCK_SIZE
  { saveset := m.saveset + sizeofRecipeEntry + size
    out := m.out ++ (tmpRecipe.toBytes ++
      slice (memOf container) (m.saveset + sizeofRecipeEntry) size)
    db := m.db.insertBothBuffer tmpHash (env.encEntry tmpRecipe) }

/-- `while (saveset < limit)`. -/
def moveUpTo (env : Env) (change : RecipeEntry → RecipeEntry) (container : Bytes) (limit : Nat)
    (m : Moving) : Moving :=
  whileLoop (fun m => decide (m.saveset < limit)) (moveRecord env change container) limit m

namespace OFFLineBackward

variable (env : Env)

/-! ## Re-basing -/

/-- `Ocall_OneRecipe`, and the entry decrypted. -/
def oneRecipe (p : Pass) (chunkHash : Fp) : RecipeEntry × Pass :=
  let chunkAddr := (p.server.db.queryBuffer chunkHash).getD p.chunkAddr
  (env.decEntry chunkAddr, { p with chunkAddr := chunkAddr })

/-- `ed3_encode_buffer`. -/
def ed3EncodeBuffer (p : Pass) (new base : Bytes) : Bytes × Pass :=
  let (delta, table) := Edelta.OFFLineBackward.eDeltaEncode env.heuristics p.psHTable
    ⟨memOf new, new.length, memOf base, base.length⟩
  (delta, { p with psHTable := table })

/-- `_offlineCurrBackup_size -= old; _offlineCurrBackup_size += new`. -/
def resize (p : Pass) (old new : Nat) : Pass :=
  { p with offlineCurrBackupSize :=
      p.offlineCurrBackupSize - UInt64.ofNat old + UInt64.ofNat new }

/-- `GetNew_deltachunk`: `none` is a `delta_flag` of false. -/
def getNewDeltachunk (p : Pass) (oldDeltachunk oldBasechunk newBasechunk : Bytes) :
    Option Bytes × Pass :=
  let oldUniqueChunk := ed3Decode oldDeltachunk oldBasechunk
  let (newDeltaChunk, p) := ed3EncodeBuffer env p oldUniqueChunk newBasechunk
  if oldUniqueChunk.length < newDeltaChunk.length then (none, p)
  else (some newDeltaChunk, resize p oldDeltachunk.length newDeltaChunk.length)

/-- A chunk becomes a delta chunk of `newBase` in the hot container, and its
old place is left to the compaction. -/
def moveToHot (p : Pass) (chunkHash newBase : Fp) (recipe : RecipeEntry) (delta : Bytes) (fp : Fp)
    (sf : Sf) (iv : Iv) : Pass :=
  let (moved, p) := p.insertHotContainer (env.encryptWithKeyIV delta iv)
    { recipe with length := UInt32.ofNat delta.length, basechunkHash := newBase } fp sf iv
  p.mapDb fun db => ((db.insertBothBuffer chunkHash (env.encEntry moved)).insertDeltaIndex
    newBase chunkHash).coldInsert recipe.containerName recipe.offset.toNat
      (recipe.length.toNat + recordOverhead)

/-- One delta chunk of the old base; the flag says that none was left behind. -/
def rebaseDelta (oldChunk newChunk : Bytes) (newBase : Fp) (st : Bool × Pass) (deltaHash : Fp) :
    Bool × Pass :=
  let (recipe, p) := oneRecipe env st.2 deltaHash
  let p := (p.askFor recipe.containerName).oneDeltaContainer recipe.containerName
  let container := p.server.tmpOcallcontainer
  let iv := getChunkIV container recipe
  let delta := env.decryptionWithKeyIV (getChunkContent container recipe) iv
  match getNewDeltachunk env p delta oldChunk newChunk with
  | (none, p) => (false, p)
  | (some newDelta, p) =>
      (st.1, moveToHot env p deltaHash newBase recipe newDelta (getChunkFP container recipe)
        (getChunkSF container recipe) iv)

/-- The old base itself, once its delta chunks are done. -/
def convertBase (oldChunk newChunk : Bytes) (pair : Fp × Fp) (oldRecipe : RecipeEntry) (oldIV : Iv)
    (st : Bool × Pass) : Pass :=
  let (delta, p) := ed3EncodeBuffer env st.2 oldChunk newChunk
  if oldChunk.length < delta.length then p
  else
    let p := resize p oldRecipe.length.toNat delta.length
    if st.1 then
      moveToHot env p pair.1 pair.2 oldRecipe delta pair.1 oldRecipe.superfeature oldIV
    else p

/-- A pair is not worked on any more: only the indexes change. -/
def greedyPair (p : Pass) (pair : Fp × Fp) : Pass :=
  let (oldRecipe, p) := oneRecipe env p pair.1
  let p := p.mapDb fun db => db.insertSF oldRecipe.superfeature pair.1 .remove
  let (newRecipe, p) := oneRecipe env p pair.2
  let p := p.mapDb fun db => db.insertSF newRecipe.superfeature pair.2 .replace
  (p.queryDeltaIndex pair.1).2

/-- The delta chunks of the old base, then the old base; `oldContainer` and
`newContainer` are `tmpOldContainer` and `tmpNewContainer`. -/
def rebase (p : Pass) (pair : Fp × Fp) (oldRecipe newRecipe : RecipeEntry)
    (oldContainer newContainer : Bytes) : Pass :=
  let oldIV := getChunkIV oldContainer oldRecipe
  let newIV := getChunkIV newContainer newRecipe
  let oldChunk := env.unpackOffline
    (env.decryptionWithKeyIV (getChunkContent oldContainer oldRecipe) oldIV)
  let newChunk := env.unpackOffline
    (env.decryptionWithKeyIV (getChunkContent newContainer newRecipe) newIV)
  let (deltas, p) := p.queryDeltaIndex pair.1
  convertBase env oldChunk newChunk pair oldRecipe oldIV
    (deltas.foldl (rebaseDelta env oldChunk newChunk pair.2) (true, p))

/-- One round of the loop over `local_basemap`. -/
def updatePair (p : Pass) (pair : Fp × Fp) : Pass :=
  -- `GREEDY_THRESHOLD` is 0, and so is `GreeyOfflineSize`
  if p.offlineCurrBackupSize ≤ 0 then greedyPair env p pair
  else
    let (oldRecipe, p) := oneRecipe env p pair.1
    let p := p.askFor oldRecipe.containerName
    match p.oneContainer oldRecipe.containerName with
    | none => p
    | some p =>
        let oldContainer := p.server.tmpOcallcontainer
        let p := p.mapDb fun db => db.insertSF oldRecipe.superfeature pair.1 .remove
        let (newRecipe, p) := oneRecipe env p pair.2
        let p := p.askFor newRecipe.containerName
        match p.oneContainer newRecipe.containerName with
        | none => p
        | some p =>
            let p' := p.mapDb fun db => db.insertSF newRecipe.superfeature pair.2 .replace
            rebase env p' pair oldRecipe newRecipe oldContainer p.server.tmpOcallcontainer

/-- The pairs of one batch, in the order of the map they are put into. -/
def updateBatch (p : Pass) (batch : List (Fp × Fp)) : Pass :=
  let localBasemap : UMap Fp Fp := batch.foldl (fun m q => m.insert q.1 q.2) ∅
  (env.walkOrder.walk (pairs localBasemap)).foldl (updatePair env) p

/-- The loop over the batches. The source fetches the next batch before it
works on the last one; the pairs do not touch `_local_map`. -/
def updateLocal : (fuel : Nat) → Pass → Pass
  | 0, p => p
  | fuel + 1, p =>
      match p.server.db.getLocal with
      | ([], _) => p
      | (q :: batch, db) => updateLocal fuel (updateBatch env (p.mapDb fun _ => db) (q :: batch))

/-! ## Compaction -/

/-- The records before a range that is cold, then the range is skipped. -/
def skipCold (container : Bytes) (st : Nat × Moving) (range : Nat × Nat) : Nat × Moving :=
  let m := moveUpTo env (fun e => { e with offset := e.offset - UInt32.ofNat st.1 }) container
    range.1 st.2
  (st.1 + range.2, { m with saveset := m.saveset + range.2 })

/-- `Update_cold_container`. -/
def updateColdContainer (p : Pass) (containerId : ContainerName) (coldBasechunk : List (Nat × Nat)) :
    Pass :=
  let (dir, p) := (p.askFor containerId).oneColdContainer containerId
  let container := p.server.tmpOcallcontainer
  let sorted := coldBasechunk.insertionSort fun a b => a.1 ≤ b.1
  let (coldset, m) := sorted.foldl (skipCold env container) (0, ⟨0, [], p.server.db⟩)
  let m := moveUpTo env (fun e => { e with offset := e.offset - UInt32.ofNat coldset }) container
    p.containersize m
  let buffer := writeAt p.mergeNewContainer 0 m.out
  let server := p.server.saveToFile dir containerId
    (slice (memOf buffer) 0 (p.containersize - coldset))
  { p with server := { server with db := m.db }, mergeNewContainer := buffer }

/-- The loop over the cold containers. -/
def updateCold : (fuel : Nat) → Pass → Pass
  | 0, p => p
  | fuel + 1, p =>
      match p.server.db.getCold with
      | (none, _) => p
      | (some (containerId, ranges), db) =>
          updateCold fuel (updateColdContainer env (p.mapDb fun _ => db) containerId ranges)

/-! ## Merging -/

/-- The neighbours that fit into one container (`Ocall_GetMergeContainer`). -/
def getMergePairs (size : ContainerName → Nat) : List ContainerName → List (ContainerName × ContainerName)
  | first :: second :: rest =>
      if size first + size second < MAX_CONTAINER_SIZE - 1 then
        (first, second) :: getMergePairs size rest
      else getMergePairs size (second :: rest)
  | _ => []

/-- A base container, empty where there is none. -/
def baseFile (s : Server) (name : ContainerName) : Bytes := ((s.containers .base).lookup name).getD []

/-- `Ocall_GetMergePair`, the loop over the second container, and
`Ocall_MergeContent`. -/
def mergePair (p : Pass) (pair : ContainerName × ContainerName) : Pass :=
  let first := baseFile p.server pair.1
  let second := baseFile p.server pair.2
  let container := writeAt p.mergeContainer 0 second
  let m := moveUpTo env
    (fun e => { e with offset := e.offset + UInt32.ofNat first.length, containerName := pair.1 })
    container second.length ⟨0, [], p.server.db⟩
  let buffer := writeAt p.mergeNewContainer 0 m.out
  let server := p.server.saveToFile .base pair.1 (first ++ slice (memOf buffer) 0 second.length)
  { p with
    server := { server with
      db := m.db
      containers := fun d => match d with
        | .base => (server.containers .base).erase pair.2
        | .delta => server.containers .delta }
    containersize := second.length
    mergeNewContainer := buffer
    mergeContainer := container }

/-- `MergeContainer`. -/
def mergeContainer (p : Pass) : Pass :=
  let names := (p.server.containers .base).keys.insertionSort fun a b =>
    InMemoryDatabase.nameLe a b = true
  (getMergePairs (fun n => (baseFile p.server n).length) names).foldl (mergePair env) p

/-- `Easy_update`. -/
def easyUpdate (p : Pass) : Pass :=
  let p := updateLocal env (p.server.db.localMap.length + 1) p
  let p := if p.hotContainer.body.length ≠ 0 then p.savehotContainer else p
  let p := p.mapDb InMemoryDatabase.coldrevise
  let p := updateCold env p.server.db.coldContainerVector.length p
  mergeContainer env p

end OFFLineBackward

/-- `EcallFreqIndex::ProcessOffline`, with the `Init` of the hot container. -/
def EcallFreqIndex.processOffline (env : Env) (s : Server) (m : PassResidue) : Server :=
  let p : Pass :=
    { server := { s with created := s.created + 1 }
      hotContainer := ⟨containerName s.created, []⟩
      psHTable := .init 16384
      offlineCurrBackupSize := s.onlineBackupSize
      chunkAddr := m.chunkAddr
      containersize := m.containersize
      mergeNewContainer := m.mergeNewContainer
      mergeContainer := m.mergeContainer }
  if env.offlineFlag then (OFFLineBackward.easyUpdate env p).server
  else { p.server with db := p.server.db.cleanLocalIndex }

/-- `EnclaveIndex::ProcessOff`. -/
def processOff (env : Env) (s : Server) (m : PassResidue) : Server :=
  EcallFreqIndex.processOffline env { s with db := s.db.localrevise env.walkOrder } m

end ShieldReduce
