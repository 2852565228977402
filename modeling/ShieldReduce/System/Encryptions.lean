import ShieldReduce.System.Calls

/-!
# Encryptions under the enclave's key

All calls of `EncryptWithKeyIV` with `enclaveKey_`: one for each chunk
that is stored, under an IV that `PickNewIV` gives for it, and one for
each chunk that an offline pass turns into a delta chunk, under the IV
that stands behind the chunk in its container.
-/

namespace ShieldReduce

open ByteLib UMapLib LoopLib

structure Encryption where
  plain : Bytes
  iv : Iv
deriving DecidableEq

namespace OFFLineBackward

variable (env : Env)

/-- The encryption of `rebaseDelta`, unless the delta chunk stays. -/
def rebaseDeltaEncryption (oldChunk newChunk : Bytes) (st : Bool × Pass) (deltaHash : Fp) :
    Option Encryption :=
  let read := oneRecipe env st.2 deltaHash
  let p := (read.2.askFor read.1.containerName).oneDeltaContainer read.1.containerName
  let container := p.server.tmpOcallcontainer
  let iv := getChunkIV container read.1
  let delta := env.decryptionWithKeyIV (getChunkContent container read.1) iv
  (getNewDeltachunk env p delta oldChunk newChunk).1.map fun newDelta => ⟨newDelta, iv⟩

/-- The encryption of `convertBase`, unless the old base stays. -/
def convertBaseEncryption (oldChunk newChunk : Bytes) (oldIV : Iv) (st : Bool × Pass) :
    Option Encryption :=
  let delta := (ed3EncodeBuffer env st.2 oldChunk newChunk).1
  if oldChunk.length < delta.length then none else if st.1 then some ⟨delta, oldIV⟩ else none

/-- The encryptions of `rebase`. -/
def rebaseEncryptions (p : Pass) (pair : Fp × Fp) (oldRecipe newRecipe : RecipeEntry)
    (oldContainer newContainer : Bytes) : List Encryption :=
  let oldIV := getChunkIV oldContainer oldRecipe
  let newIV := getChunkIV newContainer newRecipe
  let oldChunk := env.unpackOffline
    (env.decryptionWithKeyIV (getChunkContent oldContainer oldRecipe) oldIV)
  let newChunk := env.unpackOffline
    (env.decryptionWithKeyIV (getChunkContent newContainer newRecipe) newIV)
  let asked := p.queryDeltaIndex pair.1
  (outputs (rebaseDelta env oldChunk newChunk pair.2) (rebaseDeltaEncryption env oldChunk newChunk)
      (true, asked.2) asked.1).reduceOption ++
    (convertBaseEncryption env oldChunk newChunk oldIV
      (asked.1.foldl (rebaseDelta env oldChunk newChunk pair.2) (true, asked.2))).toList

/-- The encryptions of `updatePair`. -/
def updatePairEncryptions (p : Pass) (pair : Fp × Fp) : List Encryption :=
  if p.offlineCurrBackupSize ≤ 0 then []
  else
    let (oldRecipe, p) := oneRecipe env p pair.1
    let p := p.askFor oldRecipe.containerName
    match p.oneContainer oldRecipe.containerName with
    | none => []
    | some p =>
        let oldContainer := p.server.tmpOcallcontainer
        let p := p.mapDb fun db => db.insertSF oldRecipe.superfeature pair.1 .remove
        let (newRecipe, p) := oneRecipe env p pair.2
        let p := p.askFor newRecipe.containerName
        match p.oneContainer newRecipe.containerName with
        | none => []
        | some p =>
            let p' := p.mapDb fun db => db.insertSF newRecipe.superfeature pair.2 .replace
            rebaseEncryptions env p' pair oldRecipe newRecipe oldContainer
              p.server.tmpOcallcontainer

/-- The encryptions of `updateBatch`. -/
def updateBatchEncryptions (p : Pass) (batch : List (Fp × Fp)) : List Encryption :=
  let localBasemap : UMap Fp Fp := batch.foldl (fun m q => m.insert q.1 q.2) ∅
  (outputs (updatePair env) (updatePairEncryptions env) p
    (env.walkOrder.walk (pairs localBasemap))).flatten

/-- The encryptions of `updateLocal`. -/
def updateLocalEncryptions : (fuel : Nat) → Pass → List Encryption
  | 0, _ => []
  | fuel + 1, p =>
      match p.server.db.getLocal with
      | ([], _) => []
      | (q :: batch, db) =>
          let p := p.mapDb fun _ => db
          updateBatchEncryptions env p (q :: batch) ++
            updateLocalEncryptions fuel (updateBatch env p (q :: batch))

end OFFLineBackward

/-- The pass as `EcallFreqIndex::ProcessOffline` begins it. -/
def Pass.start (s : Server) (m : PassResidue) : Pass where
  server := { s with created := s.created + 1 }
  hotContainer := ⟨containerName s.created, []⟩
  psHTable := .init 16384
  offlineCurrBackupSize := s.onlineBackupSize
  chunkAddr := m.chunkAddr
  containersize := m.containersize
  mergeNewContainer := m.mergeNewContainer
  mergeContainer := m.mergeContainer

/-- The encryptions of `ProcessOff`. The compaction and the merging encrypt no
chunk. -/
def processOffEncryptions (env : Env) (s : Server) (m : PassResidue) : List Encryption :=
  let p := Pass.start { s with db := s.db.localrevise env.walkOrder } m
  if env.offlineFlag then
    OFFLineBackward.updateLocalEncryptions env (p.server.db.localMap.length + 1) p
  else []

namespace Server

variable (env : Env)

/-- The calls of `ProcessSheUniqueChunk` in a session. Each draws an IV. -/
def stored (s : Server) : Event → List SheCall
  | .upload u => (u.calls env s true).reduceOption
  | .offline u _ => (u.calls env s true).reduceOption

/-- The encryptions of an offline pass, if the session has one. -/
def reEncrypted (s : Server) : Event → List Encryption
  | .upload _ => []
  | .offline u m => processOffEncryptions env (s.receiveUpload env u true) m

/-- The IVs that `PickNewIV` gives in a run. -/
def drawnIVs (s : Server) (es : List Event) : List Iv :=
  (outputs (serve env) (fun s e => (s.stored env e).map SheCall.iv) s es).flatten

/-- The encryptions of a run. -/
def encryptions (s : Server) (es : List Event) : List Encryption :=
  (outputs (serve env) (fun s e =>
    (s.stored env e).map (fun c => ⟨c.data env, c.iv⟩) ++ s.reEncrypted env e) s es).flatten

end Server

end ShieldReduce
