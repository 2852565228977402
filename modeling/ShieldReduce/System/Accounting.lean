import ShieldReduce.System.Encryptions

/-!
# Counting chunks

The statistics of the enclave on stored chunks: how many base chunks and
delta chunks there are, and how many bytes they have. An upload counts in
the members of `EnclaveBase`, an offline pass in those of
`OFFLineBackward`. `ProcessOffline` copies the former to the latter, and
`Ecall_UpdateOnlineInfo` copies them back at the end of every session.
Nothing depends on the statistics, so they are kept beside the server:
each definition here says what a function of the source adds to them.
-/

namespace ShieldReduce

open ByteLib UMapLib LoopLib

/-- `_baseChunkNum`, `_baseDataSize`, `_deltaChunkNum` and `_deltaDataSize`;
the first is a `long long`. -/
structure ChunkCounts where
  baseChunkNum : Int
  baseDataSize : UInt64
  deltaChunkNum : UInt64
  deltaDataSize : UInt64
deriving DecidableEq

namespace ChunkCounts

def zero : ChunkCounts := ⟨0, 0, 0, 0⟩

def addBase (c : ChunkCounts) (length : Nat) : ChunkCounts :=
  { c with
    baseChunkNum := c.baseChunkNum + 1
    baseDataSize := c.baseDataSize + UInt64.ofNat length }

def addDelta (c : ChunkCounts) (length : Nat) : ChunkCounts :=
  { c with
    deltaChunkNum := c.deltaChunkNum + 1
    deltaDataSize := c.deltaDataSize + UInt64.ofNat length }

/-- A delta chunk gets a new delta (`GetNew_deltachunk`). -/
def resizeDelta (c : ChunkCounts) (old new : Nat) : ChunkCounts :=
  { c with deltaDataSize := c.deltaDataSize - UInt64.ofNat old + UInt64.ofNat new }

/-- A base chunk is counted as a delta chunk from now on (`Easy_update`). -/
def convert (c : ChunkCounts) (old new : Nat) : ChunkCounts where
  deltaChunkNum := c.deltaChunkNum + 1
  baseChunkNum := c.baseChunkNum - 1
  deltaDataSize := c.deltaDataSize + UInt64.ofNat new
  baseDataSize := c.baseDataSize - UInt64.ofNat old

end ChunkCounts

/-- The statistics of `EnclaveBase` and of its `OFFLineBackward`. -/
structure EnclaveInfo where
  online : ChunkCounts
  uniqueChunkNum : UInt64
  offline : ChunkCounts
deriving DecidableEq

namespace EnclaveInfo

/-- A new server. -/
def zero : EnclaveInfo := ⟨.zero, 0, .zero⟩

/-- `Ecall_UpdateOnlineInfo`. -/
def updateOnlineInfo (i : EnclaveInfo) : EnclaveInfo := { i with online := i.offline }

end EnclaveInfo

/-! ## Uploads -/

namespace EcallFreqIndex

variable (env : Env)

/-- The statistics of an entry that the store loop is done with. -/
def countEntry (i : EnclaveInfo) (e : InQueryEntry) : EnclaveInfo :=
  match e.out with
  | some o =>
      if o.dedupFlag = .duplicate then i
      else
        { i with
          online :=
            if e.chunkAddr.deltaFlag = DELTA then i.online.addDelta e.chunkAddr.length.toNat
            else if e.chunkAddr.deltaFlag = NO_DELTA then i.online.addBase e.chunkAddr.length.toNat
            else i.online
          uniqueChunkNum := i.uniqueChunkNum + 1 }
  | none => i

/-- The statistics after a batch. -/
def batchInfo (s : Session) (data : Bytes) (chunkNum : Nat) (stale : Nat → RecipeEntry)
    (i : EnclaveInfo) : EnclaveInfo :=
  let recvBuffer := env.sessionKeyDec s.client.sessionKey data
  let (server, entries) := queryBatch env s.server recvBuffer chunkNum stale
  let localFlag := localChecker env entries
  (entries.foldl (storeEntry env recvBuffer localFlag)
    ⟨{ s with server := server }, [], [], []⟩).entries.foldl countEntry i

end EcallFreqIndex

/-- The statistics after a message of the client. -/
def Session.receiveInfo (env : Env) (s : Session) : Message → EnclaveInfo → EnclaveInfo
  | .chunk data currentItemNum stale => EcallFreqIndex.batchInfo env s data currentItemNum stale
  | .recipeEnd _ => id

/-- The statistics after a complete upload. -/
def Upload.info (env : Env) (s : Server) (u : Upload) (i : EnclaveInfo) : EnclaveInfo :=
  (visits (Session.receive env) (Session.start s u.login) (u.messages env true)).foldl
    (fun i v => v.1.receiveInfo env v.2 i) i

/-! ## Offline passes -/

namespace OFFLineBackward

variable (env : Env)

/-- The arguments with which a pair gets to the re-encoding. -/
structure RebaseCall where
  pass : Pass
  oldRecipe : RecipeEntry
  newRecipe : RecipeEntry
  oldContainer : Bytes
  newContainer : Bytes

/-- The call of `rebase` in `updatePair`, unless the pair is skipped. -/
def rebaseCall (p : Pass) (pair : Fp × Fp) : Option RebaseCall :=
  if p.offlineCurrBackupSize ≤ 0 then none
  else
    let (oldRecipe, p) := oneRecipe env p pair.1
    let p := p.askFor oldRecipe.containerName
    match p.oneContainer oldRecipe.containerName with
    | none => none
    | some p =>
        let oldContainer := p.server.tmpOcallcontainer
        let p := p.mapDb fun db => db.insertSF oldRecipe.superfeature pair.1 .remove
        let (newRecipe, p) := oneRecipe env p pair.2
        let p := p.askFor newRecipe.containerName
        match p.oneContainer newRecipe.containerName with
        | none => none
        | some p => some
            { pass := p.mapDb fun db => db.insertSF newRecipe.superfeature pair.2 .replace
              oldRecipe := oldRecipe
              newRecipe := newRecipe
              oldContainer := oldContainer
              newContainer := p.server.tmpOcallcontainer }

theorem updatePair_of_call {p : Pass} {pair : Fp × Fp} {k : RebaseCall}
    (h : rebaseCall env p pair = some k) : updatePair env p pair =
      rebase env k.pass pair k.oldRecipe k.newRecipe k.oldContainer k.newContainer := by
  unfold rebaseCall at h
  unfold updatePair
  split
  · rename_i hgreedy
    rw [if_pos hgreedy] at h
    cases h
  · rename_i hgreedy
    rw [if_neg hgreedy] at h
    dsimp only at h ⊢
    split
    · rename_i hnone
      rw [hnone] at h
      cases h
    · rename_i p₁ hp₁
      rw [hp₁] at h
      dsimp only at h
      split
      · rename_i hnone
        rw [hnone] at h
        cases h
      · rename_i p₂ hp₂
        rw [hp₂] at h
        obtain rfl := Option.some.inj h
        rfl

/-- The statistics of one delta chunk of the old base. -/
def rebaseDeltaInfo (oldChunk newChunk : Bytes) (v : (Bool × Pass) × Fp) (c : ChunkCounts) :
    ChunkCounts :=
  let (recipe, p) := oneRecipe env v.1.2 v.2
  let p := (p.askFor recipe.containerName).oneDeltaContainer recipe.containerName
  let container := p.server.tmpOcallcontainer
  let iv := getChunkIV container recipe
  let delta := env.decryptionWithKeyIV (getChunkContent container recipe) iv
  match (getNewDeltachunk env p delta oldChunk newChunk).1 with
  | none => c
  | some newDelta => c.resizeDelta recipe.length.toNat newDelta.length

/-- The statistics of the old base, which do not ask for `delta_flag`. -/
def convertBaseInfo (oldChunk newChunk : Bytes) (oldRecipe : RecipeEntry) (st : Bool × Pass)
    (c : ChunkCounts) : ChunkCounts :=
  let delta := (ed3EncodeBuffer env st.2 oldChunk newChunk).1
  if oldChunk.length < delta.length then c
  else c.convert oldRecipe.length.toNat delta.length

namespace RebaseCall

def oldChunk (k : RebaseCall) : Bytes :=
  env.unpackOffline (env.decryptionWithKeyIV (getChunkContent k.oldContainer k.oldRecipe)
    (getChunkIV k.oldContainer k.oldRecipe))

def newChunk (k : RebaseCall) : Bytes :=
  env.unpackOffline (env.decryptionWithKeyIV (getChunkContent k.newContainer k.newRecipe)
    (getChunkIV k.newContainer k.newRecipe))

/-- The delta chunks of the old base, and the pass behind the question for them. -/
def asked (k : RebaseCall) (pair : Fp × Fp) : List Fp × Pass := k.pass.queryDeltaIndex pair.1

/-- After the delta chunks: `delta_flag`, and the pass. -/
def afterDeltas (k : RebaseCall) (pair : Fp × Fp) : Bool × Pass :=
  (k.asked pair).1.foldl (rebaseDelta env (k.oldChunk env) (k.newChunk env) pair.2)
    (true, (k.asked pair).2)

/-- The statistics of `rebase`. -/
def info (k : RebaseCall) (pair : Fp × Fp) (c : ChunkCounts) : ChunkCounts :=
  convertBaseInfo env (k.oldChunk env) (k.newChunk env) k.oldRecipe (k.afterDeltas env pair)
    ((visits (rebaseDelta env (k.oldChunk env) (k.newChunk env) pair.2) (true, (k.asked pair).2)
      (k.asked pair).1).foldl (fun c v => rebaseDeltaInfo env (k.oldChunk env) (k.newChunk env) v c) c)

theorem rebase_eq (k : RebaseCall) (pair : Fp × Fp) :
    rebase env k.pass pair k.oldRecipe k.newRecipe k.oldContainer k.newContainer =
      convertBase env (k.oldChunk env) (k.newChunk env) pair k.oldRecipe
        (getChunkIV k.oldContainer k.oldRecipe) (k.afterDeltas env pair) := rfl

end RebaseCall

/-- The statistics of one round of the loop over `local_basemap`. -/
def updatePairInfo (p : Pass) (pair : Fp × Fp) (c : ChunkCounts) : ChunkCounts :=
  match rebaseCall env p pair with
  | some k => k.info env pair c
  | none => c

/-- The pairs of a batch, each with the pass as it finds it. -/
def updateBatchVisits (p : Pass) (batch : List (Fp × Fp)) : List (Pass × (Fp × Fp)) :=
  let localBasemap : UMap Fp Fp := batch.foldl (fun m q => m.insert q.1 q.2) ∅
  visits (updatePair env) p (env.walkOrder.walk (pairs localBasemap))

/-- The pairs of `updateLocal`. -/
def updateLocalVisits : (fuel : Nat) → Pass → List (Pass × (Fp × Fp))
  | 0, _ => []
  | fuel + 1, p =>
      match p.server.db.getLocal with
      | ([], _) => []
      | (q :: batch, db) =>
          let p := p.mapDb fun _ => db
          updateBatchVisits env p (q :: batch) ++
            updateLocalVisits fuel (updateBatch env p (q :: batch))

end OFFLineBackward

/-- The pairs of `ProcessOff`. -/
def processOffVisits (env : Env) (s : Server) (m : PassResidue) : List (Pass × (Fp × Fp)) :=
  let p := Pass.start { s with db := s.db.localrevise env.walkOrder } m
  if env.offlineFlag then
    OFFLineBackward.updateLocalVisits env (p.server.db.localMap.length + 1) p
  else []

/-- The statistics after `ProcessOff`. -/
def processOffInfo (env : Env) (s : Server) (m : PassResidue) (i : EnclaveInfo) : EnclaveInfo :=
  { i with
    offline := (processOffVisits env s m).foldl
      (fun c v => OFFLineBackward.updatePairInfo env v.1 v.2 c) i.online }

/-! ## Sessions -/

namespace Server

variable (env : Env)

def serveInfo (s : Server) (i : EnclaveInfo) : Event → EnclaveInfo
  | .upload u => (u.info env s i).updateOnlineInfo
  | .offline u m =>
      (processOffInfo env (s.receiveUpload env u true) m (u.info env s i)).updateOnlineInfo

/-- The statistics after the sessions of a run. -/
def runInfo (s : Server) (es : List Event) (i : EnclaveInfo) : EnclaveInfo :=
  (LoopLib.visits (serve env) s es).foldl (fun i v => v.1.serveInfo env i v.2) i

end Server

end ShieldReduce
