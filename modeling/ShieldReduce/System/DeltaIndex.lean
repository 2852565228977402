import ShieldReduce.Lib.Drawers
import ShieldReduce.System.Accounting

/-!
# Accesses to the index of delta chunks

`InsertDeltaIndex` pushes a delta chunk to the list of its base, and
`QueryDeltaIndex` takes the whole list away. An upload inserts the pairs
of `_process_buffer` at the end of each batch. A pass asks for the delta
chunks of each old base and inserts what it moves for the new one.
-/

namespace ShieldReduce

open ByteLib UMapLib LoopLib DrawerLib

abbrev DeltaAccess := Access Fp Fp

/-- The list of delta chunks of each base. -/
def InMemoryDatabase.deltas (db : InMemoryDatabase) : Drawers Fp Fp := getList db.deltaIndex

/-! ## Uploads -/

/-- `Ocall_UpdateDeltaIndex`, at the end of a batch that is not left to a pass. -/
def EcallFreqIndex.batchAccesses (env : Env) (s : Session) (data : Bytes) (chunkNum : Nat)
    (stale : Nat → RecipeEntry) : List DeltaAccess :=
  let recvBuffer := env.sessionKeyDec s.client.sessionKey data
  let (server, entries) := queryBatch env s.server recvBuffer chunkNum stale
  let localFlag := localChecker env entries
  let st := entries.foldl (storeEntry env recvBuffer localFlag) ⟨{ s with server := server }, [], [], []⟩
  if localFlag then [] else st.processBuffer.map fun p => .push p.1 p.2

/-- The accesses for a message of the client. -/
def Session.accesses (env : Env) (s : Session) : Message → List DeltaAccess
  | .chunk data currentItemNum stale =>
      EcallFreqIndex.batchAccesses env s data currentItemNum stale
  | .recipeEnd _ => []

/-- The accesses of a complete upload. -/
def Upload.accesses (env : Env) (s : Server) (u : Upload) : List DeltaAccess :=
  (visits (Session.receive env) (Session.start s u.login) (u.messages env true)).flatMap
    fun v => v.1.accesses env v.2

/-! ## Offline passes -/

namespace OFFLineBackward

variable (env : Env)

/-- The insertion for a delta chunk of the old base, unless it stays behind. -/
def rebaseDeltaAccesses (oldChunk newChunk : Bytes) (newBase : Fp) (v : (Bool × Pass) × Fp) :
    List DeltaAccess :=
  let (recipe, p) := oneRecipe env v.1.2 v.2
  let p := (p.askFor recipe.containerName).oneDeltaContainer recipe.containerName
  let container := p.server.tmpOcallcontainer
  let iv := getChunkIV container recipe
  let delta := env.decryptionWithKeyIV (getChunkContent container recipe) iv
  match (getNewDeltachunk env p delta oldChunk newChunk).1 with
  | none => []
  | some _ => [.push newBase v.2]

/-- The insertion for the old base, if it becomes a delta chunk. -/
def convertBaseAccesses (oldChunk newChunk : Bytes) (pair : Fp × Fp) (st : Bool × Pass) :
    List DeltaAccess :=
  let delta := (ed3EncodeBuffer env st.2 oldChunk newChunk).1
  if oldChunk.length < delta.length then [] else if st.1 then [.push pair.2 pair.1] else []

/-- The accesses of `rebase`. -/
def RebaseCall.accesses (k : RebaseCall) (pair : Fp × Fp) : List DeltaAccess :=
  .take pair.1 ::
    ((visits (rebaseDelta env (k.oldChunk env) (k.newChunk env) pair.2) (true, (k.asked pair).2)
        (k.asked pair).1).flatMap
      (rebaseDeltaAccesses env (k.oldChunk env) (k.newChunk env) pair.2) ++
    convertBaseAccesses env (k.oldChunk env) (k.newChunk env) pair (k.afterDeltas env pair))

/-- The accesses of one round of the loop over `local_basemap`. -/
def pairAccesses (v : Pass × (Fp × Fp)) : List DeltaAccess :=
  if v.1.offlineCurrBackupSize ≤ 0 then [.take v.2.1]
  else match rebaseCall env v.1 v.2 with
    | some k => k.accesses env v.2
    | none => []

end OFFLineBackward

/-- The accesses of `ProcessOff`. -/
def processOffAccesses (env : Env) (s : Server) (m : PassResidue) : List DeltaAccess :=
  (processOffVisits env s m).flatMap (OFFLineBackward.pairAccesses env)

/-- The accesses of a session. -/
def Server.accesses (env : Env) (s : Server) : Event → List DeltaAccess
  | .upload u => u.accesses env s
  | .offline u m => u.accesses env s ++ processOffAccesses env (s.receiveUpload env u true) m

end ShieldReduce
