import ShieldReduce.System.Upload

/-!
# Restores

`EnclaveRecvDecoder::Run`: the recipe is read in groups of fingerprints.
`ProcRecipeBatch` looks the entries up and collects them, together with
the bases of the delta chunks among them, until enough containers are
asked for; then the containers are fetched and the collected chunks are
written out. `ProcRecipeTailBatch` does the rest. The collected entries
outlive a call, `tmpContainerMap` does not.

`none` is a server that exits because a container is missing.
-/

namespace ShieldReduce

open ByteLib UMapLib

/-- `CONTAINER_CAPPING_VALUE`. -/
def containerCappingValue : Nat := 16

/-- The pending base queries at most. -/
def baseQueryMax : Nat := 5

/-- `EnclaveRecipeEntry_t`: `containerID` is a slot of the container array. -/
structure EnclaveRecipeEntry where
  containerID : Nat
  chunkAddr : RecipeEntry

/-- A message to the client; `final` is `SERVER_RESTORE_FINAL`. -/
structure RestoreMessage where
  final : Bool
  data : Bytes
  currentItemNum : Nat

/-- The variables of a restore, inside the enclave and outside. -/
structure Restore where
  /-- The names in `idBuffer`, `idNum` of them. -/
  idBuffer : List ContainerName
  tmpContainerMap : UMap ContainerName Nat
  containerArray : Nat → Bytes
  containerCache : UMap ContainerName Bytes
  /-- The bases that are not looked up yet, `queryNum` of them. -/
  baseQuery : List Fp
  /-- `chunkAddr` of the query entries for bases. -/
  baseAddr : Nat → Cipher
  enclaveRecipeBuffer : List EnclaveRecipeEntry
  baseRecipeBuffer : List EnclaveRecipeEntry
  /-- `_restoreChunkBuffer`, up to `dataSize`. -/
  restoreChunkBuf : Bytes
  currentItemNum : Nat
  sent : List RestoreMessage

/-- Who restores, and what. `evict` is what the restore cache forgets when it
is full, and the two memories are what its buffers hold at the start. -/
structure RestoreLogin where
  recipePath : Fp
  sessionKey : Key
  masterKey : Key
  evict : UMap ContainerName Bytes → UMap ContainerName Bytes
  containerArray : Nat → Bytes
  baseAddr : Nat → Cipher

namespace Restore

def start (l : RestoreLogin) : Restore where
  idBuffer := []
  tmpContainerMap := ∅
  containerArray := l.containerArray
  containerCache := ∅
  baseQuery := []
  baseAddr := l.baseAddr
  enclaveRecipeBuffer := []
  baseRecipeBuffer := []
  restoreChunkBuf := []
  currentItemNum := 0
  sent := []

/-- The slot of a container, a new one if this call has not asked for it. -/
def slotOf (r : Restore) (name : ContainerName) : Nat × Restore :=
  match r.tmpContainerMap.lookup name with
  | some k => (k, r)
  | none => (r.idBuffer.length,
      { r with
        idBuffer := r.idBuffer ++ [name]
        tmpContainerMap := r.tmpContainerMap.insert name r.idBuffer.length })

/-- One container of `GetReqContainers`. -/
def fetch (s : Server) (l : RestoreLogin) (r : Restore) (p : ContainerName × Nat) : Option Restore :=
  let fill := fun (r : Restore) (body : Bytes) => { r with
    containerArray := fun i =>
      if i = p.2 then writeAt (r.containerArray i) 0 body else r.containerArray i }
  match r.containerCache.lookup p.1 with
  | some body => some (fill r body)
  | none => (s.view.file p.1).map fun body =>
      fill { r with containerCache := l.evict (r.containerCache.insert p.1 body) } body

def getReqContainers (s : Server) (l : RestoreLogin) (r : Restore) : Option Restore :=
  r.idBuffer.zipIdx.foldlM (fetch s l) r

/-- `Ocall_QueryBaseIndex`; the address of a base that is missing stays. -/
def queryBaseIndex (s : Server) (r : Restore) : Restore :=
  { r with baseAddr := fun i => match r.baseQuery[i]? with
    | some base => (s.db.queryBuffer base).getD (r.baseAddr i)
    | none => r.baseAddr i }

variable (env : Env)

/-- A base that was looked up joins the bases. -/
def addBase (r : Restore) (i : Nat) : Restore :=
  let e := env.decEntry (r.baseAddr i)
  let (k, r) := r.slotOf e.containerName
  { r with baseRecipeBuffer := r.baseRecipeBuffer ++ [⟨k, e⟩] }

/-- The pending bases are looked up. -/
def flushBaseQuery (s : Server) (r : Restore) : Restore :=
  { (List.range r.baseQuery.length).foldl (addBase env) (queryBaseIndex s r) with baseQuery := [] }

/-! ## Writing chunks out -/

/-- The payload of an entry, decrypted. -/
def dataOf (r : Restore) (e : EnclaveRecipeEntry) : Bytes :=
  let container := r.containerArray e.containerID
  env.decryptionWithKeyIV (getChunkContent container e.chunkAddr) (getChunkIV container e.chunkAddr)

/-- The chunk of an entry, and the bases that are left. The source counts
through `_baseRecipeBuffer` with `bidx`. -/
def recoverChunk (r : Restore) (e : EnclaveRecipeEntry) (bases : List EnclaveRecipeEntry) :
    Bytes × List EnclaveRecipeEntry :=
  if e.chunkAddr.deltaFlag = DELTA then
    (ed3Decode (dataOf env r e) (env.unpack (dataOf env r (bases.headD e))), bases.tail)
  else (env.unpack (dataOf env r e), bases)

def put (r : Restore) (chunk : Bytes) : Restore :=
  { r with
    restoreChunkBuf := r.restoreChunkBuf ++ (le32 (UInt32.ofNat chunk.length) ++ chunk)
    currentItemNum := r.currentItemNum + 1 }

/-- `Ocall_SendRestoreData`. -/
def send (r : Restore) (l : RestoreLogin) (final : Bool) : Restore :=
  { r with
    sent := r.sent ++ [⟨final, env.sessionKeyEnc l.sessionKey r.restoreChunkBuf, r.currentItemNum⟩]
    restoreChunkBuf := []
    currentItemNum := 0 }

/-- The loop over `_enclaveRecipeBuffer`; in the tail batch its last round
sends what is there. -/
def emit (l : RestoreLogin) (tail : Bool) :
    List EnclaveRecipeEntry → (bases : List EnclaveRecipeEntry) → Restore → Restore
  | [], _, r => r
  | e :: es, bases, r =>
      let (chunk, bases) := recoverChunk env r e bases
      let r := r.put chunk
      let endFlag := tail && es.isEmpty
      let r := if r.currentItemNum % env.sendChunkBatchSize = 0 ∨ endFlag then r.send env l endFlag
        else r
      emit l tail es bases r

/-- The pending bases are looked up, the containers fetched and the collected
chunks written out. -/
def writeOut (s : Server) (l : RestoreLogin) (tail : Bool) (r : Restore) : Option Restore :=
  let r := if r.baseQuery.length ≠ 0 then r.flushBaseQuery env s else r
  (r.getReqContainers s l).map fun r =>
    r.emit env l tail r.enclaveRecipeBuffer r.baseRecipeBuffer

/-! ## Recipes -/

/-- One entry of `ProcRecipeBatch`. -/
def procEntry (s : Server) (l : RestoreLogin) (r : Restore) (value : Cipher) : Option Restore :=
  let e := env.decEntry value
  let r := if e.deltaFlag = DELTA then
      if r.baseQuery.length < baseQueryMax then
        { r with baseQuery := r.baseQuery ++ [e.basechunkHash] }
      else { r.flushBaseQuery env s with baseQuery := [e.basechunkHash] }
    else r
  let (k, r) := r.slotOf e.containerName
  let r := { r with enclaveRecipeBuffer := r.enclaveRecipeBuffer ++ [⟨k, e⟩] }
  if containerCappingValue ≤ r.idBuffer.length + r.baseQuery.length then
    (r.writeOut env s l false).map fun r => { r with
      idBuffer := []
      tmpContainerMap := ∅
      enclaveRecipeBuffer := []
      baseRecipeBuffer := []
      baseQuery := [] }
  else some r

/-- `Ocall_ReadIndexStoreBatch`; a fingerprint that is missing gets the value
of the one before it. -/
def readIndexStoreBatch (s : Server) : (value : Cipher) → List Fp → List Cipher
  | _, [] => []
  | value, key :: keys =>
      let value := (s.db.queryBuffer key).getD value
      value :: readIndexStoreBatch s value keys

/-- The fingerprints that a buffer holds. -/
def splitFps (recipeNum : Nat) (buf : Bytes) : List Fp :=
  (List.range recipeNum).map fun i => BytesN.ofBytes 32 (buf.drop (CHUNK_HASH_SIZE * i))

def procRecipeBatch (s : Server) (l : RestoreLogin) (recipeBuffer : Bytes) (r : Restore) :
    Option Restore :=
  let recipeNum := recipeBuffer.length / CHUNK_HASH_SIZE
  let fps := splitFps recipeNum
    (env.decryptWithKey l.masterKey (recipeBuffer.take (recipeNum * CHUNK_HASH_SIZE)))
  (readIndexStoreBatch s zeroCipher (fps.map env.indexAESCMCEnc)).foldlM (procEntry env s l)
    { r with tmpContainerMap := ∅ }

def procRecipeTailBatch (s : Server) (l : RestoreLogin) (r : Restore) : Option Restore :=
  let r := { r with tmpContainerMap := ∅ }
  if r.enclaveRecipeBuffer.length ≠ 0 then r.writeOut env s l true
  else some (r.send env l true)

/-- The loop of `Run` over the recipe file. -/
def readRecipe (s : Server) (l : RestoreLogin) : (fuel : Nat) → Bytes → Restore → Option Restore
  | 0, _, r => some r
  | fuel + 1, file, r =>
      let readRecipeBuf := file.take (CHUNK_HASH_SIZE * env.sendRecipeBatchSize)
      if readRecipeBuf.length = 0 then some r
      else
        (r.procRecipeBatch env s l readRecipeBuf).bind fun r =>
          -- a short read is the end of the file
          if readRecipeBuf.length < CHUNK_HASH_SIZE * env.sendRecipeBatchSize then some r
          else readRecipe s l fuel (file.drop (CHUNK_HASH_SIZE * env.sendRecipeBatchSize)) r

end Restore

/-- `EnclaveRecvDecoder::Run` on a stored recipe: what it sends. The head of
the recipe, of 16 bytes, went out with the login response. -/
def enclaveRecvDecoderRun (env : Env) (s : Server) (l : RestoreLogin) :
    Option (List RestoreMessage) := do
  let file := (← s.recipes.lookup l.recipePath).drop 16
  let r ← Restore.readRecipe env s l (file.length + 1) file (Restore.start l)
  return (← r.procRecipeTailBatch env s l).sent

/-! ## The steps of a restore -/

namespace Restore

variable (env : Env)

/-- The recipe in any number of `ProcRecipeBatch` calls. -/
def procRecipeBatches (s : Server) (l : RestoreLogin) (bufs : List Bytes) (r : Restore) :
    Option Restore :=
  bufs.foldlM (fun r buf => r.procRecipeBatch env s l buf) r

/-- What `Run` hands to `ProcRecipeBatch`, call by call. -/
def readBuffers : (fuel : Nat) → Bytes → List Bytes
  | 0, _ => []
  | fuel + 1, file =>
      let readRecipeBuf := file.take (CHUNK_HASH_SIZE * env.sendRecipeBatchSize)
      if readRecipeBuf.length = 0 then []
      else readRecipeBuf ::
        if readRecipeBuf.length < CHUNK_HASH_SIZE * env.sendRecipeBatchSize then []
        else readBuffers fuel (file.drop (CHUNK_HASH_SIZE * env.sendRecipeBatchSize))

/-- The fingerprints that a call of `ProcRecipeBatch` decrypts. -/
def recipeFps (masterKey : Key) (recipeBuffer : Bytes) : List Fp :=
  let recipeNum := recipeBuffer.length / CHUNK_HASH_SIZE
  splitFps recipeNum (env.decryptWithKey masterKey (recipeBuffer.take (recipeNum * CHUNK_HASH_SIZE)))

/-- The encrypted fingerprints that it looks up. -/
def recipeKeys (l : RestoreLogin) (recipeBuffer : Bytes) : List Fp :=
  (recipeFps env l.masterKey recipeBuffer).map env.indexAESCMCEnc

theorem readRecipe_eq (s : Server) (l : RestoreLogin) : ∀ (fuel : Nat) (file : Bytes) (r : Restore),
    readRecipe env s l fuel file r = r.procRecipeBatches env s l (readBuffers env fuel file)
  | 0, _, _ => rfl
  | fuel + 1, file, r => by
      rw [readRecipe, readBuffers]
      split
      · rfl
      · rw [procRecipeBatches, List.foldlM_cons]
        refine Option.bind_congr fun r₁ _ => ?_
        split
        · rfl
        · exact readRecipe_eq s l fuel _ r₁

/-- `procEntry` up to the capping test. -/
def addEntry (s : Server) (r : Restore) (value : Cipher) : Restore :=
  let e := env.decEntry value
  let r := if e.deltaFlag = DELTA then
      if r.baseQuery.length < baseQueryMax then
        { r with baseQuery := r.baseQuery ++ [e.basechunkHash] }
      else { r.flushBaseQuery env s with baseQuery := [e.basechunkHash] }
    else r
  let (k, r) := r.slotOf e.containerName
  { r with enclaveRecipeBuffer := r.enclaveRecipeBuffer ++ [⟨k, e⟩] }

theorem baseQuery_slotOf (r : Restore) (n : ContainerName) :
    (r.slotOf n).2.baseQuery = r.baseQuery := by
  unfold slotOf
  split <;> rfl

theorem baseAddr_slotOf (r : Restore) (n : ContainerName) : (r.slotOf n).2.baseAddr = r.baseAddr := by
  unfold slotOf
  split <;> rfl

theorem baseAddr_addBase (r : Restore) (i : Nat) : (addBase env r i).baseAddr = r.baseAddr :=
  baseAddr_slotOf r _

/-- The capping test. -/
def Capped (r : Restore) : Prop := containerCappingValue ≤ r.idBuffer.length + r.baseQuery.length

instance (r : Restore) : Decidable r.Capped := inferInstanceAs (Decidable (_ ≤ _))

/-- `writeOut` before the containers are fetched. -/
def lookUp (s : Server) (r : Restore) : Restore :=
  if r.baseQuery.length ≠ 0 then r.flushBaseQuery env s else r

/-- After a flush. -/
def reset (r : Restore) : Restore := { r with
  idBuffer := []
  tmpContainerMap := ∅
  enclaveRecipeBuffer := []
  baseRecipeBuffer := []
  baseQuery := [] }

theorem procEntry_eq (s : Server) (l : RestoreLogin) (r : Restore) (value : Cipher) :
    r.procEntry env s l value =
      if (r.addEntry env s value).Capped then
        ((r.addEntry env s value).writeOut env s l false).map reset
      else some (r.addEntry env s value) := rfl

theorem procRecipeBatch_eq (s : Server) (l : RestoreLogin) (buf : Bytes) (r : Restore) :
    r.procRecipeBatch env s l buf =
      (readIndexStoreBatch s zeroCipher (recipeKeys env l buf)).foldlM (procEntry env s l)
        { r with tmpContainerMap := ∅ } := rfl

/-- The calls of `procEntry`: the state before each, and its entry. -/
def entrySteps (s : Server) (l : RestoreLogin) : List Cipher → Restore → List (Restore × Cipher)
  | [], _ => []
  | value :: values, r => (r, value) ::
      match r.procEntry env s l value with
      | some r => entrySteps s l values r
      | none => []

def batchSteps (s : Server) (l : RestoreLogin) : List Bytes → Restore → List (Restore × Cipher)
  | [], _ => []
  | buf :: bufs, r =>
      entrySteps env s l (readIndexStoreBatch s zeroCipher (recipeKeys env l buf))
          { r with tmpContainerMap := ∅ } ++
        match r.procRecipeBatch env s l buf with
        | some r => batchSteps s l bufs r
        | none => []

/-- What the tail batch writes out, if there is anything and the server has
not exited before. -/
def tailState (s : Server) (l : RestoreLogin) (bufs : List Bytes) : Option Restore :=
  (((Restore.start l).procRecipeBatches env s l bufs).map fun r => { r with tmpContainerMap := ∅ }).filter
    fun r => r.enclaveRecipeBuffer.length ≠ 0

/-- What the containers are fetched for, flush by flush. -/
def flushes (s : Server) (l : RestoreLogin) (bufs : List Bytes) : List Restore :=
  (batchSteps env s l bufs (.start l)).filterMap (fun p =>
    if (p.1.addEntry env s p.2).Capped then some ((p.1.addEntry env s p.2).lookUp env s) else none) ++
  (tailState env s l bufs).toList.map (lookUp env s)

/-- The restore while pending bases are looked up, base by base. -/
def lookUpStates (s : Server) (r : Restore) : List Restore :=
  (List.range r.baseQuery.length).scanl (addBase env) (queryBaseIndex s r)

/-- The restore after each container that `procEntry` may ask for. -/
def entryStates (s : Server) (r : Restore) (value : Cipher) : List Restore :=
  (if (env.decEntry value).deltaFlag = DELTA ∧ ¬ r.baseQuery.length < baseQueryMax then
    r.lookUpStates env s else []) ++
  r.addEntry env s value ::
    if (r.addEntry env s value).Capped then (r.addEntry env s value).lookUpStates env s else []

/-- The restore after each container that is asked for. -/
def restoreStates (s : Server) (l : RestoreLogin) (bufs : List Bytes) : List Restore :=
  (batchSteps env s l bufs (.start l)).flatMap (fun p => p.1.entryStates env s p.2) ++
    (tailState env s l bufs).toList.flatMap (lookUpStates env s)

/-! An invariant of `procEntry`, on the values that occur, that does not
mention the container map holds before every step, and at the end. -/

section Invariant

variable {env} {s : Server} {l : RestoreLogin} {I : Restore → Prop} {V : Cipher → Prop}
  (hmap : ∀ r, I r → I { r with tmpContainerMap := ∅ })
  (hstep : ∀ r value r', V value → I r → r.procEntry env s l value = some r' → I r')

include hstep

theorem invariant_entrySteps : ∀ (values : List Cipher) (r : Restore), (∀ value ∈ values, V value) →
    I r → ∀ p ∈ entrySteps env s l values r, I p.1 ∧ V p.2
  | [], _, _, _, _, hp => by cases hp
  | value :: values, r, hv, hr, p, hp => by
      rcases List.mem_cons.mp hp with rfl | hp
      · exact ⟨hr, hv _ (by simp)⟩
      · cases hnext : r.procEntry env s l value with
        | none =>
            rw [hnext] at hp
            cases hp
        | some r' =>
            rw [hnext] at hp
            exact invariant_entrySteps values r' (fun v h => hv v (by simp [h]))
              (hstep r value r' (hv value (by simp)) hr hnext) p hp

theorem invariant_foldlM : ∀ (values : List Cipher) (r r' : Restore), (∀ value ∈ values, V value) →
    I r → values.foldlM (procEntry env s l) r = some r' → I r'
  | [], r, r', _, hr, h => by
      obtain rfl : r = r' := Option.some.inj h
      exact hr
  | value :: values, r, r', hv, hr, h => by
      rw [List.foldlM_cons] at h
      obtain ⟨r₁, h₁, h₂⟩ := Option.bind_eq_some_iff.mp h
      exact invariant_foldlM values r₁ r' (fun v h => hv v (by simp [h]))
        (hstep r value r₁ (hv value (by simp)) hr h₁) h₂

include hmap

theorem invariant_procRecipeBatch {buf : Bytes} {r r' : Restore}
    (hv : ∀ value ∈ readIndexStoreBatch s zeroCipher (recipeKeys env l buf), V value) (hr : I r)
    (h : r.procRecipeBatch env s l buf = some r') : I r' := by
  rw [procRecipeBatch_eq] at h
  exact invariant_foldlM hstep _ _ r' hv (hmap r hr) h

theorem invariant_batchSteps : ∀ (bufs : List Bytes) (r : Restore),
    (∀ buf ∈ bufs, ∀ value ∈ readIndexStoreBatch s zeroCipher (recipeKeys env l buf), V value) →
    I r → ∀ p ∈ batchSteps env s l bufs r, I p.1 ∧ V p.2
  | [], _, _, _, _, hp => by cases hp
  | buf :: bufs, r, hv, hr, p, hp => by
      rcases List.mem_append.mp hp with hp | hp
      · exact invariant_entrySteps hstep _ _ (hv buf (by simp)) (hmap r hr) p hp
      · cases hnext : r.procRecipeBatch env s l buf with
        | none =>
            rw [hnext] at hp
            cases hp
        | some r' =>
            rw [hnext] at hp
            exact invariant_batchSteps bufs r' (fun b h => hv b (by simp [h]))
              (invariant_procRecipeBatch hmap hstep (hv buf (by simp)) hr hnext) p hp

theorem invariant_procRecipeBatches : ∀ (bufs : List Bytes) (r r' : Restore),
    (∀ buf ∈ bufs, ∀ value ∈ readIndexStoreBatch s zeroCipher (recipeKeys env l buf), V value) →
    I r → r.procRecipeBatches env s l bufs = some r' → I r'
  | [], r, r', _, hr, h => by
      obtain rfl : r = r' := Option.some.inj h
      exact hr
  | buf :: bufs, r, r', hv, hr, h => by
      rw [procRecipeBatches, List.foldlM_cons] at h
      obtain ⟨r₁, h₁, h₂⟩ := Option.bind_eq_some_iff.mp h
      exact invariant_procRecipeBatches bufs r₁ r' (fun b h => hv b (by simp [h]))
        (invariant_procRecipeBatch hmap hstep (hv buf (by simp)) hr h₁) h₂

theorem invariant_tailState {bufs : List Bytes}
    (hv : ∀ buf ∈ bufs, ∀ value ∈ readIndexStoreBatch s zeroCipher (recipeKeys env l buf), V value)
    (hr : I (.start l)) {r : Restore} (h : tailState env s l bufs = some r) : I r := by
  obtain ⟨hmem, -⟩ := Option.filter_eq_some_iff.mp h
  obtain ⟨r₁, h₁, rfl⟩ := Option.map_eq_some_iff.mp hmem
  exact hmap r₁ (invariant_procRecipeBatches hmap hstep bufs _ r₁ hv hr h₁)

end Invariant

end Restore

/-- The chunks in the messages of a restore. -/
def restoredChunks (env : Env) (sessionKey : Key) (msgs : List RestoreMessage) : List Bytes :=
  msgs.flatMap fun m =>
    (parseChunks (env.sessionKeyDec sessionKey m.data) m.currentItemNum 0).map Prod.snd

end ShieldReduce
