import ShieldReduce.Guarantee.Codec
import ShieldReduce.System.Offline
import ShieldReduce.System.Restore

/-!
# The readers of a base

A chunk that is stored whole is decrypted and, where that works,
decompressed at five places: `ProcessDeltachunk` of an upload,
`RecoverOneChunk` and the branch for delta chunks of a restore, and
`Easy_update` for the old and the new base of a pair. The offline pass
takes a result of 0 for a chunk that was compressed, the others do not.
-/

namespace ShieldReduce

open ByteLib

variable {env : Env}

/-- The base of a delta chunk in `ProcRecipeBatch` and `ProcRecipeTailBatch`. -/
def Restore.baseChunk (env : Env) (r : Restore) (base : EnclaveRecipeEntry) : Bytes :=
  env.unpack (Restore.dataOf env r base)

theorem Restore.recoverChunk_baseChunk {r : Restore} {e base : EnclaveRecipeEntry}
    (he : e.chunkAddr.deltaFlag = DELTA) (bases : List EnclaveRecipeEntry) :
    Restore.recoverChunk env r e (base :: bases) =
      (ed3Decode (Restore.dataOf env r e) (Restore.baseChunk env r base), bases) := by
  rw [Restore.recoverChunk, if_pos he]
  rfl

/-- `old_chunk` and `new_chunk` of `Easy_update`. -/
def OFFLineBackward.baseChunk (env : Env) (container : Bytes) (recipe : RecipeEntry) : Bytes :=
  env.unpackOffline (env.decryptionWithKeyIV (getChunkContent container recipe)
    (getChunkIV container recipe))

theorem OFFLineBackward.rebase_baseChunk (p : Pass) (pair : Fp × Fp) (oldRecipe newRecipe : RecipeEntry)
    (oldContainer newContainer : Bytes) :
    OFFLineBackward.rebase env p pair oldRecipe newRecipe oldContainer newContainer =
      let oldChunk := baseChunk env oldContainer oldRecipe
      let newChunk := baseChunk env newContainer newRecipe
      let asked := p.queryDeltaIndex pair.1
      convertBase env oldChunk newChunk pair oldRecipe (getChunkIV oldContainer oldRecipe)
        (asked.1.foldl (rebaseDelta env oldChunk newChunk pair.2) (true, asked.2)) := rfl

/-- All five readers get the bytes `base` from the container at the address. -/
structure ReadAs (env : Env) (container : Bytes) (addr : RecipeEntry) (base : Bytes) : Prop where
  processDeltachunk : ∀ (e : InQueryEntry) (o : OutQueryEntry), o.containerbuffer = container →
    e.basechunkAddr = addr → EcallFreqIndex.baseOf env e o = base
  recoverOneChunk : ∀ (r : Restore) (k : Nat) bases, r.containerArray k = container →
    (Restore.recoverChunk env r ⟨k, addr⟩ bases).1 = base
  recipeBatch : ∀ (r : Restore) (k : Nat), r.containerArray k = container →
    Restore.baseChunk env r ⟨k, addr⟩ = base
  easyUpdate : OFFLineBackward.baseChunk env container addr = base

/-- They agree. -/
def ReadAlike (env : Env) (container : Bytes) (addr : RecipeEntry) : Prop :=
  ∃ base, ReadAs env container addr base

/-- A restore that has the container in its array. -/
def Restore.holding (container : Bytes) : Restore :=
  Restore.start ⟨BytesN.ofBytes 32 [], BytesN.ofBytes 32 [], BytesN.ofBytes 32 [], id,
    fun _ => container, fun _ => zeroCipher⟩

/-- What an upload gets is what a restore gets, and the offline pass reads in the
other way. -/
theorem readAlike_iff_unpack {container : Bytes} {addr : RecipeEntry} (hflag : addr.deltaFlag = NO_DELTA)
    {data : Bytes} (hdata : env.decryptionWithKeyIV (getChunkContent container addr)
      (getChunkIV container addr) = data) :
    ReadAlike env container addr ↔ env.unpackOffline data = env.unpack data := by
  have hwhole : ¬ addr.deltaFlag = DELTA := by
    rw [hflag]
    decide
  have hrestore : ∀ (r : Restore) (k : Nat), r.containerArray k = container →
      env.unpack (Restore.dataOf env r ⟨k, addr⟩) = env.unpack data := by
    intro r k hk
    unfold Restore.dataOf
    dsimp only
    rw [hk, hdata]
  constructor
  · rintro ⟨base, -, -, hrecipe, heasy⟩
    have hread := hrecipe (.holding container) 0 rfl
    rw [Restore.baseChunk, hrestore _ _ rfl] at hread
    rw [OFFLineBackward.baseChunk, hdata] at heasy
    rw [heasy, hread]
  · intro heq
    refine ⟨env.unpack data, ?_, ?_, hrestore, ?_⟩
    · rintro e o rfl rfl
      rw [EcallFreqIndex.baseOf, hdata]
    · intro r k bases hk
      rw [Restore.recoverChunk, if_neg hwhole]
      exact hrestore r k hk
    · rw [OFFLineBackward.baseChunk, hdata, heq]

/-- The two ways differ for a result of 0 only. -/
theorem Env.unpackOffline_eq_unpack_iff {data : Bytes} (hdata : data ≠ []) :
    env.unpackOffline data = env.unpack data ↔ env.lz4DecompressSafe data ≠ some [] := by
  unfold Env.unpackOffline Env.unpack
  cases hout : env.lz4DecompressSafe data with
  | none => simp
  | some out =>
      cases out with
      | nil => simpa using hdata.symm
      | cons b out => simp

theorem deltaFlag_processSheUniqueChunk (s : Session) (chunkAddr : RecipeEntry) (chunk : Bytes)
    (sf : Sf) (fp : Fp) :
    (s.processSheUniqueChunk env chunkAddr chunk sf fp).1.deltaFlag = chunkAddr.deltaFlag := by
  unfold Session.processSheUniqueChunk
  dsimp only
  split <;> rfl

/-- **The readers of a base.** They agree on a chunk that is stored whole exactly
if decompressing its payload does not give the empty string. The container may
have grown by more records. -/
theorem readAlike_iff (henv : env.Lawful) (s : Session) {chunkAddr : RecipeEntry}
    (hflag : chunkAddr.deltaFlag = NO_DELTA) (c : Chunk) (sf : Sf) (fp : Fp) (more : Bytes) :
    ReadAlike env (((s.processSheUniqueChunk env chunkAddr c.1 sf fp).2.client.cur .base).buf ++ more)
        (s.processSheUniqueChunk env chunkAddr c.1 sf fp).1 ↔
      env.lz4DecompressSafe (env.pack c.1) ≠ some [] := by
  obtain ⟨r, name, hplaced, hentry, hfound, hpayload, hiv⟩ :=
    processSheUniqueChunk_record henv s hflag c sf fp
  have hflag' := (@deltaFlag_processSheUniqueChunk env s chunkAddr c.1 sf fp).trans hflag
  have hfound' := hfound.append more
  rw [← hentry] at hflag' ⊢
  refine (readAlike_iff_unpack hflag' ?_).trans (Env.unpackOffline_eq_unpack_iff ?_)
  · rw [hfound'.getChunkContent hplaced, hfound'.getChunkIV hplaced, hpayload, hiv, henv.keyIV]
  · exact List.ne_nil_of_length_pos (henv.length_pack c).1

theorem readAlike_oneByte :
    ReadAlike .plain ((((firstSession .plain).processSheUniqueChunk .plain wholeEntry [7]
        (BytesN.ofBytes 96 []) (BytesN.ofBytes 32 [7])).2.client.cur .base).buf ++ [])
      ((firstSession .plain).processSheUniqueChunk .plain wholeEntry [7] (BytesN.ofBytes 96 [])
        (BytesN.ofBytes 32 [7])).1 :=
  (readAlike_iff Env.lawful_plain (firstSession .plain) rfl ⟨[7], by decide⟩ _ _ []).mpr
    fun h => by cases h

/-- What an upload of the chunk of one zero byte stores. -/
def zeroStored : RecipeEntry × Session :=
  (firstSession .literals).processSheUniqueChunk .literals wholeEntry [0] (BytesN.ofBytes 96 [])
    (BytesN.ofBytes 32 [7])

/-- The zero byte is a block without literals: it decompresses to nothing. -/
theorem not_readAlike_zero : Env.literals.Lawful ∧ wholeEntry.deltaFlag = NO_DELTA ∧
    ¬ ReadAlike .literals (zeroStored.2.client.cur .base).buf zeroStored.1 := by
  refine ⟨Env.lawful_literals, rfl, ?_⟩
  rintro ⟨base, -, -, hrecipe, heasy⟩
  have hread := hrecipe (.holding (zeroStored.2.client.cur .base).buf) 0 rfl
  have hzero : Restore.baseChunk .literals (.holding (zeroStored.2.client.cur .base).buf)
      ⟨0, zeroStored.1⟩ = [0] := by decide +kernel
  have hnone : OFFLineBackward.baseChunk .literals (zeroStored.2.client.cur .base).buf zeroStored.1 =
      [] := by decide +kernel
  rw [hread.symm.trans hzero] at heasy
  rw [hnone] at heasy
  cases heasy

end ShieldReduce
