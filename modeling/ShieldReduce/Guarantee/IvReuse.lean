import ShieldReduce.System.Encryptions

/-!
# Reuse of IVs

An offline pass encrypts the chunks that it turns into delta chunks under
the IVs they have, so that an IV is used for two plaintexts. A run in
which no pass has anything to re-encode uses each IV once, provided that
`PickNewIV` gives each once.
-/

namespace ShieldReduce

open ByteLib UMapLib LoopLib

variable {env : Env}

/-- A pass that begins here re-encodes nothing: offline work is off, the
session has stored nothing that the pass could work on, or no base
replacement is logged. -/
def Quiet (env : Env) (s : Server) : Prop :=
  env.offlineFlag = false ∨ s.onlineBackupSize = 0 ∨
    (s.db.localTmpMap.entries = [] ∧ s.db.localMap = [])

/-- The offline pass of a session, if it has one, begins in such a state. -/
def QuietSession (env : Env) (s : Server) : Event → Prop
  | .upload _ => True
  | .offline u _ => Quiet env (s.receiveUpload env u true)

/-- So do all offline passes of a run. -/
def QuietRun (env : Env) : Server → List Event → Prop
  | _, [] => True
  | s, e :: es => QuietSession env s e ∧ QuietRun env (s.serve env e) es

namespace OFFLineBackward

theorem updatePair_spent {p : Pass} (h : p.offlineCurrBackupSize = 0) (pair : Fp × Fp) :
    (updatePair env p pair).offlineCurrBackupSize = 0 ∧ updatePairEncryptions env p pair = [] := by
  have hle : p.offlineCurrBackupSize ≤ 0 := by
    rw [h]
    exact UInt64.le_refl 0
  unfold updatePair updatePairEncryptions
  rw [if_pos hle, if_pos hle]
  exact ⟨h, rfl⟩

theorem updateBatch_spent {p : Pass} (h : p.offlineCurrBackupSize = 0) (batch : List (Fp × Fp)) :
    (updateBatch env p batch).offlineCurrBackupSize = 0 ∧ updateBatchEncryptions env p batch = [] := by
  have hstep : ∀ (p : Pass) pair, p.offlineCurrBackupSize = 0 →
      (updatePair env p pair).offlineCurrBackupSize = 0 := fun _ pair hp => (updatePair_spent hp pair).1
  constructor
  · rw [updateBatch]
    exact foldl_inv (I := fun p : Pass => p.offlineCurrBackupSize = 0) hstep _ p h
  · refine List.flatten_eq_nil_iff.mpr ?_
    exact forall_mem_outputs (I := fun p : Pass => p.offlineCurrBackupSize = 0) hstep
      (fun _ pair hp => (updatePair_spent hp pair).2) _ p h

theorem updateLocal_spent : ∀ (fuel : Nat) {p : Pass}, p.offlineCurrBackupSize = 0 →
    updateLocalEncryptions env fuel p = []
  | 0, _, _ => rfl
  | fuel + 1, p, h => by
      rw [updateLocalEncryptions]
      split
      · rfl
      · rename_i q batch db _
        have hnext : (p.mapDb fun _ => db).offlineCurrBackupSize = 0 := h
        obtain ⟨hspent, hnone⟩ := @updateBatch_spent env _ hnext (q :: batch)
        dsimp only
        rw [hnone, updateLocal_spent fuel hspent]
        rfl

theorem updateLocal_idle {p : Pass} (h : p.server.db.localMap = []) (fuel : Nat) :
    updateLocalEncryptions env fuel p = [] := by
  cases fuel with
  | zero => rfl
  | succ fuel =>
      have hnone := InMemoryDatabase.getLocal_eq_nil_iff.mpr h
      rw [updateLocalEncryptions]
      split
      · rfl
      · rename_i q batch db heq
        rw [heq] at hnone
        cases hnone

end OFFLineBackward

/-- Such a pass encrypts nothing. -/
theorem Quiet.processOff {s : Server} (h : Quiet env s) (m : PassResidue) :
    processOffEncryptions env s m = [] := by
  unfold processOffEncryptions
  dsimp only
  split
  · rename_i hflag
    rcases h with hoff | hspent | ⟨hlog, hlocal⟩
    · rw [hoff] at hflag
      cases hflag
    · exact OFFLineBackward.updateLocal_spent _ hspent
    · refine OFFLineBackward.updateLocal_idle ?_ _
      have hwalk : ∀ l : List (Fp × Fp), l = [] → env.walkOrder.walk l = [] := by
        rintro l rfl
        exact List.Perm.eq_nil (env.walkOrder.perm _)
      have hgreedy : InMemoryDatabase.greedyBasemap env.walkOrder s.db = ∅ := by
        rw [InMemoryDatabase.greedyBasemap, hwalk _ (by rw [pairs, hlog, List.map_nil])]
        rfl
      show (s.db.localrevise env.walkOrder).localMap = []
      simp only [InMemoryDatabase.localrevise, hgreedy, hlocal, hwalk (pairs ∅) rfl,
        List.mergeSort_nil, List.append_nil]
  · rfl

/-- The IVs that are used are those that were drawn, in this order. -/
theorem map_iv_encryptions : ∀ (es : List Event) {s : Server}, QuietRun env s es →
    (s.encryptions env es).map Encryption.iv = s.drawnIVs env es
  | [], _, _ => rfl
  | e :: es, s, ⟨hquiet, h⟩ => by
      have hnone : s.reEncrypted env e = [] := by
        cases e with
        | upload u => rfl
        | offline u m => exact Quiet.processOff hquiet m
      have hrest := map_iv_encryptions es h
      unfold Server.encryptions Server.drawnIVs at hrest ⊢
      rw [outputs, outputs, List.flatten_cons, List.flatten_cons, List.map_append, hrest, hnone,
        List.append_nil, List.map_map]
      rfl

/-- **No IV is used for two plaintexts** in a run whose offline passes
re-encode nothing. -/
theorem iv_ne_of_plain_ne (m : Residue) (es : List Event)
    (hdrawn : ((Server.boot env m).drawnIVs env es).Nodup)
    (hquiet : QuietRun env (.boot env m) es) :
    ∀ a ∈ (Server.boot env m).encryptions env es, ∀ b ∈ (Server.boot env m).encryptions env es,
      a.plain ≠ b.plain → a.iv ≠ b.iv := by
  intro a ha b hb hplain hiv
  rw [← map_iv_encryptions es hquiet] at hdrawn
  have heq : a = b := List.inj_on_of_nodup_map hdrawn ha hb hiv
  exact hplain (congrArg Encryption.plain heq)

/-- A file of one chunk, and another one of a chunk that is similar. -/
def similarUpload (k : UInt8) : Upload where
  login := ⟨BytesN.ofBytes 32 [k], BytesN.ofBytes 32 [2], BytesN.ofBytes 32 [3],
    BytesN.ofBytes 16 [0, 0, 0, 0, 0, 0, 0, 0, k], BytesN.ofBytes 16 []⟩
  batches := [⟨[⟨k :: (List.range 20).map UInt8.ofNat, by simp [MAX_CHUNK_SIZE]⟩],
    fun _ => RecipeEntry.ofBytes []⟩]
  head := BytesN.ofBytes 16 [9]

/-- The pass comes before there is a second chunk. -/
theorem iv_ne_of_plain_ne_similar :
    ((Server.boot .plain ⟨[], fun _ => []⟩).encryptions .plain
        [.offline (similarUpload 1) ⟨zeroCipher, 0, [], []⟩, .upload (similarUpload 2)]).length = 2 ∧
    ∀ a ∈ (Server.boot .plain ⟨[], fun _ => []⟩).encryptions .plain
        [.offline (similarUpload 1) ⟨zeroCipher, 0, [], []⟩, .upload (similarUpload 2)],
      ∀ b ∈ (Server.boot .plain ⟨[], fun _ => []⟩).encryptions .plain
        [.offline (similarUpload 1) ⟨zeroCipher, 0, [], []⟩, .upload (similarUpload 2)],
      a.plain ≠ b.plain → a.iv ≠ b.iv :=
  ⟨by decide +kernel, iv_ne_of_plain_ne ⟨[], fun _ => []⟩ _ (by decide +kernel)
    ⟨Or.inr (Or.inr ⟨by decide +kernel, by decide +kernel⟩), trivial, trivial⟩⟩

/-- The pass comes when the second chunk is to replace the first one as a base:
the first chunk becomes a delta chunk, under the IV it has. -/
theorem not_iv_ne_similar :
    ((Server.boot .plain ⟨[], fun _ => []⟩).drawnIVs .plain
      [.upload (similarUpload 1), .offline (similarUpload 2) ⟨zeroCipher, 0, [], []⟩]).Nodup ∧
    ∃ a ∈ (Server.boot .plain ⟨[], fun _ => []⟩).encryptions .plain
        [.upload (similarUpload 1), .offline (similarUpload 2) ⟨zeroCipher, 0, [], []⟩],
      ∃ b ∈ (Server.boot .plain ⟨[], fun _ => []⟩).encryptions .plain
        [.upload (similarUpload 1), .offline (similarUpload 2) ⟨zeroCipher, 0, [], []⟩],
      a.plain ≠ b.plain ∧ a.iv = b.iv := by
  decide +kernel

end ShieldReduce
