import Mathlib.Data.List.GetD
import ShieldReduce.Enclave.SuperFeature
import ShieldReduce.System.Upload

/-!
# Super-features depend on the chunk only

`superFeatures` is what `getSF2` is meant to compute, in numbers and from
the bytes of the chunk alone: window maxima, sorted groups of three, and
hashes of the transposed groups. `getSF2` computes it from any memory that
begins with the chunk.

The chunks of a batch are divided among three threads by a block length that
is rounded down; the last block takes the rest. `Workers` runs the threads
in any order.
-/

namespace ShieldReduce

open ByteLib LoopLib RollingLib

namespace EcallFreqIndex

/-! ## The specification -/

/-- The largest hash of 48 bytes in a row in `sub`; 0 if it has fewer. -/
def maxWindow (sub : Bytes) : Nat :=
  (Finset.range (sub.length + 1 - windowSize)).sup fun k =>
    polyHash 37 featureMod (((sub.drop k).take windowSize).map UInt8.toNat)

/-- The `i`-th of the twelve sub-chunks. -/
def subchunk (chunk : Bytes) (i : Nat) : Bytes :=
  (chunk.take (chunk.length * (i + 1) / 12)).drop (chunk.length * i / 12)

/-- The features of three sub-chunks in a row, sorted. -/
def sortedGroup (chunk : Bytes) (j : Nat) : List Nat :=
  ((List.range 3).map fun k => maxWindow (subchunk chunk (j * 3 + k))).mergeSort

def superFeatures (generateHash : Bytes → Fp) (chunk : Bytes) : Sf :=
  BytesN.ofBytes 96 ((List.range 3).flatMap fun i =>
    (generateHash ((List.range 4).flatMap fun j => le64 ((sortedGroup chunk j).getD i 0))).1)

/-! ## The code computes it -/

theorem windowMax_eq {ptr : Mem} {chunk : Bytes} (h : slice ptr 0 chunk.length = chunk)
    {first last : Nat} (hlast : last ≤ chunk.length) :
    windowMax ptr first last = maxWindow ((chunk.take last).drop first) := by
  have hbyte : ∀ i < chunk.length, ptr i = memOf chunk i := by
    have hslice := h.trans (slice_memOf_self chunk).symm
    simpa using slice_eq_iff.mp hslice
  have hlen : ((chunk.take last).drop first).length + 1 - windowSize =
      last + 1 - windowSize - first := by
    rw [List.length_drop, List.length_take, Nat.min_eq_left hlast, windowSize]
    omega
  rw [windowMax, maxWindow, hlen]
  refine Finset.sup_congr rfl fun k hk => ?_
  have hk' : first + k + windowSize ≤ last := by
    have hlt := Finset.mem_range.mp hk
    omega
  have hwindow : slice ptr (first + k) windowSize =
      (((chunk.take last).drop first).drop k).take windowSize := by
    have hmem : slice ptr (first + k) windowSize = slice (memOf chunk) (first + k) windowSize :=
      slice_eq_iff.mpr fun i hi => hbyte _ (by omega)
    rw [hmem, slice_memOf (by omega), List.drop_drop, List.drop_take, List.take_take,
      Nat.min_eq_left (by omega)]
  rw [windowHash, window, hwindow]

/-- A place in one of several groups of one length. -/
theorem getD_flatMap_range {α : Type} {g : Nat → List α} {n : Nat} (d : α) {i : Nat} (hi : i < n) :
    ∀ {m j : Nat}, (∀ j < m, (g j).length = n) → j < m →
      ((List.range m).flatMap g).getD (j * n + i) d = (g j).getD i d
  | 0, _, _, hj => absurd hj (Nat.not_lt_zero _)
  | m + 1, j, hg, hj => by
      have hlen : ((List.range m).flatMap g).length = m * n := by
        rw [List.length_flatMap, List.map_congr_left fun j hj =>
          hg j (Nat.lt_succ_of_lt (List.mem_range.mp hj))]
        simp
      rw [List.range_succ, List.flatMap_append, List.flatMap_singleton]
      rcases Nat.lt_succ_iff_lt_or_eq.mp hj with hlt | rfl
      · have hin : j * n + i < m * n := by
          have hle := Nat.mul_le_mul_right n (Nat.succ_le_of_lt hlt)
          rw [Nat.succ_mul] at hle
          omega
        rw [List.getD_append _ _ _ _ (by omega),
          getD_flatMap_range d hi (fun j hj => hg j (Nat.lt_succ_of_lt hj)) hlt]
      · rw [List.getD_append_right _ _ _ _ (by omega), hlen, Nat.add_sub_cancel_left]

/-- The sub-chunks of the code are those of the chunk. -/
theorem subchunkFeature_eq {ptr : Mem} {chunk : Bytes} (h : slice ptr 0 chunk.length = chunk)
    {i : Nat} (hi : i < 12) :
    (subchunkFeature ptr (subchunkIndex chunk.length i) (subchunkIndex chunk.length (i + 1))).toNat =
      maxWindow (subchunk chunk i) := by
  have hlast : chunk.length * (i + 1) / 12 ≤ chunk.length := by
    have hle : chunk.length * (i + 1) ≤ chunk.length * 12 := Nat.mul_le_mul_left _ (by omega)
    omega
  rw [subchunkFeature_toNat, subchunkIndex, subchunkIndex]
  exact windowMax_eq h hlast

/-- Three of twelve. -/
theorem take_drop_twelve {α : Type} (f : Nat → α) {j : Nat} (hj : j < 4) :
    (((List.range 12).map f).drop (j * 3)).take 3 = (List.range 3).map fun k => f (j * 3 + k) :=
  match j, hj with
  | 0, _ => rfl
  | 1, _ => rfl
  | 2, _ => rfl
  | 3, _ => rfl

/-- Words are sorted like the numbers that they hold. -/
theorem toNat_mergeSort (words : List UInt32) :
    words.mergeSort.map UInt32.toNat = (words.map UInt32.toNat).mergeSort :=
  List.map_mergeSort fun _ _ _ _ => decide_eq_decide.mpr UInt32.le_iff_toNat_le

theorem getSF2_eq_of_slice (generateHash : Bytes → Fp) {ptr : Mem} {chunk : Bytes}
    (h : slice ptr 0 chunk.length = chunk) :
    getSF2 generateHash ptr chunk.length = superFeatures generateHash chunk := by
  have hgroup : ∀ j < 4, ((((List.range 12).map fun i => subchunkFeature ptr
      (subchunkIndex chunk.length i) (subchunkIndex chunk.length (i + 1))).drop
        (j * 3)).take 3).mergeSort.map UInt32.toNat = sortedGroup chunk j := by
    intro j hj
    rw [take_drop_twelve _ hj, toNat_mergeSort, List.map_map, sortedGroup]
    congr 1
    refine List.map_congr_left fun k hk => ?_
    have hk' := List.mem_range.mp hk
    exact subchunkFeature_eq h (by omega)
  rw [getSF2, superFeatures]
  refine congrArg (BytesN.ofBytes 96) (List.flatMap_congr fun i hi => ?_)
  refine congrArg (fun m => (generateHash m).1) (List.flatMap_congr fun j hj => congrArg le64 ?_)
  have hi' := List.mem_range.mp hi
  have hj' := List.mem_range.mp hj
  dsimp only [featureNum, sfNum] at hi' hj' ⊢
  rw [getD_flatMap_range 0 hi' (fun j hj => ?_) hj', ← hgroup j hj']
  · exact (List.getD_map ..).symm
  · rw [List.length_mergeSort, take_drop_twelve _ hj]
    rfl

theorem getSF2_eq (generateHash : Bytes → Fp) (ptr : Mem) (chunkSize : Nat) :
    getSF2 generateHash ptr chunkSize = superFeatures generateHash (slice ptr 0 chunkSize) := by
  have h := getSF2_eq_of_slice generateHash
    (show slice ptr 0 (slice ptr 0 chunkSize).length = slice ptr 0 chunkSize by rw [length_slice])
  rwa [length_slice] at h

/-! ## The batch -/

/-- A chunk of a batch is what its place in the receive buffer holds. -/
theorem eq_slice_of_mem_parseChunks {recvBuffer : Bytes} : ∀ {chunkNum currentOffset : Nat},
    ∀ c ∈ parseChunks recvBuffer chunkNum currentOffset,
      c.2 = slice (fun i => memOf recvBuffer (c.1 + i)) 0 c.2.length
  | 0, _, c, hc => by cases hc
  | n + 1, off, c, hc => by
      rw [parseChunks] at hc
      rcases List.mem_cons.mp hc with rfl | hc
      · simp [slice]
      · exact eq_slice_of_mem_parseChunks c hc

/-- The environment computes super-features as the code does. -/
def ComputesSF2 (env : Env) : Prop :=
  ∀ recvBuffer currentOffset chunkSize, env.getSF2 recvBuffer currentOffset chunkSize =
    getSF2 env.generateHash (fun i => memOf recvBuffer (currentOffset + i)) chunkSize

/-- The super-features that a batch stores under are those of its chunks. -/
theorem outEntrySFGet_superfeature {env : Env} (henv : ComputesSF2 env) {recvBuffer : Bytes}
    {chunkNum : Nat} {e : InQueryEntry}
    (he : (e.currentOffset, e.chunk) ∈ parseChunks recvBuffer chunkNum 0) {o : OutQueryEntry}
    (hout : e.out = some o) (hnew : o.dedupFlag = .unique) :
    ((outEntrySFGet env recvBuffer e).out.map OutQueryEntry.superfeature) =
      some (superFeatures env.generateHash e.chunk) := by
  have hslice := eq_slice_of_mem_parseChunks _ he
  rw [outEntrySFGet, mapOut, hout]
  simp only [Option.map_some, if_pos hnew, henv recvBuffer, getSF2_eq, ← hslice]

/-! ## The threads -/

/-- `Param`, without the entry that gets the result. -/
structure Param where
  ptr : Mem
  chunksize : Nat

abbrev threadNum : Nat := 3

structure GetSFTask where
  first : Nat
  last : Nat

/-- The block of a thread, of `size` chunks. -/
def getSFTask (size : Nat) (i : Fin threadNum) : GetSFTask where
  first := size / threadNum * i
  last := if i.val = threadNum - 1 ∧ size % threadNum ≠ 0 then size
    else size / threadNum * (i + 1)

/-- Where each thread is, the super-features of the chunks, and the chunks
that were handled, the latest first. -/
structure Workers where
  next : Fin threadNum → Nat
  superfeature : Nat → Option Sf
  handled : List Nat

namespace Workers

variable (generateHash : Bytes → Fp) (params : List Param)

def start : Workers where
  next := fun i => (getSFTask params.length i).first
  superfeature := fun _ => none
  handled := []

/-- A round of `GetSF_thread_func_f` in one thread. -/
def step (w : Workers) (i : Fin threadNum) : Workers :=
  if w.next i < (getSFTask params.length i).last then
    match params[w.next i]? with
    | some param =>
        { next := Function.update w.next i (w.next i + 1)
          superfeature := Function.update w.superfeature (w.next i)
            (some (getSF2 generateHash param.ptr param.chunksize))
          handled := w.next i :: w.handled }
    | none => w
  else w

/-- Every `pthread_join` has returned. -/
def Joined (w : Workers) : Prop := ∀ i, (getSFTask params.length i).last ≤ w.next i

/-- The threads in any order. -/
def run (schedule : List (Fin threadNum)) : Workers :=
  schedule.foldl (step generateHash params) (start params)

end Workers

/-! ## The blocks -/

theorem getSFTask_first_le (size : Nat) (i : Fin threadNum) :
    (getSFTask size i).first ≤ (getSFTask size i).last := by
  have hi := i.isLt
  simp only [getSFTask]
  split
  · exact (Nat.mul_le_mul_left _ hi.le).trans (Nat.div_mul_le_self ..)
  · exact Nat.mul_le_mul_left _ (Nat.le_succ _)

theorem getSFTask_last_le (size : Nat) (i : Fin threadNum) : (getSFTask size i).last ≤ size := by
  simp only [getSFTask]
  split
  · exact Nat.le_refl _
  · exact (Nat.mul_le_mul_left _ i.isLt).trans (Nat.div_mul_le_self ..)

/-- No chunk is in two blocks. -/
theorem getSFTask_order (size : Nat) {i j : Fin threadNum} (hij : i < j) :
    (getSFTask size i).last ≤ (getSFTask size j).first := by
  have hi : i.val ≠ threadNum - 1 := by
    have hj := j.isLt
    have hlt : i.val < j.val := hij
    omega
  simp only [getSFTask]
  rw [if_neg fun h => hi h.1]
  exact Nat.mul_le_mul_left _ hij

theorem getSFTask_disjoint {size k : Nat} {i j : Fin threadNum}
    (hi : (getSFTask size i).first ≤ k ∧ k < (getSFTask size i).last)
    (hj : (getSFTask size j).first ≤ k ∧ k < (getSFTask size j).last) : i = j := by
  rcases lt_trichotomy i j with hlt | rfl | hlt
  · have horder := getSFTask_order size hlt
    omega
  · rfl
  · have horder := getSFTask_order size hlt
    omega

/-- Every chunk is in a block. -/
theorem getSFTask_cover {size k : Nat} (hk : k < size) :
    ∃ i, (getSFTask size i).first ≤ k ∧ k < (getSFTask size i).last := by
  have hzero : (getSFTask size 0).first = 0 := Nat.mul_zero _
  have hone : (getSFTask size 0).last = (getSFTask size 1).first := rfl
  have htwo : (getSFTask size 1).last = (getSFTask size 2).first := rfl
  have hlast : (getSFTask size 2).last = size := by
    simp only [getSFTask, threadNum]
    split
    · rfl
    · rename_i hdiv
      have hdiv' : size % 3 = 0 := by
        by_contra hne
        exact hdiv ⟨rfl, hne⟩
      change size / 3 * 3 = size
      omega
  by_cases ha : k < (getSFTask size 0).last
  · exact ⟨0, by omega, ha⟩
  · by_cases hb : k < (getSFTask size 1).last
    · exact ⟨1, by omega, hb⟩
    · exact ⟨2, by omega, by omega⟩

/-- `param_list`: the chunks of a batch that are new to the whole store. -/
def paramList (recvBuffer : Bytes) (entries : List InQueryEntry) : List Param :=
  entries.filterMap fun e => match e.out with
    | some o => if o.dedupFlag = .unique
        then some ⟨fun i => memOf recvBuffer (e.currentOffset + i), e.chunk.length⟩ else none
    | none => none

/-- The super-features of the entries that are new, after `OutEntrySFGet`. -/
def newSuperfeatures (entries : List InQueryEntry) : List Sf :=
  entries.filterMap fun e => match e.out with
    | some o => if o.dedupFlag = .unique then some o.superfeature else none
    | none => none

/-- What the threads compute for `param_list` is what the entries get. -/
theorem newSuperfeatures_outEntrySFGet {env : Env} (henv : ComputesSF2 env) (recvBuffer : Bytes)
    (entries : List InQueryEntry) :
    newSuperfeatures (entries.map (outEntrySFGet env recvBuffer)) =
      (paramList recvBuffer entries).map fun p => getSF2 env.generateHash p.ptr p.chunksize := by
  rw [newSuperfeatures, List.filterMap_map, paramList, List.map_filterMap]
  refine List.filterMap_congr fun e _ => ?_
  cases hout : e.out with
  | none => simp [outEntrySFGet, mapOut, hout]
  | some o =>
      by_cases hnew : o.dedupFlag = .unique
      · simp [outEntrySFGet, mapOut, hout, hnew, henv recvBuffer]
      · simp [outEntrySFGet, mapOut, hout, hnew]

/-- What holds at every point of a run of the threads. -/
structure Workers.Sound (generateHash : Bytes → Fp) (params : List Param) (w : Workers) : Prop where
  lower : ∀ i, (getSFTask params.length i).first ≤ w.next i
  upper : ∀ i, w.next i ≤ (getSFTask params.length i).last
  nodup : w.handled.Nodup
  mem : ∀ k, k ∈ w.handled ↔ ∃ i, (getSFTask params.length i).first ≤ k ∧ k < w.next i
  written : ∀ k ∈ w.handled, ∃ param, params[k]? = some param ∧
    w.superfeature k = some (getSF2 generateHash param.ptr param.chunksize)

namespace Workers

variable {generateHash : Bytes → Fp} {params : List Param}

theorem sound_start : Sound generateHash params (start params) where
  lower _ := Nat.le_refl _
  upper i := getSFTask_first_le params.length i
  nodup := .nil
  mem k := by
    simp only [start, List.not_mem_nil, false_iff, not_exists]
    intro i
    omega
  written k hk := by cases hk

/-- A thread that is not done handles the next chunk of its block. -/
theorem Sound.step {w : Workers} (h : Sound generateHash params w) {i : Fin threadNum}
    (hi : w.next i < (getSFTask params.length i).last) :
    Sound generateHash params (w.step generateHash params i) ∧
      (w.step generateHash params i).handled = w.next i :: w.handled := by
  have hin : w.next i < params.length := hi.trans_le (getSFTask_last_le _ i)
  have hnew : w.next i ∉ w.handled := by
    intro hold
    obtain ⟨j, hj⟩ := (h.mem _).mp hold
    have hij : i = j := getSFTask_disjoint ⟨h.lower i, hi⟩ ⟨hj.1, hj.2.trans_le (h.upper j)⟩
    rw [← hij] at hj
    omega
  have hstep : w.step generateHash params i =
      { next := Function.update w.next i (w.next i + 1)
        superfeature := Function.update w.superfeature (w.next i)
          (some (getSF2 generateHash params[w.next i].ptr params[w.next i].chunksize))
        handled := w.next i :: w.handled } := by
    rw [Workers.step, if_pos hi, List.getElem?_eq_getElem hin]
  have hother : ∀ {j}, j ≠ i → (w.step generateHash params i).next j = w.next j := fun hj => by
    rw [hstep]
    exact Function.update_of_ne hj ..
  have hself : (w.step generateHash params i).next i = w.next i + 1 := by
    rw [hstep]
    exact Function.update_self ..
  have hhandled : (w.step generateHash params i).handled = w.next i :: w.handled := by
    rw [hstep]
  refine ⟨⟨fun j => ?_, fun j => ?_, ?_, fun k => ?_, fun k hk => ?_⟩, hhandled⟩
  · by_cases hj : j = i
    · subst hj
      exact hself ▸ (h.lower j).trans (Nat.le_succ _)
    · exact hother hj ▸ h.lower j
  · by_cases hj : j = i
    · subst hj
      exact hself ▸ hi
    · exact hother hj ▸ h.upper j
  · exact hhandled ▸ List.nodup_cons.mpr ⟨hnew, h.nodup⟩
  · rw [hhandled, List.mem_cons, h.mem]
    constructor
    · rintro (rfl | ⟨j, hj⟩)
      · exact ⟨i, h.lower i, hself ▸ Nat.lt_succ_self _⟩
      · refine ⟨j, hj.1, ?_⟩
        by_cases hji : j = i
        · subst hji
          exact hself ▸ hj.2.trans (Nat.lt_succ_self _)
        · exact hother hji ▸ hj.2
    · rintro ⟨j, hlow, hlt⟩
      by_cases hji : j = i
      · subst hji
        rw [hself] at hlt
        rcases Nat.lt_succ_iff_lt_or_eq.mp hlt with hlt | rfl
        · exact .inr ⟨j, hlow, hlt⟩
        · exact .inl rfl
      · rw [hother hji] at hlt
        exact .inr ⟨j, hlow, hlt⟩
  · rw [hhandled] at hk
    rw [hstep]
    by_cases hki : k = w.next i
    · subst hki
      exact ⟨_, List.getElem?_eq_getElem hin, Function.update_self ..⟩
    · obtain ⟨param, hparam, hsf⟩ := h.written k ((List.mem_cons.mp hk).resolve_left hki)
      exact ⟨param, hparam, (Function.update_of_ne hki ..).trans hsf⟩

theorem sound_run (schedule : List (Fin threadNum)) :
    Sound generateHash params (run generateHash params schedule) := by
  refine foldl_inv (fun w i h => ?_) schedule _ sound_start
  by_cases hi : w.next i < (getSFTask params.length i).last
  · exact (h.step hi).1
  · rw [Workers.step, if_neg hi]
    exact h

end Workers

/-- Super-features are the hashes that `superFeatures` says, of the chunk alone; the
threads, in any order, handle each chunk once and leave its super-features, and
a thread that is not done can go on. -/
theorem superFeatures_threads (generateHash : Bytes → Fp) (params : List Param)
    (schedule : List (Fin threadNum)) :
    (∀ ptr chunkSize,
      getSF2 generateHash ptr chunkSize = superFeatures generateHash (slice ptr 0 chunkSize)) ∧
    (Workers.Joined params (Workers.run generateHash params schedule) →
      (Workers.run generateHash params schedule).handled.Perm (List.range params.length) ∧
      ∀ k (h : k < params.length), (Workers.run generateHash params schedule).superfeature k =
        some (superFeatures generateHash (slice (params.get ⟨k, h⟩).ptr 0 (params.get ⟨k, h⟩).chunksize))) ∧
    (¬ Workers.Joined params (Workers.run generateHash params schedule) →
      ∃ i, (Workers.run generateHash params (schedule ++ [i])).handled.length =
        (Workers.run generateHash params schedule).handled.length + 1) := by
  have hsound : (Workers.run generateHash params schedule).Sound generateHash params :=
    Workers.sound_run schedule
  refine ⟨getSF2_eq generateHash, fun hjoined => ?_, fun hnot => ?_⟩
  · have hmem : ∀ k, k ∈ (Workers.run generateHash params schedule).handled ↔ k < params.length := by
      intro k
      rw [hsound.mem]
      constructor
      · rintro ⟨i, _, hlt⟩
        exact hlt.trans_le ((hsound.upper i).trans (getSFTask_last_le _ i))
      · intro hk
        obtain ⟨i, hlow, hlt⟩ := getSFTask_cover hk
        exact ⟨i, hlow, hlt.trans_le (hjoined i)⟩
    refine ⟨(List.perm_ext_iff_of_nodup hsound.nodup List.nodup_range).mpr fun k => ?_, fun k hk => ?_⟩
    · rw [hmem, List.mem_range]
    · obtain ⟨param, hparam, hsf⟩ := hsound.written k ((hmem k).mpr hk)
      rw [List.getElem?_eq_getElem hk] at hparam
      obtain rfl := Option.some.inj hparam
      rw [hsf, getSF2_eq]
      rfl
  · obtain ⟨i, hi⟩ := not_forall.mp hnot
    refine ⟨i, ?_⟩
    have hstep := (hsound.step (Nat.lt_of_not_le hi)).2
    rw [Workers.run, List.foldl_append]
    exact congrArg List.length hstep

/-- Two chunks of one byte: the third block holds both. -/
theorem superFeatures_threads_two :
    (Workers.run (fun _ => BytesN.ofBytes 32 []) [⟨fun _ => 7, 1⟩, ⟨fun i => UInt8.ofNat i, 1⟩]
      [2, 0, 2]).handled.Perm [0, 1] :=
  ((superFeatures_threads (fun _ => BytesN.ofBytes 32 [])
    [⟨fun _ => 7, 1⟩, ⟨fun i => UInt8.ofNat i, 1⟩] [2, 0, 2]).2.1 (by
      intro i
      match i with
      | 0 => exact Nat.le_refl _
      | 1 => exact Nat.le_refl _
      | 2 => exact Nat.le_refl _)).1

end EcallFreqIndex

end ShieldReduce
