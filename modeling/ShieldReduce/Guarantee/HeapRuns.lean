import ShieldReduce.Guarantee.TopK

/-!
# Runs of the heap

`Add`, `Pop` and `Update` in any order, from the empty heap or from one
that was loaded. Each call keeps `EntryHeap.Kept`, so after every run the
parents are not above their children, list and map agree, and every entry
knows its place. `EcallFreqIndex` reaches the heap through `updateHeap`
only; `heapCalls` says which calls that makes, and no prefix of them takes
the heap over `topThreshold_`.

Positions are numbers here and 32-bit words in the source. The enclave has
`0x160000000` bytes of memory, which hold fewer than `2^31` entries.
-/

namespace ShieldReduce

open ByteLib UMapLib MinHeapLib

namespace EntryHeap

/-! ## Calls -/

/-- A call that changes the heap. -/
inductive Call where
  | add (key : Fp) (value : HeapItem)
  | pop
  | update (key : Fp) (freq : UInt32)

def call (h : EntryHeap) : Call → EntryHeap
  | .add key value => h.add key value
  | .pop => h.pop
  | .update key freq => h.update key freq

/-- What the callers see to. -/
def Allowed (h : EntryHeap) : Call → Prop
  | .add key _ => h.contains key = false
  | .pop => 2 ≤ h.size
  | .update key _ => h.contains key = true

instance (h : EntryHeap) : (c : Call) → Decidable (h.Allowed c)
  | .add key _ => inferInstanceAs (Decidable (h.contains key = false))
  | .pop => inferInstanceAs (Decidable (2 ≤ h.size))
  | .update key _ => inferInstanceAs (Decidable (h.contains key = true))

def run (h : EntryHeap) (calls : List Call) : EntryHeap := calls.foldl call h

/-- Every call of the run is allowed when it is made. -/
def AllowedRun : EntryHeap → List Call → Prop
  | _, [] => True
  | h, c :: calls => h.Allowed c ∧ (h.call c).AllowedRun calls

instance decidableAllowedRun : (h : EntryHeap) → (calls : List Call) → Decidable (h.AllowedRun calls)
  | _, [] => inferInstanceAs (Decidable True)
  | h, c :: calls =>
      have := decidableAllowedRun (h.call c) calls
      inferInstanceAs (Decidable (h.Allowed c ∧ (h.call c).AllowedRun calls))

theorem run_append (h : EntryHeap) (calls calls' : List Call) :
    h.run (calls ++ calls') = (h.run calls).run calls' := List.foldl_append

theorem allowedRun_append {h : EntryHeap} {calls calls' : List Call} :
    h.AllowedRun (calls ++ calls') ↔ h.AllowedRun calls ∧ (h.run calls).AllowedRun calls' := by
  induction calls generalizing h with
  | nil => exact (iff_of_eq (true_and _)).symm
  | cons c calls ih =>
      rw [List.cons_append, AllowedRun, ih, AllowedRun, and_assoc]
      rfl

/-- One call keeps the invariant. -/
theorem Kept.call {h : EntryHeap} (hk : h.Kept) {c : Call} (hc : h.Allowed c) : (h.call c).Kept := by
  cases c with
  | add key value => exact (add_spec hk hc value).1
  | pop => exact (pop_spec hk hc).1
  | update key freq => exact (update_spec hk hc freq).1

theorem Kept.run {h : EntryHeap} (hk : h.Kept) {calls : List Call} (hc : h.AllowedRun calls) :
    (h.run calls).Kept := by
  induction calls generalizing h with
  | nil => exact hk
  | cons c calls ih => exact ih (hk.call hc.1) hc.2

/-! ## What a pop leaves -/

/-- Address and frequency of an entry, without its place. -/
def payload (h : EntryHeap) (k : Fp) : Option (RecipeEntry × UInt32) :=
  (h.getPriority k).map fun item => (item.address, item.chunkFreq)

theorem payload_modifyItem_idx (h : EntryHeap) (key : Fp) (i : Nat) (k : Fp) :
    (h.modifyItem key fun item => { item with idx := i }).payload k = h.payload k := by
  unfold payload
  rw [getPriority_modifyItem]
  split
  · rename_i hk
    rw [hk, Option.map_map]
    rfl
  · rfl

theorem payload_swapDown (fuel : Nat) (h : EntryHeap) (idx : Nat) (k : Fp) :
    (swapDown fuel h idx).1.payload k = h.payload k := by
  induction fuel generalizing h idx with
  | zero => rfl
  | succ fuel ih =>
      rw [swapDown]
      split
      · rw [ih, swap, payload_modifyItem_idx]
        rfl
      · rfl

theorem payload_pop (h : EntryHeap) (k : Fp) :
    h.pop.payload k = if k = h.keyAt 0 then none else h.payload k := by
  have hpop : h.pop.payload k = h.withoutTop.payload k := by
    rw [pop, setIdx, payload_modifyItem_idx, payload_swapDown]
    rfl
  rw [hpop, payload, getPriority, withoutTop, lookup_erase_if]
  split <;> rfl

/-! ## What the invariant says -/

theorem freqAt_eq {h : EntryHeap} {k : Fp} {item : HeapItem} (hitem : h.getPriority k = some item)
    {i : Nat} (hi : h.keyAt i = k) : h.freqAt i = item.chunkFreq := by
  rw [getPriority] at hitem
  rw [freqAt, hi, hitem]
  rfl

theorem Kept.parent_le {h : EntryHeap} (hk : h.Kept) {i : Nat} (hpos : 0 < i) (hi : i < h.size) :
    h.freqAt ((i - 1) / 2) ≤ h.freqAt i :=
  UInt32.le_iff_toNat_le.mpr (hk.ordered i hpos hi)

theorem Kept.top_le {h : EntryHeap} (hk : h.Kept) {k : Fp} {item : HeapItem}
    (hitem : h.getPriority k = some item) : h.topEntry ≤ item.chunkFreq := by
  have hin : h.contains k = true := by
    rw [getPriority] at hitem
    rw [contains, hitem]
    rfl
  obtain ⟨i, hi, hkey⟩ := exists_keyAt hk.indexed hin
  rw [← freqAt_eq hitem hkey]
  exact UInt32.le_iff_toNat_le.mpr (hk.ordered.root_le hi)

/-- The entry of the first position. -/
theorem Kept.exists_top {h : EntryHeap} (hk : h.Kept) (hne : 0 < h.size) :
    ∃ item, h.getPriority (h.keyAt 0) = some item ∧ h.topEntry = item.chunkFreq := by
  have hplaced := hk.placed 0 hne
  obtain ⟨item, hitem, -⟩ := Option.map_eq_some_iff.mp hplaced
  exact ⟨item, hitem, freqAt_eq hitem rfl⟩

end EntryHeap

namespace EcallFreqIndex

/-! ## The calls of `EcallFreqIndex` -/

/-- The calls of the heap update for one entry. -/
def entryCalls (env : Env) (heap : EntryHeap) (e : InQueryEntry) : List EntryHeap.Call :=
  if (e.dedupFlag = .unique ∨ e.dedupFlag = .duplicate) ∧ checkIfAddToHeap env heap e.chunkFreq then
    if heap.contains e.chunkHash then [.update e.chunkHash e.chunkFreq]
    else (if heap.size = env.topThreshold then [.pop] else []) ++
      [.add e.chunkHash ⟨e.chunkAddr, e.chunkFreq, 0⟩]
  else []

/-- The calls of the heap updates for the entries of some batches. -/
def heapCalls (env : Env) : EntryHeap → List InQueryEntry → List EntryHeap.Call
  | _, [] => []
  | heap, e :: es => entryCalls env heap e ++ heapCalls env (updateHeap env heap e) es

theorem run_entryCalls (env : Env) (heap : EntryHeap) (e : InQueryEntry) :
    heap.run (entryCalls env heap e) = updateHeap env heap e := by
  unfold entryCalls updateHeap
  split
  · split
    · rfl
    · unfold addChunkToHeap
      split <;> rfl
  · rfl

theorem run_heapCalls (env : Env) (heap : EntryHeap) (es : List InQueryEntry) :
    heap.run (heapCalls env heap es) = es.foldl (updateHeap env) heap := by
  induction es generalizing heap with
  | nil => rfl
  | cons e es ih =>
      rw [heapCalls, EntryHeap.run_append, run_entryCalls, ih]
      rfl

/-- Where the heap holds at least two entries before it is full, every call is allowed. -/
theorem allowedRun_entryCalls {env : Env} (hthr : 2 ≤ env.topThreshold) (heap : EntryHeap)
    (e : InQueryEntry) : heap.AllowedRun (entryCalls env heap e) := by
  unfold entryCalls
  split
  · split
    · rename_i hin
      exact ⟨hin, trivial⟩
    · rename_i hnew
      rw [Bool.not_eq_true] at hnew
      split
      · rename_i hfull
        have htwo : 2 ≤ heap.size := hfull.symm ▸ hthr
        refine ⟨htwo, ?_, trivial⟩
        change heap.pop.contains e.chunkHash = false
        by_contra hc
        rw [Bool.not_eq_false] at hc
        rw [EntryHeap.contains_pop hc] at hnew
        cases hnew
      · exact ⟨hnew, trivial⟩
  · trivial

theorem allowedRun_heapCalls {env : Env} (hthr : 2 ≤ env.topThreshold) (heap : EntryHeap)
    (es : List InQueryEntry) : heap.AllowedRun (heapCalls env heap es) := by
  induction es generalizing heap with
  | nil => trivial
  | cons e es ih =>
      rw [heapCalls, EntryHeap.allowedRun_append, run_entryCalls]
      exact ⟨allowedRun_entryCalls hthr heap e, ih _⟩

theorem prefix_singleton {c : EntryHeap.Call} {calls : List EntryHeap.Call} (h : calls <+: [c]) :
    calls = [] ∨ calls = [c] := by
  rcases List.prefix_cons_iff.mp h with rfl | ⟨rest, rfl, hrest⟩
  · exact Or.inl rfl
  · rw [List.prefix_nil.mp hrest]
    exact Or.inr rfl

theorem prefix_append {calls calls' made : List EntryHeap.Call} (h : made <+: calls ++ calls') :
    made <+: calls ∨ ∃ rest, made = calls ++ rest ∧ rest <+: calls' := by
  obtain ⟨rest, hrest⟩ := h
  rcases List.append_eq_append_iff.mp hrest with ⟨mid, hmid, -⟩ | ⟨mid, hmid, hmid'⟩
  · exact Or.inl ⟨mid, hmid.symm⟩
  · exact Or.inr ⟨mid, hmid, rest, hmid'.symm⟩

/-- No call for an entry takes the heap over the threshold. -/
theorem size_entryCalls {env : Env} {heap : EntryHeap} (hk : heap.Kept)
    (hsize : heap.size ≤ env.topThreshold) {e : InQueryEntry}
    (hallowed : heap.AllowedRun (entryCalls env heap e)) {calls : List EntryHeap.Call}
    (hsub : calls <+: entryCalls env heap e) : (heap.run calls).size ≤ env.topThreshold := by
  unfold entryCalls at hallowed hsub
  split at hallowed
  · rename_i hcheck
    rw [if_pos hcheck] at hsub
    split at hallowed
    · rename_i hin
      rw [if_pos hin] at hsub
      rcases prefix_singleton hsub with rfl | rfl
      · exact hsize
      · exact (EntryHeap.update_spec hk hin e.chunkFreq).2.1 ▸ hsize
    · rename_i hnew
      rw [if_neg hnew] at hsub
      split at hallowed
      · rename_i hfull
        rw [if_pos hfull] at hsub
        obtain ⟨hpop, hadd, -⟩ := hallowed
        obtain ⟨hkept, hless, -⟩ := EntryHeap.pop_spec hk hpop
        rcases List.prefix_cons_iff.mp hsub with rfl | ⟨calls, rfl, hcalls⟩
        · exact hsize
        rcases prefix_singleton hcalls with rfl | rfl
        · change heap.pop.size ≤ _
          omega
        · have hgrown := (EntryHeap.add_spec hkept hadd ⟨e.chunkAddr, e.chunkFreq, 0⟩).2.1
          change (heap.pop.add e.chunkHash ⟨e.chunkAddr, e.chunkFreq, 0⟩).size ≤ _
          have hpos : 2 ≤ heap.size := hpop
          omega
      · rename_i hroom
        rw [if_neg hroom] at hsub
        rcases prefix_singleton hsub with rfl | rfl
        · exact hsize
        · have hgrown := (EntryHeap.add_spec hk hallowed.1 ⟨e.chunkAddr, e.chunkFreq, 0⟩).2.1
          change (heap.add e.chunkHash ⟨e.chunkAddr, e.chunkFreq, 0⟩).size ≤ _
          omega
  · rename_i hcheck
    rw [if_neg hcheck] at hsub
    rw [List.prefix_nil.mp hsub]
    exact hsize

theorem size_heapCalls {env : Env} {heap : EntryHeap} (hk : heap.Kept)
    (hsize : heap.size ≤ env.topThreshold) {es : List InQueryEntry}
    (hallowed : heap.AllowedRun (heapCalls env heap es)) {calls : List EntryHeap.Call}
    (hsub : calls <+: heapCalls env heap es) : (heap.run calls).size ≤ env.topThreshold := by
  induction es generalizing heap calls with
  | nil =>
      rw [List.prefix_nil.mp hsub]
      exact hsize
  | cons e es ih =>
      rw [heapCalls] at hsub
      rw [heapCalls, EntryHeap.allowedRun_append] at hallowed
      rcases prefix_append hsub with hshort | ⟨calls, rfl, hcalls⟩
      · exact size_entryCalls hk hsize hallowed.1 hshort
      · have hnext := size_entryCalls hk hsize hallowed.1 List.prefix_rfl
        have hkept := hk.run hallowed.1
        rw [run_entryCalls] at hnext hkept hallowed
        rw [EntryHeap.run_append, run_entryCalls]
        exact ih hkept hnext hallowed.2 hcalls

/-- **The representation of the heap.** After every run of allowed calls from a valid
heap the frequencies are in heap order, list and map hold the same fingerprints,
every entry knows its place, and the first one is a least one. A pop takes that
one away and nothing else. The calls that `EcallFreqIndex` makes for its entries
never take the heap over the threshold. -/
theorem heap_runs {start : EntryHeap} (hstart : start.Kept) {calls : List EntryHeap.Call}
    (hallowed : start.AllowedRun calls) :
    let h := start.run calls
    (∀ i, 0 < i → i < h.size → h.freqAt ((i - 1) / 2) ≤ h.freqAt i) ∧
      h.heap.Nodup ∧ (∀ k, k ∈ h.heap ↔ (h.getPriority k).isSome = true) ∧
      (∀ i < h.size, ∃ item, h.getPriority (h.keyAt i) = some item ∧ item.idx = i) ∧
      (0 < h.size → ∃ item, h.getPriority (h.keyAt 0) = some item ∧ h.topEntry = item.chunkFreq) ∧
      (∀ k item, h.getPriority k = some item → h.topEntry ≤ item.chunkFreq) ∧
      (2 ≤ h.size → ∃ top item, h.getPriority top = some item ∧
        (∀ k other, h.getPriority k = some other → item.chunkFreq ≤ other.chunkFreq) ∧
        h.pop.getPriority top = none ∧ ∀ k, k ≠ top → h.pop.payload k = h.payload k) ∧
      ∀ (env : Env) (es : List InQueryEntry),
        h.run (heapCalls env h es) = es.foldl (updateHeap env) h ∧
        (2 ≤ env.topThreshold → h.AllowedRun (heapCalls env h es)) ∧
        (h.size ≤ env.topThreshold → h.AllowedRun (heapCalls env h es) →
          ∀ made, made <+: heapCalls env h es → (h.run made).size ≤ env.topThreshold) := by
  intro h
  have hk : h.Kept := hstart.run hallowed
  refine ⟨fun i => hk.parent_le, hk.indexed.nodup, hk.indexed.mem, fun i hi => ?_, hk.exists_top,
    fun k item => hk.top_le, fun hsize => ?_, fun env es => ⟨run_heapCalls env h es, fun hthr =>
      allowedRun_heapCalls hthr h es, fun hsize hcalls made => size_heapCalls hk hsize hcalls⟩⟩
  · exact Option.map_eq_some_iff.mp (hk.placed i hi)
  · obtain ⟨item, hitem, htop⟩ := hk.exists_top (by omega)
    have hgone := EntryHeap.payload_pop h (h.keyAt 0)
    rw [if_pos rfl] at hgone
    refine ⟨h.keyAt 0, item, hitem, fun k other hother => htop ▸ hk.top_le hother,
      Option.map_eq_none_iff.mp hgone, fun k hne => ?_⟩
    rw [EntryHeap.payload_pop, if_neg hne]

/-- Three additions, a pop and an update that sinks the first entry. -/
def threeAdded : List EntryHeap.Call :=
  [.add (BytesN.ofBytes 32 [1]) ⟨RecipeEntry.ofBytes [], 5, 0⟩,
    .add (BytesN.ofBytes 32 [2]) ⟨RecipeEntry.ofBytes [], 3, 0⟩,
    .add (BytesN.ofBytes 32 [3]) ⟨RecipeEntry.ofBytes [], 4, 0⟩,
    .pop, .update (BytesN.ofBytes 32 [3]) 9]

theorem heap_runs_threeAdded : (EntryHeap.empty.run threeAdded).heap.Nodup ∧
    (EntryHeap.empty.run threeAdded).freqAt 0 ≤ (EntryHeap.empty.run threeAdded).freqAt 1 := by
  obtain ⟨hparent, hnodup, _⟩ := heap_runs EntryHeap.kept_empty
    (by decide +kernel : EntryHeap.empty.AllowedRun threeAdded)
  exact ⟨hnodup, hparent 1 (by decide) (by decide +kernel)⟩

end EcallFreqIndex

end ShieldReduce
