import ShieldReduce.Enclave.FreqState
import ShieldReduce.Lib.MinHeap

/-!
# The heap of frequent chunks and its sketch

`EntryHeap` keeps its entries twice: the list `heap` in heap order, and the
map `index` with each entry's frequency and place. The invariant `Kept`
says that both hold the same fingerprints, that every entry knows its
place, and that the list is in heap order. A sift carries one entry whose
place is out of date (`Carried`); `Pop`, `Add` and `Update` write it down at
the end.

The sketch counts exactly as long as no counter overflows (`Counted`), so
its estimates never fall and never under-count.
-/

namespace ShieldReduce

open ByteLib UMapLib MinHeapLib

namespace EntryHeap

/-! ## Entries and places -/

/-- The frequency of an entry, and 0 of a fingerprint that is not in the heap. -/
def freqOf (h : EntryHeap) (k : Fp) : Nat :=
  (((h.getPriority k).map HeapItem.chunkFreq).getD 0).toNat

/-- The priorities of the heap, by position. -/
def prio (h : EntryHeap) (i : Nat) : Nat := h.freqOf (h.keyAt i)

theorem freqAt_lt_iff (h : EntryHeap) (i j : Nat) : h.freqAt i < h.freqAt j ↔ h.prio i < h.prio j :=
  UInt32.lt_iff_toNat_lt

/-- List and map hold the same fingerprints. -/
structure Indexed (h : EntryHeap) : Prop where
  nodup : h.heap.Nodup
  mem : ∀ k, k ∈ h.heap ↔ h.contains k = true

/-- Every entry but the one at `hole` knows its place. -/
def Placed (h : EntryHeap) (hole : Nat) : Prop :=
  ∀ i < h.size, i ≠ hole → (h.getPriority (h.keyAt i)).map HeapItem.idx = some i

/-- The invariant of the heap. -/
structure Kept (h : EntryHeap) : Prop where
  indexed : h.Indexed
  placed : ∀ i < h.size, (h.getPriority (h.keyAt i)).map HeapItem.idx = some i
  ordered : Ordered h.size h.prio

theorem keyAt_eq {h : EntryHeap} {i : Nat} (hi : i < h.heap.length) : h.keyAt i = h.heap[i] := by
  rw [keyAt, List.getD_eq_getElem?_getD, List.getElem?_eq_getElem hi]
  rfl

theorem keyAt_mem {h : EntryHeap} {i : Nat} (hi : i < h.size) : h.keyAt i ∈ h.heap := by
  rw [keyAt_eq hi]
  exact List.getElem_mem hi

theorem keyAt_inj {h : EntryHeap} (hh : h.Indexed) {i j : Nat} (hi : i < h.size) (hj : j < h.size)
    (heq : h.keyAt i = h.keyAt j) : i = j := by
  rw [keyAt_eq hi, keyAt_eq hj] at heq
  exact (List.Nodup.getElem_inj_iff hh.nodup).mp heq

theorem exists_keyAt {h : EntryHeap} (hh : h.Indexed) {k : Fp} (hk : h.contains k = true) :
    ∃ i < h.size, h.keyAt i = k := by
  obtain ⟨i, hi, rfl⟩ := List.mem_iff_getElem.mp ((hh.mem k).mpr hk)
  exact ⟨i, hi, keyAt_eq hi⟩

theorem getPriority_modifyItem (h : EntryHeap) (key : Fp) (f : HeapItem → HeapItem) (k : Fp) :
    (h.modifyItem key f).getPriority k =
      if k = key then (h.getPriority key).map f else h.getPriority k := by
  unfold modifyItem getPriority
  split
  · rename_i item hitem
    rw [lookup_eq_if, hitem]
    rfl
  · rename_i hnone
    split
    · rename_i hk
      rw [hk, hnone]
      rfl
    · rfl

@[simp] theorem heap_modifyItem (h : EntryHeap) (key : Fp) (f : HeapItem → HeapItem) :
    (h.modifyItem key f).heap = h.heap := by
  unfold modifyItem
  split <;> rfl

/-- A change of an entry's place is no change of a frequency. -/
theorem freqOf_modifyItem_idx (h : EntryHeap) (key : Fp) (i : Nat) (k : Fp) :
    (h.modifyItem key fun item => { item with idx := i }).freqOf k = h.freqOf k := by
  unfold freqOf
  rw [getPriority_modifyItem]
  split
  · rename_i hk
    rw [hk, Option.map_map]
    rfl
  · rfl

/-! ## Sifts -/

/-- What a sift does: it takes the entry at `idx` to `idx'`. -/
structure Carried (h : EntryHeap) (idx : Nat) (h' : EntryHeap) (idx' : Nat) : Prop where
  perm : h'.heap.Perm h.heap
  contains : ∀ k, h'.contains k = h.contains k
  freq : ∀ k, h'.freqOf k = h.freqOf k
  key : h'.keyAt idx' = h.keyAt idx
  bound : idx' < h'.size
  placed : h.Placed idx → h'.Placed idx'

theorem Carried.refl {h : EntryHeap} {idx : Nat} (hi : idx < h.size) : Carried h idx h idx :=
  ⟨List.Perm.refl _, fun _ => rfl, fun _ => rfl, rfl, hi, id⟩

theorem Carried.trans {h h' h'' : EntryHeap} {idx idx' idx'' : Nat} (hc : Carried h idx h' idx')
    (hc' : Carried h' idx' h'' idx'') : Carried h idx h'' idx'' :=
  ⟨hc'.perm.trans hc.perm, fun k => (hc'.contains k).trans (hc.contains k),
    fun k => (hc'.freq k).trans (hc.freq k), hc'.key.trans hc.key, hc'.bound,
    fun hp => hc'.placed (hc.placed hp)⟩

theorem Carried.size {h h' : EntryHeap} {idx idx' : Nat} (hc : Carried h idx h' idx') :
    h'.size = h.size := hc.perm.length_eq

theorem Carried.indexed {h h' : EntryHeap} {idx idx' : Nat} (hc : Carried h idx h' idx')
    (hh : h.Indexed) : h'.Indexed := by
  refine ⟨hc.perm.nodup_iff.mpr hh.nodup, fun k => ?_⟩
  rw [hc.perm.mem_iff, hh.mem, hc.contains]

theorem keyAt_swap {h : EntryHeap} {i j : Nat} (hi : i < h.size) (hj : j < h.size) (k : Nat) :
    (h.swap i j).keyAt k = h.keyAt (Equiv.swap i j k) := by
  have hset : (h.swap i j).keyAt k =
      ((h.heap.set i (h.keyAt j)).set j (h.keyAt i)).getD k (BytesN.ofBytes 32 []) := by
    rw [keyAt, swap, heap_modifyItem]
  rw [hset, List.getD_eq_getElem?_getD, List.getElem?_set, List.getElem?_set, List.length_set]
  unfold size at hi hj
  by_cases hkj : k = j
  · subst hkj
    rw [if_pos rfl, if_pos hj, Equiv.swap_apply_right]
    rfl
  · rw [if_neg (Ne.symm hkj)]
    by_cases hki : k = i
    · subst hki
      rw [if_pos rfl, if_pos hi, Equiv.swap_apply_left]
      rfl
    · rw [if_neg (Ne.symm hki), Equiv.swap_apply_of_ne_of_ne hki hkj, keyAt,
        List.getD_eq_getElem?_getD]

theorem freqOf_swap (h : EntryHeap) (i j : Nat) (k : Fp) : (h.swap i j).freqOf k = h.freqOf k :=
  freqOf_modifyItem_idx _ _ _ _

theorem prio_swap {h : EntryHeap} {i j : Nat} (hi : i < h.size) (hj : j < h.size) :
    (h.swap i j).prio = exchange h.prio i j := by
  funext k
  rw [prio, freqOf_swap, keyAt_swap hi hj]
  rfl

theorem perm_swap {h : EntryHeap} {i j : Nat} (hi : i < h.size) (hj : j < h.size) :
    (h.swap i j).heap.Perm h.heap := by
  rw [swap, heap_modifyItem, keyAt_eq hi, keyAt_eq hj]
  exact List.set_set_perm hi hj

/-- One exchange of a sift. -/
theorem carried_swap {h : EntryHeap} (hh : h.Indexed) {i j : Nat} (hi : i < h.size)
    (hj : j < h.size) (hne : i ≠ j) : Carried h i (h.swap i j) j := by
  have hsize : (h.swap i j).size = h.size := (perm_swap hi hj).length_eq
  refine ⟨perm_swap hi hj, contains_swap h i j, freqOf_swap h i j, ?_, hsize ▸ hj, ?_⟩
  · rw [keyAt_swap hi hj, Equiv.swap_apply_right]
  · intro hp k hk hkj
    rw [hsize] at hk
    rw [keyAt_swap hi hj, swap, getPriority_modifyItem]
    by_cases hki : k = i
    · -- the other entry writes its new place down
      subst hki
      rw [Equiv.swap_apply_left, if_pos rfl, Option.map_map]
      have hold := hp j hj (Ne.symm hne)
      change (Option.map _ (h.getPriority (h.keyAt j))) = _
      cases hitem : h.getPriority (h.keyAt j) with
      | none =>
          rw [hitem] at hold
          cases hold
      | some item => rfl
    · rw [Equiv.swap_apply_of_ne_of_ne hki hkj,
        if_neg fun heq => hkj (keyAt_inj hh hk hj heq)]
      exact hp k hk hki

theorem swapUp_spec (fuel : Nat) {h : EntryHeap} {idx : Nat} (hh : h.Indexed) (hi : idx < h.size)
    (hfuel : idx < fuel) :
    Carried h idx (swapUp fuel h idx).1 (swapUp fuel h idx).2 ∧
      (UpTo h.size h.prio idx → Ordered h.size (swapUp fuel h idx).1.prio) := by
  induction fuel generalizing h idx with
  | zero => omega
  | succ fuel ih =>
      rw [swapUp]
      split
      · rename_i hc
        obtain ⟨hpos, hlt⟩ := hc
        have hup : (idx - 1) / 2 < idx := parent_lt hpos
        have hpar : (idx - 1) / 2 < h.size := hup.trans hi
        have hswap := carried_swap hh hi hpar hup.ne'
        obtain ⟨hcarried, horder⟩ := ih (hswap.indexed hh) hswap.bound (by omega)
        refine ⟨hswap.trans hcarried, fun hloose => ?_⟩
        rw [hswap.size] at horder
        refine horder ?_
        rw [prio_swap hi hpar]
        exact hloose.step hpos ((freqAt_lt_iff h _ _).mp hlt)
      · rename_i hc
        refine ⟨.refl hi, fun hloose => hloose.stop fun hpos => ?_⟩
        exact Nat.le_of_not_lt fun hlt => hc ⟨hpos, (freqAt_lt_iff h _ _).mpr hlt⟩

/-- Whatever frequency an entry was given, raising it leaves at most its
children out of order. -/
theorem swapUp_loose (fuel : Nat) {h : EntryHeap} {idx : Nat} (hh : h.Indexed) (hi : idx < h.size)
    (hfuel : idx < fuel) (hloose : Loose h.size h.prio idx) :
    DownFrom h.size (swapUp fuel h idx).1.prio (swapUp fuel h idx).2 := by
  obtain ⟨hcarried, horder⟩ := swapUp_spec fuel hh hi hfuel
  by_cases hc : 0 < idx ∧ h.freqAt idx < h.freqAt ((idx - 1) / 2)
  · have hlt := (freqAt_lt_iff h _ _).mp hc.2
    exact (horder (hloose.upTo hc.1 hlt)).downFrom _ (hcarried.size ▸ hcarried.bound)
  · obtain ⟨fuel, rfl⟩ : ∃ n, fuel = n + 1 := ⟨fuel - 1, by omega⟩
    rw [swapUp, if_neg hc]
    refine hloose.downFrom fun hpos => ?_
    exact Nat.le_of_not_lt fun hlt => hc ⟨hpos, (freqAt_lt_iff h _ _).mpr hlt⟩

theorem minChild_spec (h : EntryHeap) {idx : Nat} (hn : idx * 2 + 1 < h.size) :
    0 < h.minChild (idx * 2 + 1) ∧ h.minChild (idx * 2 + 1) < h.size ∧
      parent (h.minChild (idx * 2 + 1)) = idx ∧
      ∀ i, 0 < i → i < h.size → parent i = idx → h.prio (h.minChild (idx * 2 + 1)) ≤ h.prio i := by
  have hchild : ∀ i, 0 < i → parent i = idx → i = idx * 2 + 1 ∨ i = idx * 2 + 1 + 1 := by
    intro i hi hp
    rw [parent] at hp
    omega
  have hleft : parent (idx * 2 + 1) = idx ∧ parent (idx * 2 + 1 + 1) = idx := by
    unfold parent
    omega
  unfold minChild
  split
  · rename_i hc
    have hlt := (freqAt_lt_iff h _ _).mp hc.2
    refine ⟨by omega, hc.1, hleft.2, fun i hi hin hp => ?_⟩
    rcases hchild i hi hp with rfl | rfl
    · exact hlt.le
    · exact le_refl _
  · rename_i hc
    refine ⟨by omega, hn, hleft.1, fun i hi hin hp => ?_⟩
    rcases hchild i hi hp with rfl | rfl
    · exact le_refl _
    · exact Nat.le_of_not_lt fun hlt => hc ⟨hin, (freqAt_lt_iff h _ _).mpr hlt⟩

theorem swapDown_spec (fuel : Nat) {h : EntryHeap} {idx : Nat} (hh : h.Indexed) (hi : idx < h.size)
    (hfuel : h.size ≤ idx + fuel) :
    Carried h idx (swapDown fuel h idx).1 (swapDown fuel h idx).2 ∧
      (DownFrom h.size h.prio idx → Ordered h.size (swapDown fuel h idx).1.prio) := by
  induction fuel generalizing h idx with
  | zero => omega
  | succ fuel ih =>
      rw [swapDown]
      split
      · rename_i hc
        obtain ⟨hn, hlt⟩ := hc
        obtain ⟨hpos, hbound, hpar, hleast⟩ := h.minChild_spec hn
        have hdown : idx < h.minChild (idx * 2 + 1) := by
          have := parent_lt hpos
          omega
        have hswap := carried_swap hh hi hbound hdown.ne
        obtain ⟨hcarried, horder⟩ := ih (hswap.indexed hh) hswap.bound (by rw [hswap.size]; omega)
        refine ⟨hswap.trans hcarried, fun hloose => ?_⟩
        rw [hswap.size] at horder
        refine horder ?_
        rw [prio_swap hi hbound]
        exact hloose.step hpos hbound hpar hleast ((freqAt_lt_iff h _ _).mp hlt)
      · rename_i hc
        refine ⟨.refl hi, fun hloose => hloose.stop fun i hipos hin hp => ?_⟩
        have hn : idx * 2 + 1 < h.size := by
          rw [parent] at hp
          omega
        obtain ⟨-, -, -, hleast⟩ := h.minChild_spec hn
        refine (Nat.le_of_not_lt fun hlt => ?_ : h.prio idx ≤ _).trans (hleast i hipos hin hp)
        exact hc ⟨hn, (freqAt_lt_iff h _ _).mpr hlt⟩

theorem size_setIdx (p : EntryHeap × Nat) (key : Fp) : (setIdx p key).size = p.1.size :=
  congrArg List.length (heap_modifyItem _ _ _)

/-- The entry that was carried writes its place down. -/
theorem kept_setIdx {h : EntryHeap} {idx : Nat} {p : EntryHeap × Nat} (hh : h.Indexed)
    (hc : Carried h idx p.1 p.2) (hp : h.Placed idx) (ho : Ordered h.size p.1.prio) :
    (setIdx p (p.1.keyAt p.2)).Kept := by
  have hindexed := hc.indexed hh
  have hsize := size_setIdx p (p.1.keyAt p.2)
  have hkey : ∀ i, (setIdx p (p.1.keyAt p.2)).keyAt i = p.1.keyAt i := by
    intro i
    rw [keyAt, setIdx, heap_modifyItem, keyAt]
  refine ⟨⟨?_, fun k => ?_⟩, fun i hi => ?_, ?_⟩
  · rw [setIdx, heap_modifyItem]
    exact hindexed.nodup
  · rw [setIdx, heap_modifyItem, contains_modifyItem]
    exact hindexed.mem k
  · rw [hsize] at hi
    rw [hkey, setIdx, getPriority_modifyItem]
    by_cases hip : i = p.2
    · subst hip
      have hin : p.1.contains (p.1.keyAt p.2) = true := (hindexed.mem _).mp (keyAt_mem hi)
      obtain ⟨item, hitem⟩ := Option.isSome_iff_exists.mp hin
      rw [if_pos rfl, getPriority, hitem]
      rfl
    · rw [if_neg fun heq => hip (keyAt_inj hindexed hi hc.bound heq)]
      exact hc.placed hp i hi hip
  · rw [hsize, hc.size]
    have hprio : (setIdx p (p.1.keyAt p.2)).prio = p.1.prio := by
      funext i
      rw [prio, hkey, setIdx, freqOf_modifyItem_idx, prio]
    rw [hprio]
    exact ho

theorem freqOf_setIdx (p : EntryHeap × Nat) (key k : Fp) : (setIdx p key).freqOf k = p.1.freqOf k :=
  freqOf_modifyItem_idx _ _ _ _

/-! ## `Pop`, `Add` and `Update` -/

theorem prio_le_of_kept {h : EntryHeap} (hk : h.Kept) {k : Fp} (hc : h.contains k = true) :
    h.topEntry.toNat ≤ h.freqOf k := by
  obtain ⟨i, hi, rfl⟩ := exists_keyAt hk.indexed hc
  exact hk.ordered.root_le hi

theorem kept_empty : empty.Kept :=
  ⟨⟨List.nodup_nil, fun k => by simp [empty, contains]⟩, fun i hi => absurd hi (Nat.not_lt_zero i),
    fun i _ hi => absurd hi (Nat.not_lt_zero i)⟩

/-- The heap without its first entry, the last one in its place. -/
def withoutTop (h : EntryHeap) : EntryHeap :=
  { heap := (h.heap.set 0 (h.keyAt (h.size - 1))).dropLast, index := h.index.erase (h.keyAt 0) }

theorem freqOf_withoutTop (h : EntryHeap) (k : Fp) :
    h.withoutTop.freqOf k = if k = h.keyAt 0 then 0 else h.freqOf k := by
  unfold freqOf getPriority withoutTop
  rw [lookup_erase_if]
  split <;> rfl

theorem contains_withoutTop (h : EntryHeap) (k : Fp) :
    h.withoutTop.contains k = true ↔ k ≠ h.keyAt 0 ∧ h.contains k = true := by
  unfold contains withoutTop
  rw [lookup_erase_if]
  split <;> simp_all

theorem heap_withoutTop {h : EntryHeap} {a b : Fp} {m : List Fp} (hheap : h.heap = a :: (m ++ [b])) :
    h.keyAt 0 = a ∧ h.withoutTop.heap = b :: m := by
  have hlast : h.keyAt (h.size - 1) = b := by
    rw [keyAt, size, hheap]
    simp
  refine ⟨by rw [keyAt, hheap]; rfl, ?_⟩
  rw [withoutTop, hlast, hheap]
  change (b :: (m ++ [b])).dropLast = b :: m
  rw [List.dropLast_cons_of_ne_nil (List.concat_ne_nil b m), List.dropLast_concat]

theorem exists_ends {h : EntryHeap} (hsize : 2 ≤ h.size) :
    ∃ a b m, h.heap = a :: (m ++ [b]) := by
  unfold size at hsize
  cases hheap : h.heap with
  | nil => rw [hheap] at hsize; cases hsize
  | cons a t =>
      have hne : t ≠ [] := by
        rintro rfl
        rw [hheap, List.length_singleton] at hsize
        omega
      exact ⟨a, t.getLast hne, t.dropLast, by rw [List.dropLast_append_getLast hne]⟩

/-- Without its first entry the heap is in order below the new first one. -/
theorem withoutTop_spec {h : EntryHeap} (hk : h.Kept) (hsize : 2 ≤ h.size) :
    h.withoutTop.Indexed ∧ h.withoutTop.size = h.size - 1 ∧ h.withoutTop.Placed 0 ∧
      DownFrom h.withoutTop.size h.withoutTop.prio 0 := by
  obtain ⟨a, b, m, hheap⟩ := exists_ends hsize
  obtain ⟨htop, hrest⟩ := heap_withoutTop hheap
  have hnd : (a :: (m ++ [b])).Nodup := hheap ▸ hk.indexed.nodup
  obtain ⟨ha, hnd⟩ := List.nodup_cons.mp hnd
  have hlen : h.withoutTop.size = h.size - 1 := by
    rw [size, size, hrest, hheap]
    simp
  have hkey : ∀ i, 0 < i → i < h.withoutTop.size → h.withoutTop.keyAt i = h.keyAt i := by
    intro i hi hin
    rw [size, hrest, List.length_cons] at hin
    obtain ⟨i, rfl⟩ : ∃ j, i = j + 1 := ⟨i - 1, by omega⟩
    rw [keyAt, keyAt, hrest, hheap, List.getD_cons_succ, List.getD_cons_succ,
      List.getD_eq_getElem?_getD, List.getD_eq_getElem?_getD,
      List.getElem?_append_left (by omega)]
  have hbelow : ∀ i, 0 < i → i < h.withoutTop.size → h.keyAt i ≠ h.keyAt 0 := by
    intro i hi hin heq
    exact absurd (keyAt_inj hk.indexed (by omega) (by omega) heq) hi.ne'
  have hprio : ∀ i, 0 < i → i < h.withoutTop.size → h.withoutTop.prio i = h.prio i := by
    intro i hi hin
    rw [prio, hkey i hi hin, freqOf_withoutTop, if_neg (hbelow i hi hin), prio]
  refine ⟨⟨?_, fun k => ?_⟩, hlen, fun i hin hi => ?_, ⟨⟨fun i hi hin _ hp => ?_, ?_⟩, ?_⟩⟩
  · rw [hrest, ← List.perm_append_singleton b m |>.nodup_iff]
    exact hnd
  · rw [contains_withoutTop, ← hk.indexed.mem, hrest, hheap, htop]
    have hkm : k ∈ b :: m ↔ k ∈ m ++ [b] := ((List.perm_append_singleton b m).mem_iff).symm
    rw [hkm, List.mem_cons]
    constructor
    · exact fun hmem => ⟨fun heq => ha (heq ▸ hmem), Or.inr hmem⟩
    · exact fun hmem => hmem.2.resolve_left hmem.1
  · have hpos : 0 < i := Nat.pos_of_ne_zero hi
    have hget : h.withoutTop.getPriority (h.keyAt i) = h.getPriority (h.keyAt i) := by
      rw [getPriority, withoutTop, lookup_erase_if, if_neg (hbelow i hpos hin), getPriority]
    rw [hkey i hpos hin, hget]
    exact hk.placed i (by omega)
  · have hpar := parent_lt hi
    rw [hprio i hi hin, hprio (parent i) (Nat.pos_of_ne_zero hp) (hpar.trans hin)]
    exact hk.ordered i hi (by omega)
  · exact fun i hi hin hp h0 => absurd h0 (Nat.lt_irrefl 0)
  · exact fun h0 => absurd h0 (Nat.lt_irrefl 0)

theorem pop_spec {h : EntryHeap} (hk : h.Kept) (hsize : 2 ≤ h.size) :
    h.pop.Kept ∧ h.pop.size = h.size - 1 ∧ ∀ k, h.pop.freqOf k ≤ h.freqOf k := by
  obtain ⟨hindexed, hlen, hplaced, hdown⟩ := withoutTop_spec hk hsize
  have htop : 0 < h.withoutTop.size := by omega
  obtain ⟨hcarried, horder⟩ := swapDown_spec h.withoutTop.size hindexed htop (by omega)
  refine ⟨kept_setIdx hindexed hcarried hplaced (horder hdown), ?_, fun k => ?_⟩
  · exact (size_setIdx _ _).trans (hcarried.size.trans hlen)
  · refine (Nat.le_of_eq ((freqOf_setIdx _ _ k).trans (hcarried.freq k))).trans ?_
    rw [freqOf_withoutTop]
    split <;> omega

/-- The heap with a new last entry. -/
def withLast (h : EntryHeap) (key : Fp) (value : HeapItem) : EntryHeap :=
  { heap := h.heap ++ [key], index := h.index.insert key value }

theorem add_eq {h : EntryHeap} {key : Fp} (hnew : h.contains key = false) (value : HeapItem) :
    h.add key value = setIdx
      (swapUp (h.withLast key value).size (h.withLast key value) ((h.withLast key value).size - 1))
      key := by
  have habsent : key ∉ h.index := by
    rw [← AList.lookup_eq_none]
    unfold contains at hnew
    exact Option.not_isSome_iff_eq_none.mp (by rw [hnew]; exact Bool.false_ne_true)
  unfold add insertNew
  rw [if_neg habsent]
  rfl

theorem withLast_spec {h : EntryHeap} (hk : h.Kept) {key : Fp} (hnew : h.contains key = false)
    (value : HeapItem) :
    (h.withLast key value).Indexed ∧ (h.withLast key value).Placed h.size ∧
      (h.withLast key value).keyAt h.size = key ∧
      UpTo (h.size + 1) (h.withLast key value).prio h.size ∧
      ∀ k, (h.withLast key value).freqOf k =
        if k = key then value.chunkFreq.toNat else h.freqOf k := by
  have hget : ∀ k, (h.withLast key value).getPriority k =
      if k = key then some value else h.getPriority k := fun k => lookup_eq_if
  have hkey : ∀ i < h.size, (h.withLast key value).keyAt i = h.keyAt i := by
    intro i hi
    rw [keyAt, keyAt, List.getD_eq_getElem?_getD, List.getD_eq_getElem?_getD, withLast,
      List.getElem?_append_left hi]
  have hlast : (h.withLast key value).keyAt h.size = key := by
    rw [keyAt, List.getD_eq_getElem?_getD]
    change (h.heap ++ [key])[h.heap.length]?.getD _ = key
    rw [List.getElem?_append_right (Nat.le_refl _), Nat.sub_self]
    rfl
  have hnotin : key ∉ h.heap := fun hmem => by
    rw [(hk.indexed.mem key).mp hmem] at hnew
    cases hnew
  have hne : ∀ i < h.size, h.keyAt i ≠ key := fun i hi heq => hnotin (heq ▸ keyAt_mem hi)
  have hprio : ∀ i < h.size, (h.withLast key value).prio i = h.prio i := by
    intro i hi
    rw [prio, hkey i hi, freqOf, hget, if_neg (hne i hi)]
    rfl
  refine ⟨⟨?_, fun k => ?_⟩, fun i hi hil => ?_, hlast, ⟨⟨fun i hi hin hil _ => ?_, ?_⟩, ?_⟩,
    fun k => ?_⟩
  · exact (List.perm_append_singleton key h.heap).nodup_iff.mpr
      (List.nodup_cons.mpr ⟨hnotin, hk.indexed.nodup⟩)
  · change k ∈ h.heap ++ [key] ↔ ((h.withLast key value).getPriority k).isSome = true
    rw [hget, List.mem_append, List.mem_singleton, hk.indexed.mem]
    by_cases hkk : k = key
    · simp [hkk]
    · rw [if_neg hkk, or_iff_left hkk]
      rfl
  · have hi' : i < h.size := by
      have hlen : (h.withLast key value).size = h.size + 1 := List.length_append
      omega
    rw [hkey i hi', hget, if_neg (hne i hi')]
    exact hk.placed i hi'
  · have hpar := parent_lt hi
    rw [hprio i (by omega), hprio (parent i) (by omega)]
    exact hk.ordered i hi (by omega)
  · intro i hi hin hp
    have hpar := parent_lt hi
    omega
  · intro i hi hin hp
    have hpar := parent_lt hi
    omega
  · rw [freqOf, hget]
    split <;> rfl

theorem add_spec {h : EntryHeap} (hk : h.Kept) {key : Fp} (hnew : h.contains key = false)
    (value : HeapItem) :
    (h.add key value).Kept ∧ (h.add key value).size = h.size + 1 ∧
      ∀ k, (h.add key value).freqOf k = if k = key then value.chunkFreq.toNat else h.freqOf k := by
  obtain ⟨hindexed, hplaced, hlast, hup, hfreq⟩ := withLast_spec hk hnew value
  have hlen : (h.withLast key value).size = h.size + 1 := List.length_append
  rw [add_eq hnew value, hlen, Nat.add_sub_cancel]
  obtain ⟨hcarried, horder⟩ := swapUp_spec (h.size + 1) hindexed (hlen ▸ Nat.lt_succ_self _)
    (Nat.lt_succ_self h.size)
  have hkept := kept_setIdx hindexed hcarried hplaced (horder (hlen ▸ hup))
  rw [hcarried.key, hlast] at hkept
  refine ⟨hkept, ?_, fun k => ?_⟩
  · rw [size_setIdx, hcarried.size, hlen]
  · rw [freqOf_setIdx, hcarried.freq, hfreq]

theorem update_spec {h : EntryHeap} (hk : h.Kept) {key : Fp} (hin : h.contains key = true)
    (freq : UInt32) :
    (h.update key freq).Kept ∧ (h.update key freq).size = h.size ∧
      ∀ k, (h.update key freq).freqOf k = if k = key then freq.toNat else h.freqOf k := by
  obtain ⟨i, hi, rfl⟩ := exists_keyAt hk.indexed hin
  have hidx : ((h.index.lookup (h.keyAt i)).map HeapItem.idx).getD 0 = i := by
    have hplace := hk.placed i hi
    rw [getPriority] at hplace
    rw [hplace]
    rfl
  generalize hg : (h.modifyItem (h.keyAt i) fun item => { item with chunkFreq := freq }) = g
  have hheap : g.heap = h.heap := by rw [← hg, heap_modifyItem]
  have hsize : g.size = h.size := congrArg List.length hheap
  have hkey : ∀ j, g.keyAt j = h.keyAt j := fun j => by rw [keyAt, hheap, keyAt]
  have hget : ∀ k, g.getPriority k = if k = h.keyAt i then
      (h.getPriority (h.keyAt i)).map fun item => { item with chunkFreq := freq }
      else h.getPriority k := fun k => by rw [← hg, getPriority_modifyItem]
  have hfreq : ∀ k, g.freqOf k = if k = h.keyAt i then freq.toNat else h.freqOf k := by
    intro k
    rw [freqOf, hget]
    split
    · obtain ⟨item, hitem⟩ := Option.isSome_iff_exists.mp hin
      rw [getPriority, hitem]
      rfl
    · rfl
  have hindexed : g.Indexed := by
    refine ⟨hheap ▸ hk.indexed.nodup, fun k => ?_⟩
    rw [hheap, ← hg, contains_modifyItem]
    exact hk.indexed.mem k
  have hplaced : g.Placed i := by
    intro j hj hji
    have hj' : j < h.size := hsize ▸ hj
    rw [hkey, hget, if_neg fun heq => hji (keyAt_inj hk.indexed hj' hi heq)]
    exact hk.placed j hj'
  have hprio : ∀ j < h.size, j ≠ i → g.prio j = h.prio j := by
    intro j hj hji
    rw [prio, hkey, hfreq, if_neg fun heq => hji (keyAt_inj hk.indexed hj hi heq), prio]
  have hloose : Loose g.size g.prio i := by
    rw [hsize]
    refine ⟨fun j hj hjn hji hp => ?_, fun j hj hjn hp hpos => ?_⟩
    · have hpar := parent_lt hj
      rw [hprio j hjn hji, hprio (parent j) (by omega) hp]
      exact hk.ordered j hj hjn
    · have hpar := parent_lt hj
      have hpar' := parent_lt hpos
      rw [hprio j hjn (by omega), hprio (parent i) (by omega) (by omega)]
      exact (hk.ordered i hpos hi).trans (hp ▸ hk.ordered j hj hjn)
  have hi' : i < g.size := hsize ▸ hi
  obtain ⟨hup, -⟩ := swapUp_spec g.size hindexed hi' hi'
  have hdown := swapUp_loose g.size hindexed hi' hi' hloose
  obtain ⟨hcarried, horder⟩ := swapDown_spec (swapUp g.size g i).1.size (hup.indexed hindexed)
    hup.bound (Nat.le_add_left _ _)
  have hboth := hup.trans hcarried
  rw [hup.size] at horder hcarried hboth
  have hkept := kept_setIdx hindexed hboth hplaced (horder hdown)
  rw [hboth.key, hkey] at hkept
  have hupdate : h.update (h.keyAt i) freq = setIdx
      (swapDown g.size (swapUp g.size g i).1 (swapUp g.size g i).2) (h.keyAt i) := by
    unfold update
    dsimp only
    rw [hidx, hg, hup.size]
  rw [hupdate]
  refine ⟨hkept, ?_, fun k => ?_⟩
  · rw [size_setIdx, hboth.size, hsize]
  · rw [freqOf_setIdx, hboth.freq, hfreq]

end EntryHeap

/-! ## The sketch -/

theorem le_foldl_min (l : List UInt32) (a : UInt32) (n : Nat) :
    n ≤ (l.foldl min a).toNat ↔ n ≤ a.toNat ∧ ∀ x ∈ l, n ≤ x.toNat := by
  induction l generalizing a with
  | nil => simp
  | cons b l ih =>
      have hmin : n ≤ (min a b).toNat ↔ n ≤ a.toNat ∧ n ≤ b.toNat := by
        rw [UInt32.toNat_min, Nat.le_min]
      rw [List.foldl_cons, ih, hmin, List.forall_mem_cons, and_assoc]

namespace EcallCMSketch

/-- How many of the updates met the counter of `chunkHash` in row `i`. -/
def hits (s : EcallCMSketch) (history : List Fp) (chunkHash : Fp) (i : Nat) : Nat :=
  history.countP fun fp => s.pos fp i = s.pos chunkHash i

/-- The counters count the updates of `history`. -/
structure Counted (s : EcallCMSketch) (history : List Fp) : Prop where
  width : 0 < s.width
  depth : s.counterArray ≠ []
  rows : ∀ row ∈ s.counterArray, row.length = s.width
  counts : ∀ i row, s.counterArray[i]? = some row → ∀ fp,
    (row.getD (s.pos fp i) 0).toNat = s.hits history fp i

theorem counted_init {width depth : Nat} (hw : 0 < width) (hd : 0 < depth) :
    (init width depth).Counted [] := by
  refine ⟨hw, ?_, ?_, ?_⟩
  · intro hnil
    have hlen := congrArg List.length hnil
    rw [init, List.length_replicate] at hlen
    exact absurd hlen hd.ne'
  · intro row hrow
    rw [init] at hrow
    rw [List.eq_of_mem_replicate hrow, List.length_replicate]
    rfl
  · intro i row hrow fp
    have hmem := List.mem_of_getElem? hrow
    rw [init] at hmem
    rw [List.eq_of_mem_replicate hmem, List.getD_eq_getElem?_getD, List.getElem?_replicate]
    split <;> rfl

theorem hits_append (s : EcallCMSketch) (history : List Fp) (fp chunkHash : Fp) (i : Nat) :
    s.hits (history ++ [fp]) chunkHash i =
      s.hits history chunkHash i + if s.pos fp i = s.pos chunkHash i then 1 else 0 := by
  unfold hits
  rw [List.countP_append, List.countP_singleton]
  simp only [decide_eq_true_eq]

theorem Counted.update {s : EcallCMSketch} {history : List Fp} (h : s.Counted history) (fp : Fp)
    (hlt : history.length + 1 < 2 ^ 32) : (s.update fp 1).Counted (history ++ [fp]) := by
  refine ⟨h.width, ?_, fun row hrow => ?_, fun i row hrow chunkHash => ?_⟩
  · intro hnil
    have hlen := congrArg List.length hnil
    rw [EcallCMSketch.update, List.length_mapIdx] at hlen
    exact h.depth (List.length_eq_zero_iff.mp hlen)
  · obtain ⟨i, hi, rfl⟩ := List.mem_mapIdx.mp hrow
    rw [List.length_modify]
    exact h.rows _ (List.getElem_mem hi)
  · change (s.update fp 1).counterArray[i]? = _ at hrow
    rw [EcallCMSketch.update, List.getElem?_mapIdx, Option.map_eq_some_iff] at hrow
    obtain ⟨old, hold, rfl⟩ := hrow
    change ((old.modify (s.pos fp i) (· + 1)).getD (s.pos chunkHash i) 0).toNat =
      s.hits (history ++ [fp]) chunkHash i
    have hcount := h.counts i old hold chunkHash
    have hle : s.hits history chunkHash i ≤ history.length := List.countP_le_length
    have hpos : s.pos chunkHash i < old.length := by
      rw [h.rows old (List.mem_of_getElem? hold)]
      exact Nat.mod_lt _ h.width
    rw [List.getD_eq_getElem?_getD, List.getElem?_eq_getElem hpos] at hcount
    rw [hits_append, ← hcount, List.getD_eq_getElem?_getD, List.getElem?_modify,
      List.getElem?_eq_getElem hpos]
    by_cases heq : s.pos fp i = s.pos chunkHash i
    · simp only [heq, if_true, Option.getD_some, Option.map_eq_map, Option.map_some] at hcount ⊢
      rw [UInt32.toNat_add, hcount]
      exact Nat.mod_eq_of_lt (Nat.lt_of_le_of_lt (Nat.succ_le_succ hle) hlt)
    · simp only [heq, if_false, Nat.add_zero, Option.map_eq_map, Option.map_some]

/-- The estimate is the least of the counters. -/
theorem Counted.le_estimate_iff {s : EcallCMSketch} {history : List Fp} (h : s.Counted history)
    (hlt : history.length < 2 ^ 32) (chunkHash : Fp) (n : Nat) :
    n ≤ (s.estimate chunkHash).toNat ↔
      ∀ i < s.counterArray.length, n ≤ s.hits history chunkHash i := by
  have hcell : ∀ i (hi : i < s.counterArray.length),
      (s.counterArray[i].getD (s.pos chunkHash i) 0).toNat = s.hits history chunkHash i :=
    fun i hi => h.counts i _ (List.getElem?_eq_getElem hi) chunkHash
  rw [estimate, le_foldl_min]
  constructor
  · intro hle i hi
    rw [← hcell i hi]
    exact hle.2 _ (List.mem_mapIdx.mpr ⟨i, hi, rfl⟩)
  · intro hall
    refine ⟨?_, fun x hx => ?_⟩
    · have hfirst := hall 0 (List.length_pos_iff.mpr h.depth)
      have hle : s.hits history chunkHash 0 ≤ history.length := List.countP_le_length
      exact Nat.le_of_lt_succ ((hfirst.trans hle).trans_lt hlt)
    · obtain ⟨i, hi, rfl⟩ := List.mem_mapIdx.mp hx
      rw [hcell i hi]
      exact hall i hi

/-- No fingerprint is under-counted. -/
theorem Counted.count_le_estimate {s : EcallCMSketch} {history : List Fp} (h : s.Counted history)
    (hlt : history.length < 2 ^ 32) (chunkHash : Fp) :
    history.count chunkHash ≤ (s.estimate chunkHash).toNat := by
  refine (h.le_estimate_iff hlt chunkHash _).mpr fun i _ => ?_
  refine List.countP_mono_left fun fp _ heq => ?_
  rw [eq_of_beq heq]
  exact decide_eq_true rfl

/-- An update lowers no estimate. -/
theorem Counted.estimate_le_update {s : EcallCMSketch} {history : List Fp} (h : s.Counted history)
    (fp : Fp) (hlt : history.length + 1 < 2 ^ 32) (chunkHash : Fp) :
    (s.estimate chunkHash).toNat ≤ ((s.update fp 1).estimate chunkHash).toNat := by
  have hlen : (history ++ [fp]).length = history.length + 1 := List.length_append
  refine ((h.update fp hlt).le_estimate_iff (hlen ▸ hlt) chunkHash _).mpr fun i hi => ?_
  have hi' : i < s.counterArray.length := by
    rwa [EcallCMSketch.update, List.length_mapIdx] at hi
  have hold := (h.le_estimate_iff (Nat.lt_of_succ_lt hlt) chunkHash _).mp (le_refl _) i hi'
  refine hold.trans ?_
  change _ ≤ s.hits (history ++ [fp]) chunkHash i
  rw [hits_append]
  exact Nat.le_add_right _ _

end EcallCMSketch

end ShieldReduce
