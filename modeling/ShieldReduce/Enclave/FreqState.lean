import ShieldReduce.Store.Container
import ShieldReduce.Lib.UMap

/-!
# What the frequency index keeps between batches

The count-min sketch, the min-heap of the most frequent chunks and the
cache of base containers that `EcallFreqIndex` holds for as long as the
server runs. Of the heap the deduplication only needs that it knows no
fingerprint that was not added to it (`EntryHeap.contains_add` and its
companions). Of the cache it needs that a name answers with the bytes
last inserted under it, which rests on no two names sharing a slot of the
pool (`InContainercache.Valid`).
-/

namespace ShieldReduce

open ByteLib UMapLib

/-! ## The sketch -/

/-- `EcallCMSketch`: `depth_` rows of `width_` counters. -/
structure EcallCMSketch where
  width : Nat
  counterArray : List (List UInt32)

namespace EcallCMSketch

def init (width depth : Nat) : EcallCMSketch :=
  ⟨width, List.replicate depth (List.replicate width 0)⟩

/-- The column of row `i`: the `i`-th word of the fingerprint. -/
def pos (s : EcallCMSketch) (chunkHash : Fp) (i : Nat) : Nat :=
  (ofLe32 (chunkHash.1.drop (4 * i))).toNat % s.width

def update (s : EcallCMSketch) (chunkHash : Fp) (count : UInt32) : EcallCMSketch :=
  { s with counterArray := s.counterArray.mapIdx fun i row =>
      row.modify (s.pos chunkHash i) (· + count) }

def estimate (s : EcallCMSketch) (chunkHash : Fp) : UInt32 :=
  (s.counterArray.mapIdx fun i row => row.getD (s.pos chunkHash i) 0).foldl min 0xffffffff

end EcallCMSketch

/-! ## The heap -/

structure HeapItem where
  address : RecipeEntry
  chunkFreq : UInt32
  idx : Nat

/-- `EcallEntryHeap`. The iterators of `_heap` are the keys they point to. -/
structure EntryHeap where
  heap : List Fp
  index : UMap Fp HeapItem

namespace EntryHeap

def empty : EntryHeap := ⟨[], ∅⟩

def keyAt (h : EntryHeap) (i : Nat) : Fp := h.heap.getD i (BytesN.ofBytes 32 [])

def freqAt (h : EntryHeap) (i : Nat) : UInt32 :=
  ((h.index.lookup (h.keyAt i)).map HeapItem.chunkFreq).getD 0

def modifyItem (h : EntryHeap) (key : Fp) (f : HeapItem → HeapItem) : EntryHeap :=
  match h.index.lookup key with
  | some item => { h with index := h.index.insert key (f item) }
  | none => h

/-- `std::swap` of positions `idx` and `other`, then `_heap[idx]->second.idx = idx`. -/
def swap (h : EntryHeap) (idx other : Nat) : EntryHeap :=
  modifyItem { h with heap := (h.heap.set idx (h.keyAt other)).set other (h.keyAt idx) }
    (h.keyAt other) fun item => { item with idx := idx }

/-- `SwapUp`. An entry rises at most as often as its position. -/
def swapUp : (fuel : Nat) → EntryHeap → (idx : Nat) → EntryHeap × Nat
  | 0, h, idx => (h, idx)
  | fuel + 1, h, idx =>
      let parent := (idx - 1) / 2
      if 0 < idx ∧ h.freqAt idx < h.freqAt parent then
        swapUp fuel (h.swap idx parent) parent
      else (h, idx)

/-- The less frequent of the children whose first is `left`. -/
def minChild (h : EntryHeap) (left : Nat) : Nat :=
  if left + 1 < h.heap.length ∧ h.freqAt (left + 1) < h.freqAt left then left + 1 else left

/-- `SwapDown`. An entry sinks at most as often as the heap has entries. -/
def swapDown : (fuel : Nat) → EntryHeap → (idx : Nat) → EntryHeap × Nat
  | 0, h, idx => (h, idx)
  | fuel + 1, h, idx =>
      let child := h.minChild (idx * 2 + 1)
      if idx * 2 + 1 < h.heap.length ∧ h.freqAt child < h.freqAt idx then
        swapDown fuel (h.swap idx child) child
      else (h, idx)

def size (h : EntryHeap) : Nat := h.heap.length

def topEntry (h : EntryHeap) : UInt32 := h.freqAt 0

def contains (h : EntryHeap) (key : Fp) : Bool := (h.index.lookup key).isSome

def getPriority (h : EntryHeap) (key : Fp) : Option HeapItem := h.index.lookup key

def setIdx (p : EntryHeap × Nat) (key : Fp) : EntryHeap :=
  p.1.modifyItem key fun item => { item with idx := p.2 }

def pop (h : EntryHeap) : EntryHeap :=
  let top := h.keyAt 0
  let h := { heap := (h.heap.set 0 (h.keyAt (h.size - 1))).dropLast, index := h.index.erase top }
  let p := swapDown h.size h 0
  setIdx p (p.1.keyAt p.2)

/-- `Add`; `_index.insert` keeps an entry that is there. -/
def add (h : EntryHeap) (key : Fp) (value : HeapItem) : EntryHeap :=
  let h := { heap := h.heap ++ [key], index := insertNew h.index (key, value) }
  setIdx (swapUp h.size h (h.size - 1)) key

def update (h : EntryHeap) (key : Fp) (freq : UInt32) : EntryHeap :=
  let idx := ((h.index.lookup key).map HeapItem.idx).getD 0
  let h := h.modifyItem (h.keyAt idx) fun item => { item with chunkFreq := freq }
  let p := swapUp h.size h idx
  setIdx (swapDown p.1.size p.1 p.2) key

@[simp] theorem contains_modifyItem (h : EntryHeap) (key : Fp) (f : HeapItem → HeapItem) (k : Fp) :
    (h.modifyItem key f).contains k = h.contains k := by
  unfold modifyItem
  split
  · rename_i item hitem
    rw [contains, lookup_eq_if]
    split
    · rename_i hk
      rw [contains, hk, hitem]
      rfl
    · rfl
  · rfl

@[simp] theorem contains_swap (h : EntryHeap) (idx other : Nat) (k : Fp) :
    (h.swap idx other).contains k = h.contains k := contains_modifyItem _ _ _ _

@[simp] theorem contains_swapUp (k : Fp) : ∀ (fuel : Nat) (h : EntryHeap) (idx : Nat),
    (swapUp fuel h idx).1.contains k = h.contains k
  | 0, _, _ => rfl
  | fuel + 1, h, idx => by
      rw [swapUp]
      split
      · rw [contains_swapUp k fuel, contains_swap]
      · rfl

@[simp] theorem contains_swapDown (k : Fp) : ∀ (fuel : Nat) (h : EntryHeap) (idx : Nat),
    (swapDown fuel h idx).1.contains k = h.contains k
  | 0, _, _ => rfl
  | fuel + 1, h, idx => by
      rw [swapDown]
      split
      · rw [contains_swapDown k fuel, contains_swap]
      · rfl

theorem contains_pop {h : EntryHeap} {k : Fp} (hk : h.pop.contains k = true) :
    h.contains k = true := by
  rw [pop, setIdx, contains_modifyItem, contains_swapDown, contains, lookup_erase_if] at hk
  split at hk
  · cases hk
  · exact hk

theorem contains_add {h : EntryHeap} {key k : Fp} {value : HeapItem}
    (hk : (h.add key value).contains k = true) : k = key ∨ h.contains k = true := by
  rw [add, setIdx, contains_modifyItem, contains_swapUp, contains, insertNew] at hk
  split at hk
  · exact Or.inr hk
  · rw [lookup_eq_if] at hk
    split at hk
    · rename_i heq
      exact Or.inl heq
    · exact Or.inr hk

theorem contains_update (h : EntryHeap) (key : Fp) (freq : UInt32) (k : Fp) :
    (h.update key freq).contains k = h.contains k := by
  rw [update, setIdx, contains_modifyItem, contains_swapDown, contains_swapUp,
    contains_modifyItem]

end EntryHeap

/-! ## The cache of base containers -/

/-- `Cachesize`. -/
def cacheSize : Nat := 10

/-- `InContainercache`: the list of the LRU cache, most recent name first,
and the pool whose slots it hands out. -/
structure InContainercache where
  keys : List (ContainerName × Nat)
  containerPool : Nat → Bytes
  currentIndex : Nat

namespace InContainercache

def empty (pool : Nat → Bytes) : InContainercache := ⟨[], pool, 0⟩

def slot (c : InContainercache) (name : ContainerName) : Option Nat :=
  (c.keys.find? fun p => p.1 = name).map Prod.snd

def existsInCache (c : InContainercache) (name : ContainerName) : Bool := (c.slot name).isSome

/-- `get`: the name moves to the front. -/
def touch (c : InContainercache) (name : ContainerName) : InContainercache :=
  match c.keys.find? fun p => p.1 = name with
  | some p => { c with keys := p :: c.keys.filter fun q => q.1 ≠ name }
  | none => c

/-- `ReadFromCache`, on a name that is there. -/
def readFromCache (c : InContainercache) (name : ContainerName) : Bytes × InContainercache :=
  (c.containerPool ((c.slot name).getD 0), c.touch name)

/-- `insert` of the LRU cache with its `prune`. -/
def insertKey (keys : List (ContainerName × Nat)) (name : ContainerName) (v : Nat) :
    List (ContainerName × Nat) :=
  if (keys.find? fun p => p.1 = name).isSome then (name, v) :: keys.filter fun q => q.1 ≠ name
  else ((name, v) :: keys).take cacheSize

/-- `InsertToCache_Offline`: the least recent name gives its slot away when
the pool is used up. -/
def insertToCacheOffline (c : InContainercache) (name : ContainerName) (data : Bytes) :
    InContainercache :=
  let fill := fun k => fun i => if i = k then data else c.containerPool i
  if cacheSize < c.keys.length + 1 then
    let replaceIndex := (c.keys.getLast?.map Prod.snd).getD 0
    { c with keys := insertKey c.keys name replaceIndex, containerPool := fill replaceIndex }
  else
    { keys := insertKey c.keys name c.currentIndex
      containerPool := fill c.currentIndex
      currentIndex := c.currentIndex + 1 }

/-- What the cache would answer for a name. -/
def Caches (c : InContainercache) (name : ContainerName) (data : Bytes) : Prop :=
  ∃ k, (name, k) ∈ c.keys ∧ c.containerPool k = data

/-- Names and slots in use are distinct, and the slots are the first ones of
the pool. -/
structure Valid (c : InContainercache) : Prop where
  names : (c.keys.map Prod.fst).Nodup
  slots : (c.keys.map Prod.snd).Nodup
  bound : ∀ p ∈ c.keys, p.2 < c.currentIndex
  count : c.keys.length = c.currentIndex
  size : c.keys.length ≤ cacheSize

theorem valid_empty (pool : Nat → Bytes) : (empty pool).Valid :=
  ⟨List.nodup_nil, List.nodup_nil, fun _ hp => (List.not_mem_nil hp).elim, rfl, Nat.zero_le _⟩

theorem find_of_exists {c : InContainercache} {name : ContainerName}
    (h : c.existsInCache name = true) :
    ∃ k, (c.keys.find? fun p => p.1 = name) = some (name, k) ∧ (name, k) ∈ c.keys := by
  rw [existsInCache, slot, Option.isSome_map] at h
  obtain ⟨⟨n, k⟩, hp⟩ := Option.isSome_iff_exists.mp h
  have hn : n = name := by simpa using List.find?_some hp
  subst hn
  exact ⟨k, hp, List.mem_of_find?_eq_some hp⟩

/-- A read answers what the cache holds under the name. -/
theorem caches_readFromCache {c : InContainercache} {name : ContainerName}
    (h : c.existsInCache name = true) : c.Caches name (c.readFromCache name).1 := by
  obtain ⟨k, hfind, hmem⟩ := find_of_exists h
  refine ⟨k, hmem, ?_⟩
  rw [readFromCache, slot, hfind]
  rfl

theorem mem_keys_touch {c : InContainercache} {name : ContainerName} {p : ContainerName × Nat}
    (h : p ∈ (c.touch name).keys) : p ∈ c.keys := by
  unfold touch at h
  split at h
  · rename_i q hq
    rcases List.mem_cons.mp h with rfl | h
    · exact List.mem_of_find?_eq_some hq
    · exact (List.mem_filter.mp h).1
  · exact h

theorem containerPool_touch (c : InContainercache) (name : ContainerName) :
    (c.touch name).containerPool = c.containerPool := by
  unfold touch
  split <;> rfl

theorem Caches.of_touch {c : InContainercache} {name n : ContainerName} {data : Bytes}
    (h : (c.touch name).Caches n data) : c.Caches n data := by
  obtain ⟨k, hk, hdata⟩ := h
  rw [containerPool_touch] at hdata
  exact ⟨k, mem_keys_touch hk, hdata⟩

/-- Moving a name to the front permutes the list. -/
theorem perm_touch {c : InContainercache} (h : c.Valid) (name : ContainerName) :
    (c.touch name).keys.Perm c.keys := by
  unfold touch
  split
  · rename_i p hp
    have hname : p.1 = name := by simpa using List.find?_some hp
    have hmem := List.mem_of_find?_eq_some hp
    have herase : c.keys.filter (fun q => q.1 ≠ name) = c.keys.erase p := by
      have hnd : c.keys.Nodup := List.Nodup.of_map _ h.names
      rw [hnd.erase_eq_filter]
      refine List.filter_congr fun q hq => ?_
      have hiff : q.1 ≠ name ↔ q ≠ p := by
        constructor
        · rintro hne rfl
          exact hne hname
        · intro hne heq
          exact hne (List.inj_on_of_nodup_map h.names hq hmem (heq.trans hname.symm))
      exact Bool.eq_iff_iff.mpr (by simpa using hiff)
    show (p :: c.keys.filter (fun q => q.1 ≠ name)).Perm c.keys
    rw [herase]
    exact (List.perm_cons_erase hmem).symm
  · exact List.Perm.refl _

theorem Valid.touch {c : InContainercache} (h : c.Valid) (name : ContainerName) :
    (c.touch name).Valid := by
  have hperm := perm_touch h name
  have hidx : (c.touch name).currentIndex = c.currentIndex := by
    unfold InContainercache.touch
    split <;> rfl
  constructor
  · exact (hperm.map _).nodup_iff.mpr h.names
  · exact (hperm.map _).nodup_iff.mpr h.slots
  · intro p hp
    rw [hidx]
    exact h.bound p (hperm.mem_iff.mp hp)
  · rw [hidx, hperm.length_eq, h.count]
  · rw [hperm.length_eq]
    exact h.size

/-- Under which names and slots the cache answers after a new name came in:
the new one, and those that were kept. -/
theorem insertToCacheOffline_spec {c : InContainercache} (h : c.Valid) {name : ContainerName}
    (hnew : c.existsInCache name = false) (data : Bytes) :
    ∃ (k : Nat) (kept : List (ContainerName × Nat)),
      (c.insertToCacheOffline name data).keys = (name, k) :: kept ∧ kept.Sublist c.keys ∧
      (∀ p ∈ kept, p.2 ≠ k) ∧ k < (c.insertToCacheOffline name data).currentIndex ∧
      c.currentIndex ≤ (c.insertToCacheOffline name data).currentIndex ∧
      kept.length + 1 = (c.insertToCacheOffline name data).currentIndex ∧
      kept.length + 1 ≤ cacheSize ∧
      (c.insertToCacheOffline name data).containerPool =
        fun i => if i = k then data else c.containerPool i := by
  have hfind : (c.keys.find? fun p => p.1 = name).isSome = false := by
    rw [existsInCache, slot, Option.isSome_map] at hnew
    exact hnew
  have hkey : ∀ v, insertKey c.keys name v = ((name, v) :: c.keys).take cacheSize := by
    intro v
    rw [insertKey, hfind]
    rfl
  have hcount := h.count
  have hsize := h.size
  unfold insertToCacheOffline
  split
  · rename_i hfull
    -- the pool is used up: the last name of the list goes
    have hten : c.keys.length = cacheSize := by omega
    have hne : c.keys ≠ [] := by
      intro hnil
      rw [hnil] at hten
      cases hten
    have htake : c.keys.take (cacheSize - 1) = c.keys.dropLast := by
      rw [List.dropLast_eq_take, hten]
    have hsplit := List.dropLast_append_getLast hne
    refine ⟨(c.keys.getLast?.map Prod.snd).getD 0, c.keys.dropLast, ?_, List.dropLast_sublist _,
      ?_, ?_, le_refl _, ?_, ?_, rfl⟩
    · refine (hkey _).trans ?_
      rw [← htake]
      rfl
    · intro p hp heq
      rw [List.getLast?_eq_getLast_of_ne_nil hne] at heq
      have hnd := h.slots
      rw [← hsplit, List.map_append, List.nodup_append] at hnd
      exact hnd.2.2 p.2 (List.mem_map.mpr ⟨p, hp, rfl⟩) _ (by simp) heq
    · rw [List.getLast?_eq_getLast_of_ne_nil hne]
      exact h.bound _ (List.getLast_mem hne)
    · show c.keys.dropLast.length + 1 = c.currentIndex
      rw [List.length_dropLast, Nat.sub_add_cancel (List.length_pos_of_ne_nil hne), hcount]
    · rw [List.length_dropLast, Nat.sub_add_cancel (List.length_pos_of_ne_nil hne)]
      exact hsize
  · rename_i hroom
    refine ⟨c.currentIndex, c.keys, ?_, List.Sublist.refl _, ?_, Nat.lt_succ_self _,
      Nat.le_succ _, ?_, by omega, rfl⟩
    · exact (hkey _).trans (List.take_of_length_le (by simp; omega))
    · intro p hp heq
      have := h.bound p hp
      omega
    · show c.keys.length + 1 = c.currentIndex + 1
      omega

theorem not_mem_of_not_exists {c : InContainercache} {name : ContainerName}
    (hnew : c.existsInCache name = false) {k : Nat} : (name, k) ∉ c.keys := by
  intro hmem
  rw [existsInCache, slot, Option.isSome_map] at hnew
  have hsome : (c.keys.find? fun p => p.1 = name).isSome = true :=
    List.find?_isSome.mpr ⟨(name, k), hmem, by simp⟩
  rw [hsome] at hnew
  cases hnew

theorem Valid.insertToCacheOffline {c : InContainercache} (h : c.Valid) {name : ContainerName}
    (hnew : c.existsInCache name = false) (data : Bytes) :
    (c.insertToCacheOffline name data).Valid := by
  obtain ⟨k, kept, hkeys, hsub, hslot, hk, hidx, hcount, hsize, -⟩ :=
    insertToCacheOffline_spec h hnew data
  constructor
  · rw [hkeys, List.map_cons, List.nodup_cons]
    refine ⟨fun hmem => ?_, (hsub.map _).nodup h.names⟩
    obtain ⟨p, hp, rfl⟩ := List.mem_map.mp hmem
    exact not_mem_of_not_exists hnew (k := p.2) (hsub.subset hp)
  · rw [hkeys, List.map_cons, List.nodup_cons]
    refine ⟨fun hmem => ?_, (hsub.map _).nodup h.slots⟩
    obtain ⟨p, hp, heq⟩ := List.mem_map.mp hmem
    exact hslot p hp heq
  · rw [hkeys]
    intro p hp
    rcases List.mem_cons.mp hp with rfl | hp
    · exact hk
    · exact lt_of_lt_of_le (h.bound p (hsub.subset hp)) hidx
  · rw [hkeys, List.length_cons, hcount]
  · rw [hkeys, List.length_cons]
    exact hsize

/-- After an insertion a name answers with the new bytes, if it is the new
name, and otherwise as before. -/
theorem Caches.of_insert {c : InContainercache} (h : c.Valid) {name n : ContainerName}
    (hnew : c.existsInCache name = false) {data x : Bytes}
    (hx : (c.insertToCacheOffline name data).Caches n x) : (n = name ∧ x = data) ∨ c.Caches n x := by
  obtain ⟨k, kept, hkeys, hsub, hslot, -, -, -, -, hpool⟩ := insertToCacheOffline_spec h hnew data
  obtain ⟨j, hj, hdata⟩ := hx
  rw [hpool] at hdata
  rw [hkeys] at hj
  rcases List.mem_cons.mp hj with heq | hj
  · obtain ⟨rfl, rfl⟩ := Prod.mk.injEq .. |>.mp heq
    exact Or.inl ⟨rfl, by simpa using hdata.symm⟩
  · have hne : j ≠ k := hslot (n, j) hj
    refine Or.inr ⟨j, hsub.subset hj, ?_⟩
    simpa [hne] using hdata

end InContainercache

end ShieldReduce
