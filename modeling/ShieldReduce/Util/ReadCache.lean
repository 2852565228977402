import Mathlib.Data.List.Perm.Subperm
import ShieldReduce.Lib.LruCache
import ShieldReduce.Store.Types

/-!
# The restore cache

`ReadCache` keeps containers in a pool of `cacheSize_` buffers, a
configured number, and finds them through an LRU cache of names whose
capacity is fixed. `InsertToCache` hands out fresh slots of the pool
until the number of names reaches `cacheSize_`, and from then on the slot
of the least recent name, which it expects `insert` to drop.

That happens exactly where the two sizes agree: `coherent_iff`.
-/

namespace ShieldReduce

open ByteLib LruLib

structure ReadCache where
  /-- From names to slots of the pool. -/
  readCache : Cache ContainerName UInt32
  containerPool : Nat → Bytes
  cacheSize : Nat
  currentIndex : Nat

namespace ReadCache

/-- The capacity of `trueCache_`. -/
def trueCacheSize : Nat := 64

/-- The constructor; `pool` is what the buffers hold at the start. -/
def new (cacheSize : Nat) (pool : Nat → Bytes) : ReadCache :=
  ⟨.empty trueCacheSize 0, pool, cacheSize, 0⟩

def existsInCache (c : ReadCache) (name : ContainerName) : Bool := c.readCache.contains name

/-- The slot that `ReadFromCache` reads. -/
def readSlot (c : ReadCache) (name : ContainerName) : Option Nat :=
  (c.readCache.find name).map UInt32.toNat

def readFromCache (c : ReadCache) (name : ContainerName) : Option (Bytes × ReadCache) :=
  (c.readCache.get name).map fun p => (c.containerPool p.1.toNat, { c with readCache := p.2 })

/-- `memcpy` to a slot. -/
def fill (c : ReadCache) (k : Nat) (data : Bytes) : ReadCache :=
  { c with containerPool := fun i =>
      if i = k then writeAt (c.containerPool i) 0 data else c.containerPool i }

/-- The slot that `InsertToCache` writes. -/
def insertSlot (c : ReadCache) : Nat :=
  if c.cacheSize < c.readCache.size + 1 then (c.readCache.pruneValue.getD 0).toNat
  else c.currentIndex

def insertToCache (c : ReadCache) (name : ContainerName) (data : Bytes) : ReadCache :=
  if c.cacheSize < c.readCache.size + 1 then
    let replaceIndex := c.readCache.pruneValue.getD 0
    { c.fill replaceIndex.toNat data with readCache := c.readCache.insert name replaceIndex }
  else
    { c.fill c.currentIndex data with
      readCache := c.readCache.insert name (UInt32.ofNat c.currentIndex)
      currentIndex := c.currentIndex + 1 }

end ReadCache

/-! ## The calls of a restore -/

/-- A cache with the calls of `InsertToCache` so far, the latest first, and
the slots that were read or written. -/
structure CacheTrace where
  cache : ReadCache
  inserted : List (ContainerName × Bytes)
  used : List Nat

namespace CacheTrace

def start (cacheSize : Nat) (pool : Nat → Bytes) : CacheTrace := ⟨.new cacheSize pool, [], []⟩

/-- One container of `GetReqContainers`, by its name and its file. -/
def request (t : CacheTrace) (p : ContainerName × Bytes) : CacheTrace :=
  if t.cache.existsInCache p.1 then
    match t.cache.readFromCache p.1 with
    | some (_, cache) => { t with cache := cache, used := (t.cache.readSlot p.1).toList ++ t.used }
    | none => t
  else
    { cache := t.cache.insertToCache p.1 p.2
      inserted := p :: t.inserted
      used := t.cache.insertSlot :: t.used }

def requests (t : CacheTrace) (ps : List (ContainerName × Bytes)) : CacheTrace := ps.foldl request t

/-- What was inserted under a name most recently. -/
def latest (t : CacheTrace) (name : ContainerName) : Option Bytes :=
  (t.inserted.find? fun p => p.1 = name).map Prod.snd

/-- What is cached is read as it was inserted, and the slots are in the pool. -/
structure Coherent (t : CacheTrace) : Prop where
  reads : ∀ name, t.cache.existsInCache name = true → ∃ data body cache,
    t.latest name = some data ∧ t.cache.readFromCache name = some (body, cache) ∧ data <+: body
  slots : ∀ k ∈ t.used, k < t.cache.cacheSize

/-! ## One call -/

variable {t : CacheTrace} {p : ContainerName × Bytes}

theorem request_hit {k : UInt32} (h : (p.1, k) ∈ t.cache.readCache.keys) :
    t.request p = { t with
      cache := { t.cache with readCache := t.cache.readCache.front p.1 k }
      used := k.toNat :: t.used } := by
  have hfind := Cache.find_eq_some.mpr h
  have hex : t.cache.existsInCache p.1 = true := Cache.contains_iff.mpr ⟨k, h⟩
  rw [request, if_pos hex, ReadCache.readFromCache, Cache.get, ReadCache.readSlot, hfind]
  rfl

theorem request_miss (h : t.cache.existsInCache p.1 = false) :
    t.request p = ⟨t.cache.insertToCache p.1 p.2, p :: t.inserted, t.cache.insertSlot :: t.used⟩ := by
  rw [request, h, if_neg Bool.false_ne_true]

theorem latest_request_miss (h : t.cache.existsInCache p.1 = false) (name : ContainerName) :
    (t.request p).latest name = if p.1 = name then some p.2 else t.latest name := by
  rw [request_miss h, latest, List.find?_cons]
  by_cases heq : p.1 = name
  · simp [heq]
  · simp [heq, latest]

/-- There are more names than the LRU cache can hold. -/
theorem exists_new (c : ReadCache) (h : c.readCache.size ≤ 64) :
    ∃ name, c.existsInCache name = false := by
  by_contra hall
  push Not at hall
  let names := (List.range 65).map fun i => BytesN.ofBytes 7 [UInt8.ofNat i]
  have hnd : names.Nodup := by decide +kernel
  have hsub : names ⊆ c.readCache.keys.map Prod.fst := by
    intro name _
    have hex : c.existsInCache name = true := by simpa using hall name
    obtain ⟨v, hv⟩ := Cache.contains_iff.mp hex
    exact List.mem_map.mpr ⟨_, hv, rfl⟩
  have hlen := (List.subperm_of_subset hnd hsub).length_le
  rw [List.length_map, List.length_map, List.length_range] at hlen
  exact absurd (hlen.trans h) (by decide)

/-! ## The sizes of a run -/

/-- The sizes that no call changes, and the bound on the names. -/
structure Sized (n : Nat) (t : CacheTrace) : Prop where
  cacheSize : t.cache.cacheSize = n
  maxSize : t.cache.readCache.maxSize = 64
  elasticity : t.cache.readCache.elasticity = 0
  size : t.cache.readCache.size ≤ 64

variable {n : Nat}

theorem sized_start (n : Nat) (pool : Nat → Bytes) : Sized n (start n pool) :=
  ⟨rfl, rfl, rfl, Nat.zero_le _⟩

/-- The list of names after a miss: the slot goes to the new name, and the
least recent name goes if there were 64. -/
theorem Sized.keys_miss (h : Sized n t) (hmiss : t.cache.existsInCache p.1 = false) :
    ∃ k : UInt32, (t.request p).cache.readCache.keys = (p.1, k) ::
      (if t.cache.readCache.size < 64 then t.cache.readCache.keys
        else t.cache.readCache.keys.dropLast) ∧
      k = if n < t.cache.readCache.size + 1 then t.cache.readCache.pruneValue.getD 0
        else UInt32.ofNat t.cache.currentIndex := by
  have hkeys : ∀ k : UInt32, (t.cache.readCache.insert p.1 k).keys = (p.1, k) ::
      (if t.cache.readCache.size < 64 then t.cache.readCache.keys
        else t.cache.readCache.keys.dropLast) := by
    intro k
    split
    · rename_i hlt
      exact Cache.keys_insert_of_lt hmiss k (by rw [h.maxSize]; exact hlt)
    · rename_i hge
      have := h.size
      exact Cache.keys_insert_of_full hmiss k h.elasticity (by rw [h.maxSize]; decide)
        (by rw [h.maxSize]; omega)
  rw [request_miss hmiss, ReadCache.insertToCache, h.cacheSize]
  split
  · exact ⟨_, hkeys _, rfl⟩
  · exact ⟨_, hkeys _, rfl⟩

theorem Sized.request (h : Sized n t) (p : ContainerName × Bytes) : Sized n (t.request p) := by
  cases hex : t.cache.existsInCache p.1 with
  | true =>
      obtain ⟨k, hk⟩ := Cache.contains_iff.mp hex
      rw [request_hit hk]
      refine ⟨h.cacheSize, h.maxSize, h.elasticity, ?_⟩
      exact (Cache.perm_front hk).length_eq.le.trans h.size
  | false =>
      have hsize : (t.request p).cache.readCache.size ≤ 64 := by
        obtain ⟨k, hkeys, -⟩ := h.keys_miss hex
        have := h.size
        rw [Cache.size, hkeys, List.length_cons]
        split
        · rename_i hlt
          exact hlt
        · rw [List.length_dropLast]
          unfold Cache.size at this
          omega
      rw [request_miss hex] at hsize ⊢
      refine ⟨?_, ?_, ?_, hsize⟩
      all_goals
        unfold ReadCache.insertToCache
        split
      · exact h.cacheSize
      · exact h.cacheSize
      · exact (Cache.maxSize_insert _ _ _).trans h.maxSize
      · exact (Cache.maxSize_insert _ _ _).trans h.maxSize
      · exact (Cache.elasticity_insert _ _ _).trans h.elasticity
      · exact (Cache.elasticity_insert _ _ _).trans h.elasticity

theorem Sized.requests : ∀ (ps : List (ContainerName × Bytes)) {t : CacheTrace}, Sized n t →
    Sized n (t.requests ps)
  | [], _, h => h
  | p :: ps, _, h => Sized.requests ps (h.request p)

/-! ## A pool of 64 slots -/

/-- Names and slots in use are distinct, the slots are the first ones of the
pool, and a slot holds what was inserted under its name. -/
structure InStep (t : CacheTrace) : Prop where
  sized : Sized 64 t
  slots : (t.cache.readCache.keys.map Prod.snd).Nodup
  bound : ∀ p ∈ t.cache.readCache.keys, p.2.toNat < t.cache.currentIndex
  count : t.cache.readCache.size = t.cache.currentIndex
  held : ∀ p ∈ t.cache.readCache.keys, ∃ data, t.latest p.1 = some data ∧
    data <+: t.cache.containerPool p.2.toNat
  used : ∀ k ∈ t.used, k < 64

theorem inStep_start (pool : Nat → Bytes) : InStep (start 64 pool) where
  sized := sized_start 64 pool
  slots := List.nodup_nil
  bound := fun _ hp => (List.not_mem_nil hp).elim
  count := rfl
  held := fun _ hp => (List.not_mem_nil hp).elim
  used := fun _ hk => (List.not_mem_nil hk).elim

/-- On a miss some slot goes to the new name; the names that stay do not have
it. -/
theorem InStep.request_miss (h : InStep t) (hmiss : t.cache.existsInCache p.1 = false) :
    ∃ (k : UInt32) (kept : List (ContainerName × UInt32)),
      (t.request p).cache.readCache.keys = (p.1, k) :: kept ∧ kept.Sublist t.cache.readCache.keys ∧
      (∀ q ∈ kept, q.2 ≠ k) ∧ k.toNat < 64 ∧ k.toNat < (t.request p).cache.currentIndex ∧
      t.cache.currentIndex ≤ (t.request p).cache.currentIndex ∧
      kept.length + 1 = (t.request p).cache.currentIndex ∧
      (t.request p).cache.containerPool = (t.cache.fill k.toNat p.2).containerPool ∧
      (t.request p).used = k.toNat :: t.used := by
  obtain ⟨k, hkeys, hk⟩ := h.sized.keys_miss hmiss
  have hsize := h.sized.size
  have hcount := h.count
  have hmiss' := CacheTrace.request_miss hmiss
  by_cases hlt : t.cache.readCache.size < 64
  · -- a fresh slot
    have hroom : ¬ 64 < t.cache.readCache.size + 1 := by omega
    rw [if_pos hlt] at hkeys
    rw [if_neg hroom] at hk
    have hval : k.toNat = t.cache.currentIndex := by
      rw [hk, UInt32.toNat_ofNat']
      exact Nat.mod_eq_of_lt (by omega)
    have hcache : t.request p = ⟨{ t.cache.fill t.cache.currentIndex p.2 with
        readCache := t.cache.readCache.insert p.1 (UInt32.ofNat t.cache.currentIndex)
        currentIndex := t.cache.currentIndex + 1 }, p :: t.inserted, t.cache.currentIndex :: t.used⟩ := by
      rw [hmiss', ReadCache.insertToCache, ReadCache.insertSlot, h.sized.cacheSize, if_neg hroom,
        if_neg hroom]
    refine ⟨k, _, hkeys, List.Sublist.refl _, ?_, by omega, ?_, ?_, ?_, ?_, ?_⟩
    · intro q hq heq
      have := h.bound q hq
      rw [heq] at this
      omega
    · rw [hcache, hval]
      exact Nat.lt_succ_self _
    · rw [hcache]
      exact Nat.le_succ _
    · rw [hcache]
      exact congrArg (· + 1) hcount
    · rw [hcache, hval]
    · rw [hcache, hval]
  · -- the slot of the last name, which goes
    have hfull : 64 < t.cache.readCache.size + 1 := by omega
    have hne : t.cache.readCache.keys ≠ [] := by
      intro hnil
      rw [Cache.size, hnil] at hlt
      exact hlt (by decide)
    rw [if_neg hlt] at hkeys
    rw [if_pos hfull, Cache.pruneValue, List.getLast?_eq_getLast_of_ne_nil hne, Option.map_some,
      Option.getD_some] at hk
    have hlast := List.getLast_mem hne
    have hcache : t.request p = ⟨{ t.cache.fill k.toNat p.2 with
        readCache := t.cache.readCache.insert p.1 k }, p :: t.inserted, k.toNat :: t.used⟩ := by
      rw [hmiss', ReadCache.insertToCache, ReadCache.insertSlot, h.sized.cacheSize, if_pos hfull,
        if_pos hfull, Cache.pruneValue, List.getLast?_eq_getLast_of_ne_nil hne, Option.map_some,
        Option.getD_some, hk]
    have hbound := h.bound _ hlast
    rw [← hk] at hbound
    refine ⟨k, _, hkeys, List.dropLast_sublist _, ?_, by omega, ?_, ?_, ?_, ?_, ?_⟩
    · intro q hq heq
      have hnd := h.slots
      rw [← List.dropLast_append_getLast hne, List.map_append, List.nodup_append] at hnd
      exact hnd.2.2 q.2 (List.mem_map.mpr ⟨q, hq, rfl⟩) _ (by simp) (heq.trans hk)
    · rw [hcache]
      exact hbound
    · rw [hcache]
      exact le_refl _
    · rw [hcache, List.length_dropLast, Nat.sub_add_cancel (List.length_pos_of_ne_nil hne)]
      exact hcount
    · rw [hcache]
    · rw [hcache]

theorem InStep.request (h : InStep t) (p : ContainerName × Bytes) : InStep (t.request p) := by
  cases hex : t.cache.existsInCache p.1 with
  | true =>
      obtain ⟨k, hk⟩ := Cache.contains_iff.mp hex
      have hperm := Cache.perm_front hk
      have hsized := h.sized.request p
      rw [request_hit hk] at hsized ⊢
      constructor
      · exact hsized
      · exact (hperm.map _).nodup_iff.mpr h.slots
      · exact fun q hq => h.bound q (hperm.mem_iff.mp hq)
      · exact hperm.length_eq.trans h.count
      · exact fun q hq => h.held q (hperm.mem_iff.mp hq)
      · intro j hj
        rcases List.mem_cons.mp hj with rfl | hj
        · exact lt_of_lt_of_le (h.bound _ hk) (h.count ▸ h.sized.size)
        · exact h.used j hj
  | false =>
      obtain ⟨k, kept, hkeys, hsub, hother, hk, hidx, hmono, hcount, hpool, hused⟩ :=
        h.request_miss hex
      have hmem : ∀ q ∈ (t.request p).cache.readCache.keys, q = (p.1, k) ∨ q ∈ kept := by
        intro q hq
        rw [hkeys] at hq
        exact List.mem_cons.mp hq
      constructor
      · exact h.sized.request p
      · rw [hkeys, List.map_cons, List.nodup_cons]
        refine ⟨fun hin => ?_, (hsub.map _).nodup h.slots⟩
        obtain ⟨q, hq, heq⟩ := List.mem_map.mp hin
        exact hother q hq heq
      · intro q hq
        rcases hmem q hq with rfl | hq
        · exact hidx
        · exact lt_of_lt_of_le (h.bound q (hsub.subset hq)) hmono
      · rw [Cache.size, hkeys, List.length_cons, hcount]
      · intro q hq
        rw [latest_request_miss hex, hpool, ReadCache.fill]
        rcases hmem q hq with rfl | hq
        · exact ⟨p.2, if_pos rfl, by simpa using prefix_writeAt _ _⟩
        · have hname : p.1 ≠ q.1 := by
            intro heq
            have hin : t.cache.existsInCache p.1 = true :=
              Cache.contains_iff.mpr ⟨q.2, heq ▸ hsub.subset hq⟩
            rw [hex] at hin
            cases hin
          have hslot : q.2.toNat ≠ k.toNat := fun heq => hother q hq (UInt32.toNat_inj.mp heq)
          obtain ⟨data, hdata, hheld⟩ := h.held q (hsub.subset hq)
          exact ⟨data, by rw [if_neg hname, hdata], by simpa [hslot] using hheld⟩
      · rw [hused]
        intro j hj
        rcases List.mem_cons.mp hj with rfl | hj
        · exact hk
        · exact h.used j hj

theorem InStep.requests : ∀ (ps : List (ContainerName × Bytes)) {t : CacheTrace}, InStep t →
    InStep (t.requests ps)
  | [], _, h => h
  | p :: ps, _, h => InStep.requests ps (h.request p)

theorem InStep.coherent (h : InStep t) : Coherent t where
  reads := by
    intro name hex
    obtain ⟨k, hk⟩ := Cache.contains_iff.mp hex
    obtain ⟨data, hdata, hheld⟩ := h.held _ hk
    have hread : t.cache.readFromCache name = some (t.cache.containerPool k.toNat,
        { t.cache with readCache := t.cache.readCache.front name k }) := by
      rw [ReadCache.readFromCache, Cache.get, Cache.find_eq_some.mpr hk]
      rfl
    exact ⟨data, _, _, hdata, hread, hheld⟩
  slots := by
    rw [h.sized.cacheSize]
    exact h.used

/-! ## Other sizes -/

theorem requests_append (t : CacheTrace) (ps : List (ContainerName × Bytes))
    (p : ContainerName × Bytes) : t.requests (ps ++ [p]) = (t.requests ps).request p :=
  List.foldl_append

/-- With less than 64 slots: a run that fills the pool, each container the
same byte. -/
theorem exists_filled (hn : n < 64) (pool : Nat → Bytes) : ∀ j ≤ n, ∃ ps,
    ((start n pool).requests ps).cache.readCache.size = j ∧
    ∀ p ∈ ((start n pool).requests ps).cache.readCache.keys,
      ((start n pool).requests ps).latest p.1 = some [0]
  | 0, _ => ⟨[], rfl, fun _ hp => (List.not_mem_nil hp).elim⟩
  | j + 1, hj => by
      obtain ⟨ps, hsize, hzero⟩ := exists_filled hn pool j (by omega)
      have hsized := (sized_start n pool).requests ps
      obtain ⟨name, hnew⟩ := exists_new ((start n pool).requests ps).cache hsized.size
      obtain ⟨k, hkeys, -⟩ := hsized.keys_miss (p := (name, [0])) hnew
      rw [if_pos (by omega)] at hkeys
      refine ⟨ps ++ [(name, [0])], ?_⟩
      rw [requests_append]
      refine ⟨?_, fun p hp => ?_⟩
      · rw [Cache.size, hkeys, List.length_cons]
        exact congrArg (· + 1) hsize
      · rw [latest_request_miss hnew]
        rw [hkeys] at hp
        rcases List.mem_cons.mp hp with rfl | hp
        · exact if_pos rfl
        · rw [hzero p hp, ite_self]

/-- The next container then overwrites one whose name stays. -/
theorem Sized.not_coherent_request (h : Sized n t) (hpos : 1 ≤ n) (hn : n < 64)
    (hsize : t.cache.readCache.size = n)
    (hzero : ∀ p ∈ t.cache.readCache.keys, t.latest p.1 = some [0]) :
    ∃ p, ¬ Coherent (t.request p) := by
  obtain ⟨name, hnew⟩ := exists_new t.cache h.size
  have hne : t.cache.readCache.keys ≠ [] := by
    intro hnil
    rw [Cache.size, hnil] at hsize
    exact absurd (hsize ▸ hpos) (by decide)
  have hfull : n < t.cache.readCache.size + 1 := by omega
  obtain ⟨k, hkeys, hk⟩ := h.keys_miss (p := (name, [1])) hnew
  rw [if_pos (by omega)] at hkeys
  rw [if_pos hfull] at hk
  have hpool : (t.request (name, [1])).cache.containerPool k.toNat
      = writeAt (t.cache.containerPool k.toNat) 0 [1] := by
    rw [request_miss hnew, ReadCache.insertToCache, h.cacheSize, if_pos hfull, ← hk]
    exact if_pos rfl
  rw [Cache.pruneValue, List.getLast?_eq_getLast_of_ne_nil hne, Option.map_some,
    Option.getD_some] at hk
  -- the victim has the slot that goes to the new name as well
  obtain ⟨victim, hlast⟩ : ∃ victim, (victim, k) ∈ t.cache.readCache.keys :=
    ⟨(t.cache.readCache.keys.getLast hne).1, by rw [hk]; exact List.getLast_mem hne⟩
  have hin : (victim, k) ∈ (t.request (name, [1])).cache.readCache.keys := by
    rw [hkeys]
    exact List.mem_cons_of_mem _ hlast
  have hother : name ≠ victim := by
    rintro rfl
    have hex : t.cache.existsInCache name = true := Cache.contains_iff.mpr ⟨k, hlast⟩
    rw [hnew] at hex
    cases hex
  refine ⟨(name, [1]), fun hco => ?_⟩
  obtain ⟨data, body, cache, hdata, hbody, hpre⟩ := hco.reads victim (Cache.contains_iff.mpr ⟨k, hin⟩)
  rw [latest_request_miss hnew, if_neg hother, hzero _ hlast] at hdata
  obtain rfl : [0] = data := Option.some.inj hdata
  rw [ReadCache.readFromCache, Cache.get, Cache.find_eq_some.mpr hin] at hbody
  obtain ⟨rfl, -⟩ := Prod.mk.injEq .. |>.mp (Option.some.inj hbody)
  rw [hpool] at hpre
  exact absurd (List.cons_prefix_cons.mp hpre).1 (by decide)

theorem not_coherent_of_lt (hpos : 1 ≤ n) (hn : n < 64) (pool : Nat → Bytes) :
    ∃ ps, ¬ Coherent ((start n pool).requests ps) := by
  obtain ⟨ps, hsize, hzero⟩ := exists_filled hn pool n (le_refl n)
  obtain ⟨p, hp⟩ := ((sized_start n pool).requests ps).not_coherent_request hpos hn hsize hzero
  refine ⟨ps ++ [p], ?_⟩
  rw [requests_append]
  exact hp

/-- With more than 64 slots every miss takes a fresh one. -/
theorem exists_index (hn : 64 < n) (pool : Nat → Bytes) : ∀ j, ∃ ps,
    ((start n pool).requests ps).cache.currentIndex = j
  | 0 => ⟨[], rfl⟩
  | j + 1 => by
      obtain ⟨ps, hidx⟩ := exists_index hn pool j
      have hsized := (sized_start n pool).requests ps
      obtain ⟨name, hnew⟩ := exists_new ((start n pool).requests ps).cache hsized.size
      refine ⟨ps ++ [(name, [])], ?_⟩
      have hroom : ¬ n < ((start n pool).requests ps).cache.readCache.size + 1 := by
        have := hsized.size
        omega
      rw [requests_append, request_miss hnew, ReadCache.insertToCache, hsized.cacheSize,
        if_neg hroom]
      exact congrArg (· + 1) hidx

theorem not_coherent_of_gt (hn : 64 < n) (pool : Nat → Bytes) :
    ∃ ps, ¬ Coherent ((start n pool).requests ps) := by
  obtain ⟨ps, hidx⟩ := exists_index hn pool n
  have hsized := (sized_start n pool).requests ps
  obtain ⟨name, hnew⟩ := exists_new ((start n pool).requests ps).cache hsized.size
  have hroom : ¬ n < ((start n pool).requests ps).cache.readCache.size + 1 := by
    have := hsized.size
    omega
  refine ⟨ps ++ [(name, [])], fun hco => ?_⟩
  have hslots := hco.slots
  rw [((sized_start n pool).requests _).cacheSize, requests_append, request_miss hnew] at hslots
  have hlt := hslots _ (List.mem_cons_self ..)
  rw [ReadCache.insertSlot, hsized.cacheSize, if_neg hroom, hidx] at hlt
  exact lt_irrefl _ hlt

end CacheTrace

open CacheTrace

/-- A restore cache reads what was inserted, from a slot of its pool, in every
sequence of requests if and only if its pool has as many slots as the LRU
cache has names. -/
theorem coherent_iff {cacheSize : Nat} (hpos : 1 ≤ cacheSize) (pool : Nat → Bytes) :
    (∀ ps, Coherent ((start cacheSize pool).requests ps)) ↔ cacheSize = ReadCache.trueCacheSize := by
  constructor
  · intro hall
    by_contra hne
    rcases Nat.lt_or_gt_of_ne hne with hlt | hgt
    · obtain ⟨ps, hps⟩ := not_coherent_of_lt hpos hlt pool
      exact hps (hall ps)
    · obtain ⟨ps, hps⟩ := not_coherent_of_gt hgt pool
      exact hps (hall ps)
  · rintro rfl ps
    exact ((inStep_start pool).requests ps).coherent

/-- The size that the repository configures. -/
theorem coherent_configured : 1 ≤ 64 ∧ ∀ ps, Coherent ((start 64 fun _ => []).requests ps) :=
  ⟨by decide, (coherent_iff (by decide) _).mpr rfl⟩

/-- With one slot the second container is also read under the first name. -/
theorem not_coherent_oneSlot : ¬ Coherent ((start 1 fun _ => []).requests
    [(BytesN.ofBytes 7 [49], [0]), (BytesN.ofBytes 7 [50], [1])]) := by
  intro h
  obtain ⟨data, body, cache, hdata, hbody, hpre⟩ := h.reads (BytesN.ofBytes 7 [49]) (by decide +kernel)
  obtain rfl : [0] = data := Option.some.inj hdata
  obtain rfl : [1] = body := congrArg Prod.fst (Option.some.inj hbody)
  exact absurd hpre (by decide)

end ShieldReduce
