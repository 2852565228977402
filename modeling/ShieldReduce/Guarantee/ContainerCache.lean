import ShieldReduce.System.State
import ShieldReduce.Lib.LruCache

/-!
# Runs of the container cache

Calls of `ExistsInCache`, `ReadFromCache` and `InsertToCache_Offline` in
any order, where `OfflinedeltaTure` inserts a name only after the cache
has said that it is not there. `InsertToCache_Offline` looks at the least
recent name's slot, fills it, and leaves it to the list's own `prune` to
drop that name: the two agree on when the cache is full, so after every
run each name has a slot of its own (`InContainercache.Valid`), and the
names stand in the order of their last use (`History.Kept`).

`ReadFromCache` answers a pointer into the pool. Here it answers the bytes
that are there at the time of the call.
-/

namespace ShieldReduce

open ByteLib

namespace InContainercache

/-! ## Names -/

def names (c : InContainercache) : List ContainerName := c.keys.map Prod.fst

theorem existsInCache_iff {c : InContainercache} {name : ContainerName} :
    c.existsInCache name = true ↔ name ∈ c.names := by
  constructor
  · intro h
    obtain ⟨k, -, hmem⟩ := find_of_exists h
    exact List.mem_map.mpr ⟨(name, k), hmem, rfl⟩
  · intro h
    obtain ⟨p, hp, rfl⟩ := List.mem_map.mp h
    by_contra hnot
    exact not_mem_of_not_exists (Bool.eq_false_iff.mpr hnot) hp

theorem names_of_not_exists {c : InContainercache} {name : ContainerName}
    (h : c.existsInCache name = false) : name ∉ c.names := fun hmem => by
  rw [existsInCache_iff.mpr hmem] at h
  cases h

theorem slot_eq_some {c : InContainercache} (hv : c.Valid) {name : ContainerName} {k : Nat} :
    c.slot name = some k ↔ (name, k) ∈ c.keys := by
  constructor
  · intro h
    have hex : c.existsInCache name = true := by rw [existsInCache, h]; rfl
    obtain ⟨j, hfind, hmem⟩ := find_of_exists hex
    rw [slot, hfind] at h
    rwa [← Option.some.inj h]
  · intro h
    have hex : c.existsInCache name = true :=
      existsInCache_iff.mpr (List.mem_map.mpr ⟨(name, k), h, rfl⟩)
    obtain ⟨j, hfind, hmem⟩ := find_of_exists hex
    rw [slot, hfind, List.inj_on_of_nodup_map hv.names hmem h rfl]
    rfl

/-- A read name goes to the front. -/
theorem names_touch {c : InContainercache} {name : ContainerName}
    (h : c.existsInCache name = true) :
    (c.touch name).names = name :: c.names.filter fun n => n ≠ name := by
  obtain ⟨k, hfind, -⟩ := find_of_exists h
  rw [touch, hfind]
  show name :: (c.keys.filter fun q => q.1 ≠ name).map Prod.fst = _
  rw [names, List.filter_map]
  rfl

/-- A new name goes to the front, and a name that is one too many goes. -/
theorem names_insertToCacheOffline {c : InContainercache} {name : ContainerName}
    (h : c.existsInCache name = false) (data : Bytes) :
    (c.insertToCacheOffline name data).names = (name :: c.names).take cacheSize := by
  have hkey : ∀ v, (insertKey c.keys name v).map Prod.fst = (name :: c.names).take cacheSize := by
    intro v
    rw [existsInCache, slot, Option.isSome_map] at h
    rw [insertKey, h, if_neg Bool.false_ne_true, List.map_take]
    rfl
  unfold insertToCacheOffline
  split
  · exact hkey _
  · exact hkey _

/-! ## Calls -/

inductive Call where
  | existsInCache (name : ContainerName)
  | readFromCache (name : ContainerName)
  | insertToCacheOffline (name : ContainerName) (data : Bytes)

/-- The cache after a run, and what the run did. -/
structure History where
  cache : InContainercache
  /-- The names that were read or inserted, the last one first. -/
  used : List ContainerName
  /-- What was inserted, the last one first. -/
  inserted : List (ContainerName × Bytes)

namespace History

/-- A cache that was just created, with whatever the pool holds. -/
def start (pool : Nat → Bytes) : History := ⟨empty pool, [], []⟩

def call (h : History) : Call → History
  | .existsInCache _ => h
  | .readFromCache name =>
      -- `get` throws `KeyNotFound` before it moves anything
      if h.cache.existsInCache name then
        { h with cache := (h.cache.readFromCache name).2, used := name :: h.used }
      else h
  | .insertToCacheOffline name data =>
      { cache := h.cache.insertToCacheOffline name data
        used := name :: h.used
        inserted := (name, data) :: h.inserted }

/-- `OfflinedeltaTure` inserts a name that is not there. -/
def Allowed (h : History) : Call → Prop
  | .insertToCacheOffline name _ => h.cache.existsInCache name = false
  | _ => True

def run (h : History) (calls : List Call) : History := calls.foldl call h

/-- Every call of the run is allowed when it is made. -/
def AllowedRun : History → List Call → Prop
  | _, [] => True
  | h, c :: calls => h.Allowed c ∧ (h.call c).AllowedRun calls

/-- The least recently read or inserted name, where there is no slot left. -/
def Victim (h : History) (name : ContainerName) : Prop :=
  h.cache.names.length = cacheSize ∧ name ∈ h.cache.names ∧
    ∀ n ∈ h.cache.names, n ≠ name → h.used.idxOf n < h.used.idxOf name

/-- What every run keeps: slots are not shared, the names stand in the order
of their last use, and a name answers with what was inserted last. -/
structure Kept (h : History) : Prop where
  valid : h.cache.Valid
  order : h.cache.names.Pairwise fun m n => h.used.idxOf m < h.used.idxOf n
  caches : ∀ name data, h.cache.Caches name data → h.inserted.lookup name = some data

theorem kept_start (pool : Nat → Bytes) : (start pool).Kept where
  valid := valid_empty pool
  order := List.Pairwise.nil
  caches := fun _ _ ⟨_, hk, _⟩ => (List.not_mem_nil hk).elim

/-- The name used now comes before the others, whose order stays. -/
theorem order_cons {used l : List ContainerName} {name : ContainerName}
    (h : l.Pairwise fun m n => used.idxOf m < used.idxOf n) (hne : ∀ n ∈ l, n ≠ name) :
    (name :: l).Pairwise fun m n => (name :: used).idxOf m < (name :: used).idxOf n := by
  refine List.pairwise_cons.mpr ⟨fun n hn => ?_, h.imp_of_mem fun {m n} hm hn hlt => ?_⟩
  · rw [List.idxOf_cons_self, List.idxOf_cons_ne _ (hne n hn).symm]
    exact Nat.succ_pos _
  · rw [List.idxOf_cons_ne _ (hne m hm).symm, List.idxOf_cons_ne _ (hne n hn).symm]
    exact Nat.succ_lt_succ hlt

theorem Kept.readFromCache {h : History} (hk : h.Kept) {name : ContainerName}
    (hin : h.cache.existsInCache name = true) :
    Kept { h with cache := (h.cache.readFromCache name).2, used := name :: h.used } where
  valid := hk.valid.touch name
  order := by
    show (h.cache.touch name).names.Pairwise _
    rw [names_touch hin]
    refine order_cons (hk.order.filter _) fun n hn => ?_
    simpa using (List.mem_filter.mp hn).2
  caches := fun n data hn => hk.caches n data hn.of_touch

theorem Kept.insertToCacheOffline {h : History} (hk : h.Kept) {name : ContainerName}
    (hnew : h.cache.existsInCache name = false) (data : Bytes) :
    (h.call (.insertToCacheOffline name data)).Kept where
  valid := hk.valid.insertToCacheOffline hnew data
  order := by
    show (h.cache.insertToCacheOffline name data).names.Pairwise _
    rw [names_insertToCacheOffline hnew]
    refine List.Pairwise.sublist (List.take_sublist _ _) (order_cons hk.order ?_)
    rintro n hn rfl
    exact names_of_not_exists hnew hn
  caches := by
    intro n x hx
    show ((name, data) :: h.inserted).lookup n = some x
    rcases hx.of_insert hk.valid hnew with ⟨rfl, rfl⟩ | hold
    · rw [List.lookup_cons_self]
    · have hne : n ≠ name := by
        rintro rfl
        obtain ⟨k, hmem, -⟩ := hold
        exact not_mem_of_not_exists hnew hmem
      rw [List.lookup_cons, beq_false_of_ne hne]
      exact hk.caches n x hold

theorem Kept.call {h : History} (hk : h.Kept) {c : Call} (ha : h.Allowed c) : (h.call c).Kept := by
  cases c with
  | existsInCache name => exact hk
  | readFromCache name =>
      show Kept (if h.cache.existsInCache name = true then _ else h)
      split
      · rename_i hin
        exact hk.readFromCache hin
      · exact hk
  | insertToCacheOffline name data => exact hk.insertToCacheOffline ha data

theorem Kept.run : ∀ (calls : List Call) {h : History}, h.Kept → h.AllowedRun calls →
    (h.run calls).Kept
  | [], _, hk, _ => hk
  | _ :: calls, _, hk, ⟨ha, hrest⟩ => Kept.run calls (hk.call ha) hrest

/-! ## What a call evicts -/

theorem Kept.slot_inj {h : History} (hk : h.Kept) {m n : ContainerName} {k : Nat}
    (hm : h.cache.slot m = some k) (hn : h.cache.slot n = some k) : m = n := by
  rw [slot_eq_some hk.valid] at hm hn
  exact congrArg Prod.fst (List.inj_on_of_nodup_map hk.valid.slots hm hn rfl)

theorem Kept.slot_lt {h : History} (hk : h.Kept) {n : ContainerName} {k : Nat}
    (hn : h.cache.slot n = some k) : k < cacheSize := by
  have hb := hk.valid.bound _ ((slot_eq_some hk.valid).mp hn)
  have hcount := hk.valid.count
  have hsize := hk.valid.size
  omega

theorem Kept.read {h : History} (hk : h.Kept) {n : ContainerName}
    (hn : h.cache.existsInCache n = true) :
    h.inserted.lookup n = some (h.cache.readFromCache n).1 :=
  hk.caches n _ (caches_readFromCache hn)

/-- Of the names in the cache an insertion drops the victim and no other. -/
theorem Kept.dropped_iff {h : History} (hk : h.Kept) {name m : ContainerName} {data : Bytes}
    (hnew : h.cache.existsInCache name = false) (hm : m ∈ h.cache.names) :
    m ∉ (h.cache.insertToCacheOffline name data).names ↔ h.Victim m := by
  have hne : m ≠ name := by
    rintro rfl
    exact names_of_not_exists hnew hm
  have hsize : h.cache.names.length ≤ cacheSize := by
    rw [names, List.length_map]
    exact hk.valid.size
  have htake : (name :: h.cache.names).take cacheSize =
      name :: h.cache.names.take (cacheSize - 1) := rfl
  rw [names_insertToCacheOffline hnew, htake, List.mem_cons, or_iff_right hne, Victim]
  by_cases hfull : h.cache.names.length = cacheSize
  · rw [← hfull, ← List.dropLast_eq_take, LruLib.not_mem_dropLast_iff hk.order hm]
    exact ⟨fun hlast => ⟨rfl, hm, hlast⟩, fun hv => hv.2.2⟩
  · rw [List.take_of_length_le (by omega)]
    exact ⟨fun hnot => absurd hm hnot, fun hv => absurd hv.1 hfull⟩

theorem names_call_of_not_insert {h : History} (hk : h.Kept) {c : Call}
    (hc : ∀ name data, c ≠ .insertToCacheOffline name data) (m : ContainerName) :
    m ∈ (h.call c).cache.names ↔ m ∈ h.cache.names := by
  cases c with
  | existsInCache name => exact Iff.rfl
  | readFromCache name =>
      show m ∈ (if h.cache.existsInCache name = true then _ else h).cache.names ↔ _
      split
      · exact ((perm_touch hk.valid name).map Prod.fst).mem_iff
      · exact Iff.rfl
  | insertToCacheOffline name data => exact absurd rfl (hc name data)

instance (h : History) : (c : Call) → Decidable (h.Allowed c)
  | .insertToCacheOffline name _ =>
      inferInstanceAs (Decidable (h.cache.existsInCache name = false))
  | .existsInCache _ | .readFromCache _ => inferInstanceAs (Decidable True)

instance decidableAllowedRun : (h : History) → (calls : List Call) → Decidable (h.AllowedRun calls)
  | _, [] => inferInstanceAs (Decidable True)
  | h, c :: calls =>
      have := decidableAllowedRun (h.call c) calls
      inferInstanceAs (Decidable (h.Allowed c ∧ (h.call c).AllowedRun calls))

instance (h : History) (name : ContainerName) : Decidable (h.Victim name) :=
  inferInstanceAs (Decidable (_ ∧ _ ∧ ∀ n ∈ h.cache.names, _))

/-- Ten containers, of which the first is read once more. -/
def fillAndRead : List Call :=
  (List.range cacheSize).map (fun i => .insertToCacheOffline (containerName i) [.ofNat i]) ++
    [.readFromCache (containerName 0)]

end History

end InContainercache

end ShieldReduce
