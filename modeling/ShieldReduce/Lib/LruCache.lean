import Mathlib.Data.List.Nodup
import Mathlib.Data.List.Infix

/-!
# An LRU cache

The cache of `lruCache.h`: a list of keys with their values, the most
recent first, and a hash map from the keys into the list. The list holds
a key once, so the map adds nothing to it and is left out.

A cache that is full grows by `elasticity` before it is pruned back to
`maxSize` keys, and `pruneValue` looks at the least recent value without
taking it out: whoever reuses that value relies on the next `insert` to
drop its key.
-/

namespace LruLib

structure Cache (α β : Type) where
  /-- The most recent key first. -/
  keys : List (α × β)
  maxSize : Nat
  elasticity : Nat
  nodup : (keys.map Prod.fst).Nodup

namespace Cache

variable {α β : Type}

def empty (maxSize elasticity : Nat) : Cache α β := ⟨[], maxSize, elasticity, List.nodup_nil⟩

def size (c : Cache α β) : Nat := c.keys.length

/-- Nothing is pruned from a cache whose `maxSize` is 0. -/
def prune (c : Cache α β) : Cache α β :=
  if c.maxSize = 0 ∨ c.size < c.maxSize + c.elasticity then c
  else { c with
    keys := c.keys.take c.maxSize
    nodup := ((List.take_sublist _ _).map _).nodup c.nodup }

/-- The value of the least recent key, which stays. -/
def pruneValue (c : Cache α β) : Option β := c.keys.getLast?.map Prod.snd

variable [DecidableEq α]

def find (c : Cache α β) (k : α) : Option β := (c.keys.find? fun p => p.1 = k).map Prod.snd

def contains (c : Cache α β) (k : α) : Bool := (c.find k).isSome

theorem nodup_front (c : Cache α β) (k : α) (v : β) :
    (((k, v) :: c.keys.filter fun p => p.1 ≠ k).map Prod.fst).Nodup := by
  rw [List.map_cons, List.nodup_cons]
  refine ⟨fun hmem => ?_, ((List.filter_sublist).map _).nodup c.nodup⟩
  obtain ⟨p, hp, heq⟩ := List.mem_map.mp hmem
  simpa [heq] using (List.mem_filter.mp hp).2

/-- The key comes to the front, with this value. -/
def front (c : Cache α β) (k : α) (v : β) : Cache α β :=
  { c with
    keys := (k, v) :: c.keys.filter fun p => p.1 ≠ k
    nodup := c.nodup_front k v }

/-- `none` is `KeyNotFound`. -/
def get (c : Cache α β) (k : α) : Option (β × Cache α β) := (c.find k).map fun v => (v, c.front k v)

def insert (c : Cache α β) (k : α) (v : β) : Cache α β :=
  if c.contains k then c.front k v else (c.front k v).prune

/-! ## What the operations do -/

theorem find_eq_some {c : Cache α β} {k : α} {v : β} : c.find k = some v ↔ (k, v) ∈ c.keys := by
  rw [find, Option.map_eq_some_iff]
  constructor
  · rintro ⟨⟨k', v'⟩, hp, rfl⟩
    have hk : k' = k := by simpa using List.find?_some hp
    subst hk
    exact List.mem_of_find?_eq_some hp
  · intro hmem
    have hsome : (c.keys.find? fun p => p.1 = k).isSome = true :=
      List.find?_isSome.mpr ⟨(k, v), hmem, by simp⟩
    obtain ⟨p, hp⟩ := Option.isSome_iff_exists.mp hsome
    have hk : p.1 = k := by simpa using List.find?_some hp
    have heq := List.inj_on_of_nodup_map c.nodup (List.mem_of_find?_eq_some hp) hmem hk
    exact ⟨p, hp, by rw [heq]⟩

theorem contains_iff {c : Cache α β} {k : α} : c.contains k = true ↔ ∃ v, (k, v) ∈ c.keys := by
  rw [contains, Option.isSome_iff_exists]
  exact exists_congr fun v => find_eq_some

theorem filter_ne_of_not_contains {c : Cache α β} {k : α} (h : c.contains k = false) :
    (c.keys.filter fun p => p.1 ≠ k) = c.keys := by
  refine List.filter_eq_self.mpr fun p hp => ?_
  refine decide_eq_true ?_
  rintro rfl
  rw [contains_iff.mpr ⟨p.2, hp⟩] at h
  cases h

theorem keys_front {c : Cache α β} {k : α} (h : c.contains k = false) (v : β) :
    (c.front k v).keys = (k, v) :: c.keys := by
  show (k, v) :: c.keys.filter (fun p => p.1 ≠ k) = _
  rw [filter_ne_of_not_contains h]

/-- Using a key that is there only changes the order of the keys. -/
theorem perm_front {c : Cache α β} {k : α} {v : β} (h : (k, v) ∈ c.keys) :
    (c.front k v).keys.Perm c.keys := by
  classical
  have hnd : c.keys.Nodup := List.Nodup.of_map _ c.nodup
  have herase : (c.keys.filter fun p => p.1 ≠ k) = c.keys.erase (k, v) := by
    rw [hnd.erase_eq_filter]
    refine List.filter_congr fun p hp => ?_
    have hiff : p.1 ≠ k ↔ p ≠ (k, v) := by
      constructor
      · rintro hne rfl
        exact hne rfl
      · intro hne heq
        exact hne (List.inj_on_of_nodup_map c.nodup hp h heq)
    exact Bool.eq_iff_iff.mpr (by simpa using hiff)
  show ((k, v) :: c.keys.filter (fun p => p.1 ≠ k)).Perm c.keys
  rw [herase]
  exact (List.perm_cons_erase h).symm

/-- A new key joins a cache that has room. -/
theorem keys_insert_of_lt {c : Cache α β} {k : α} (h : c.contains k = false) (v : β)
    (hroom : c.size < c.maxSize) : (c.insert k v).keys = (k, v) :: c.keys := by
  rw [insert, h, if_neg Bool.false_ne_true, prune]
  split
  · exact keys_front h v
  · show (c.front k v).keys.take c.maxSize = _
    rw [keys_front h, List.take_of_length_le (by rw [List.length_cons]; exact hroom)]

/-- A new key takes the place of the least recent one where the cache is full. -/
theorem keys_insert_of_full {c : Cache α β} {k : α} (h : c.contains k = false) (v : β)
    (hel : c.elasticity = 0) (hpos : 0 < c.maxSize) (hfull : c.size = c.maxSize) :
    (c.insert k v).keys = (k, v) :: c.keys.dropLast := by
  have hlen : (c.front k v).size = c.maxSize + 1 := by
    rw [size, keys_front h, List.length_cons, ← hfull]
    rfl
  have hprune : ¬ ((c.front k v).maxSize = 0 ∨
      (c.front k v).size < (c.front k v).maxSize + (c.front k v).elasticity) := by
    show ¬ (c.maxSize = 0 ∨ (c.front k v).size < c.maxSize + c.elasticity)
    rw [hlen, hel]
    omega
  rw [insert, h, if_neg Bool.false_ne_true, prune, if_neg hprune]
  show (c.front k v).keys.take c.maxSize = _
  obtain ⟨n, hn⟩ := Nat.exists_eq_succ_of_ne_zero (Nat.ne_of_gt hpos)
  have hkeys : c.keys.length - 1 = n := by
    have : c.keys.length = n + 1 := hfull.trans hn
    omega
  rw [keys_front h, hn, List.take_succ_cons, List.dropLast_eq_take, hkeys]

@[simp] theorem maxSize_front (c : Cache α β) (k : α) (v : β) : (c.front k v).maxSize = c.maxSize := rfl

@[simp] theorem elasticity_front (c : Cache α β) (k : α) (v : β) :
    (c.front k v).elasticity = c.elasticity := rfl

@[simp] theorem maxSize_insert (c : Cache α β) (k : α) (v : β) :
    (c.insert k v).maxSize = c.maxSize := by
  unfold insert prune
  split
  · rfl
  · split <;> rfl

@[simp] theorem elasticity_insert (c : Cache α β) (k : α) (v : β) :
    (c.insert k v).elasticity = c.elasticity := by
  unfold insert prune
  split
  · rfl
  · split <;> rfl

end Cache

/-! ## The last one in an order -/

/-- In a list that `f` orders, the last element is the one that `f` puts
after all the others. -/
theorem not_mem_dropLast_iff {α : Type} {f : α → Nat} {l : List α}
    (h : l.Pairwise fun a b => f a < f b) {a : α} (ha : a ∈ l) :
    a ∉ l.dropLast ↔ ∀ b ∈ l, b ≠ a → f b < f a := by
  have hne := List.ne_nil_of_mem ha
  have hsplit := List.dropLast_append_getLast hne
  have hlast : ∀ b ∈ l.dropLast, f b < f (l.getLast hne) := by
    rw [← hsplit, List.pairwise_append] at h
    exact fun b hb => h.2.2 b hb _ (List.mem_singleton_self _)
  have hcases : ∀ b ∈ l, b ∈ l.dropLast ∨ b = l.getLast hne := by
    intro b hb
    rw [← hsplit, List.mem_append, List.mem_singleton] at hb
    exact hb
  constructor
  · intro hnot b hb hba
    have heq := (hcases a ha).resolve_left hnot
    rw [heq] at hba ⊢
    exact hlast b ((hcases b hb).resolve_right hba)
  · intro hall hmem
    have hlt := hlast a hmem
    have hgt := hall _ (List.getLast_mem hne) fun heq => by
      rw [heq] at hlt
      exact lt_irrefl _ hlt
    exact lt_asymm hlt hgt

end LruLib
