import Mathlib.Algebra.Order.BigOperators.Group.List
import Mathlib.Algebra.Order.Ring.Nat
import Mathlib.Data.List.AList

/-!
# Hash maps and hash multimaps

A hash map is an association list without duplicate keys; its iteration
order is not part of its meaning, so code that iterates over one is
given a `WalkOrder`, an arbitrary permutation of the entries.

A multimap that is only filled by `m[k].push_back(v)` and emptied by
`erase` never holds an empty list under a key: its values are non-empty
lists. `getList` reads a missing key as the empty list, and the two
`getList` lemmas are all that proofs need of the operations.
-/

namespace UMapLib

variable {α β : Type}

abbrev UMap (α β : Type) := AList (fun _ : α => β)

/-- The order in which the entries of a map are visited. -/
structure WalkOrder where
  walk : {γ : Type} → List γ → List γ
  perm : ∀ {γ : Type} (l : List γ), (walk l).Perm l

/-- Entries in the order they are stored in. -/
def WalkOrder.stored : WalkOrder := ⟨fun l => l, fun l => List.Perm.refl l⟩

/-- The entries as pairs. -/
def pairs (m : UMap α β) : List (α × β) := m.entries.map fun e => (e.1, e.2)

theorem pairs_nodup_fst (m : UMap α β) : ((pairs m).map Prod.fst).Nodup := by
  have h : (pairs m).map Prod.fst = m.keys := by simp [pairs, AList.keys, List.keys]
  rw [h]
  exact m.keys_nodup

variable [DecidableEq α]

theorem mem_pairs {m : UMap α β} {a : α} {b : β} : (a, b) ∈ pairs m ↔ m.lookup a = some b := by
  constructor
  · intro h
    obtain ⟨e, he, heq⟩ := List.mem_map.mp h
    obtain ⟨rfl, rfl⟩ := Prod.mk.injEq .. |>.mp heq
    exact AList.mem_lookup_iff.mpr he
  · intro h
    exact List.mem_map.mpr ⟨⟨a, b⟩, AList.mem_lookup_iff.mp h, rfl⟩

theorem lookup_eq_if {m : UMap α β} {a a' : α} {b : β} :
    (m.insert a b).lookup a' = if a' = a then some b else m.lookup a' := by
  split
  · rename_i h
    subst h
    exact AList.lookup_insert m
  · rename_i h
    exact AList.lookup_insert_ne h

theorem lookup_erase_if {m : UMap α β} {a a' : α} :
    (m.erase a).lookup a' = if a' = a then none else m.lookup a' := by
  split
  · rename_i h
    subst h
    exact AList.lookup_erase _ m
  · rename_i h
    exact AList.lookup_erase_ne h

/-- `m.insert(make_pair(a, b))`, which keeps what is there. -/
def insertNew (m : UMap α β) (p : α × β) : UMap α β := if p.1 ∈ m then m else m.insert p.1 p.2

/-- Inserting entries with different keys adds them all. -/
theorem lookup_foldl_insertNew : ∀ (l : List (α × β)) {m : UMap α β}, (l.map Prod.fst).Nodup →
    (∀ p ∈ l, p.1 ∉ m) → ∀ (a : α) (b : β),
      (l.foldl insertNew m).lookup a = some b ↔ m.lookup a = some b ∨ (a, b) ∈ l
  | [], _, _, _, _, _ => by simp
  | p :: l, m, hnd, hnew, a, b => by
      obtain ⟨hp, hnd'⟩ := List.nodup_cons.mp hnd
      have hpm : p.1 ∉ m := hnew p (by simp)
      have hnext : ∀ q ∈ l, q.1 ∉ m.insert p.1 p.2 := by
        intro q hq hmem
        rcases (AList.mem_insert m).mp hmem with heq | hm
        · exact hp (heq ▸ List.mem_map.mpr ⟨q, hq, rfl⟩)
        · exact hnew q (by simp [hq]) hm
      rw [List.foldl_cons, insertNew, if_neg hpm, lookup_foldl_insertNew l hnd' hnext,
        lookup_eq_if, List.mem_cons]
      by_cases ha : a = p.1
      · subst ha
        have hnone : m.lookup p.1 = none := AList.lookup_eq_none.mpr hpm
        simp [hnone, Prod.ext_iff, eq_comm]
      · have hne : (a, b) ≠ p := fun h => ha (congrArg Prod.fst h)
        simp [ha, hne]

/-- So does inserting them with `m[a] = b`. -/
theorem lookup_foldl_insert (l : List (α × β)) {m : UMap α β} (hnd : (l.map Prod.fst).Nodup)
    (hnew : ∀ p ∈ l, p.1 ∉ m) (a : α) (b : β) :
    (l.foldl (fun m p => m.insert p.1 p.2) m).lookup a = some b ↔ m.lookup a = some b ∨ (a, b) ∈ l := by
  have hsame : l.foldl (fun m p => m.insert p.1 p.2) m = l.foldl insertNew m := by
    induction l generalizing m with
    | nil => rfl
    | cons p l ih =>
        obtain ⟨hp, hnd'⟩ := List.nodup_cons.mp hnd
        rw [List.foldl_cons, List.foldl_cons, insertNew, if_neg (hnew p (List.mem_cons_self ..))]
        refine ih hnd' fun q hq hmem => ?_
        rcases (AList.mem_insert m).mp hmem with heq | hm
        · exact hp (heq ▸ List.mem_map.mpr ⟨q, hq, rfl⟩)
        · exact hnew q (List.mem_cons_of_mem _ hq) hm
  rw [hsame, lookup_foldl_insertNew l hnd hnew]

/-- Inserting one value under a list of keys. -/
theorem lookup_foldl_insert_const (b : β) : ∀ (l : List α) {m : UMap α β} (a : α),
    (l.foldl (fun m s => m.insert s b) m).lookup a = if a ∈ l then some b else m.lookup a
  | [], _, _ => by simp
  | s :: l, m, a => by
      rw [List.foldl_cons, lookup_foldl_insert_const b l, lookup_eq_if]
      by_cases hl : a ∈ l <;> by_cases hs : a = s <;> simp [hl, hs]

/-- What is inserted comes from the list. -/
theorem mem_fst_pairs_foldl_insert : ∀ (l : List (α × β)) {m : UMap α β} {a : α},
    a ∈ (pairs (l.foldl (fun m p => m.insert p.1 p.2) m)).map Prod.fst →
      a ∈ (pairs m).map Prod.fst ∨ a ∈ l.map Prod.fst
  | [], _, _, h => Or.inl h
  | p :: l, m, a, h => by
      rcases mem_fst_pairs_foldl_insert l h with h | h
      · obtain ⟨⟨a', b⟩, hb, rfl⟩ := List.mem_map.mp h
        have hlook := mem_pairs.mp hb
        rw [lookup_eq_if] at hlook
        split at hlook
        · rename_i heq
          exact Or.inr (heq ▸ List.mem_cons_self ..)
        · exact Or.inl (List.mem_map.mpr ⟨(a', b), mem_pairs.mpr hlook, rfl⟩)
      · exact Or.inr (List.mem_cons_of_mem _ h)

theorem eq_empty_of_lookup {m : UMap α β} (h : ∀ a, m.lookup a = none) : m = ∅ := by
  apply AList.ext
  rw [AList.empty_entries]
  refine List.eq_nil_iff_forall_not_mem.mpr fun e he => ?_
  have := AList.mem_lookup_iff.mpr he
  rw [Option.mem_def, h e.1] at this
  cases this

/-! ## Totals -/

/-- The sum of a weight over a map. -/
def totalOn (w : α → β → Nat) (m : UMap α β) : Nat := ((pairs m).map fun p => w p.1 p.2).sum

/-- The sum of a weight over the values of a map. -/
def total (w : β → Nat) (m : UMap α β) : Nat := ((pairs m).map fun p => w p.2).sum

omit [DecidableEq α] in
theorem total_empty (w : β → Nat) : total w (∅ : UMap α β) = 0 := rfl

section Weights

variable {w : α → β → Nat} {m m' : UMap α β} {a : α} {b : β}

/-- Maps with the same weights under the same keys. -/
theorem totalOn_congr (h : ∀ a, (m.lookup a).map (w a) = (m'.lookup a).map (w a)) :
    totalOn w m = totalOn w m' := by
  have hmem : ∀ (m : UMap α β) (a : α) (x : Nat),
      (a, x) ∈ (pairs m).map (fun p => (p.1, w p.1 p.2)) ↔ (m.lookup a).map (w a) = some x := by
    intro m a x
    constructor
    · intro hx
      obtain ⟨⟨a', b⟩, hb, heq⟩ := List.mem_map.mp hx
      obtain ⟨rfl, rfl⟩ := Prod.mk.injEq .. |>.mp heq
      rw [mem_pairs.mp hb]
      rfl
    · intro hx
      obtain ⟨b, hb, rfl⟩ := Option.map_eq_some_iff.mp hx
      exact List.mem_map.mpr ⟨(a, b), mem_pairs.mpr hb, rfl⟩
  have hnd : ∀ m : UMap α β, ((pairs m).map (fun p => (p.1, w p.1 p.2))).Nodup := by
    intro m
    refine List.Nodup.of_map Prod.fst ?_
    rw [List.map_map]
    exact pairs_nodup_fst m
  have hperm : ((pairs m).map (fun p => (p.1, w p.1 p.2))).Perm
      ((pairs m').map (fun p => (p.1, w p.1 p.2))) := by
    refine (List.perm_ext_iff_of_nodup (hnd m) (hnd m')).mpr fun x => ?_
    rw [hmem m x.1 x.2, hmem m' x.1 x.2, h]
  have hsum := (hperm.map Prod.snd).sum_nat
  rw [List.map_map, List.map_map] at hsum
  exact hsum

theorem totalOn_insert : totalOn w (m.insert a b) = w a b + totalOn w (m.erase a) := rfl

theorem totalOn_erase (h : m.lookup a = some b) : totalOn w m = w a b + totalOn w (m.erase a) := by
  have hsame : ∀ a', ((m.insert a b).lookup a').map (w a') = (m.lookup a').map (w a') := by
    intro a'
    rw [lookup_eq_if]
    split
    · rename_i heq
      rw [heq, h]
    · rfl
  rw [← totalOn_congr hsame, totalOn_insert]

/-- The values of the map weigh at most as much. -/
theorem totalOn_mono {w' : α → β → Nat} (h : ∀ a b, m.lookup a = some b → w a b ≤ w' a b) :
    totalOn w m ≤ totalOn w' m :=
  List.sum_le_sum fun p hp => h p.1 p.2 (mem_pairs.mp hp)

end Weights

theorem total_congr {w : β → Nat} {m m' : UMap α β}
    (h : ∀ a, (m.lookup a).map w = (m'.lookup a).map w) : total w m = total w m' :=
  totalOn_congr (w := fun _ => w) h

theorem total_insert (w : β → Nat) (m : UMap α β) (a : α) (b : β) :
    total w (m.insert a b) = w b + total w (m.erase a) := rfl

theorem total_erase {w : β → Nat} {m : UMap α β} {a : α} {b : β} (h : m.lookup a = some b) :
    total w m = w b + total w (m.erase a) :=
  totalOn_erase (w := fun _ => w) h

theorem total_insert_new {w : β → Nat} {m : UMap α β} {a : α} (h : m.lookup a = none) (b : β) :
    total w (m.insert a b) = w b + total w m := by
  have hsame : ∀ a', ((m.erase a).lookup a').map w = (m.lookup a').map w := by
    intro a'
    rw [lookup_erase_if]
    split
    · rename_i heq
      rw [heq, h]
    · rfl
  rw [total_insert, total_congr hsame]

/-! ## Multimaps -/

abbrev NeList (β : Type) := { l : List β // l ≠ [] }

abbrev MultiMap (α β : Type) := UMap α (NeList β)

/-- The list under a key, empty where there is none. -/
def getList (m : MultiMap α β) (a : α) : List β := ((m.lookup a).map Subtype.val).getD []

/-- `m[a].push_back(b)`. -/
def pushBack (m : MultiMap α β) (a : α) (b : β) : MultiMap α β :=
  m.insert a ⟨getList m a ++ [b], by simp⟩

theorem getList_pushBack (m : MultiMap α β) (a : α) (b : β) (a' : α) :
    getList (pushBack m a b) a' = if a' = a then getList m a ++ [b] else getList m a' := by
  rw [getList, pushBack, lookup_eq_if]
  split
  · rfl
  · rfl

theorem getList_erase (m : MultiMap α β) (a a' : α) :
    getList (m.erase a) a' = if a' = a then [] else getList m a' := by
  rw [getList, lookup_erase_if]
  split <;> rfl

@[simp] theorem getList_empty (a : α) : getList (∅ : MultiMap α β) a = [] := rfl

/-- A key is present exactly when its list is not empty. -/
theorem lookup_eq_none_iff_getList {m : MultiMap α β} {a : α} :
    m.lookup a = none ↔ getList m a = [] := by
  rw [getList]
  cases h : m.lookup a with
  | none => simp
  | some l => simpa using l.2

/-- Two multimaps with the same lists have the same keys. -/
theorem lookup_eq_of_getList {m m' : MultiMap α β} {a : α} (h : getList m a = getList m' a) :
    m.lookup a = m'.lookup a := by
  cases hm' : m'.lookup a with
  | none => exact lookup_eq_none_iff_getList.mpr (h.trans (lookup_eq_none_iff_getList.mp hm'))
  | some l' =>
      rw [getList, getList, hm'] at h
      cases hm : m.lookup a with
      | none =>
          rw [hm] at h
          exact absurd h.symm l'.2
      | some l =>
          rw [hm] at h
          exact congrArg some (Subtype.ext h)

/-- How many values there are under all keys together. -/
def listed (m : MultiMap α β) : Nat := total (fun l : NeList β => l.1.length) m

theorem listed_pushBack (m : MultiMap α β) (a : α) (b : β) :
    listed (pushBack m a b) = listed m + 1 := by
  rw [listed, listed, pushBack]
  cases hm : m.lookup a with
  | none =>
      have hnil := lookup_eq_none_iff_getList.mp hm
      rw [total_insert_new hm]
      simp only [hnil, List.nil_append, List.length_singleton]
      exact Nat.add_comm _ _
  | some l =>
      have hl : getList m a = l.1 := by
        rw [getList, hm]
        rfl
      rw [total_insert, total_erase hm]
      simp only [hl, List.length_append, List.length_singleton]
      omega

/-- Different keys have no more values than all keys. -/
theorem sum_length_getList_le : ∀ {ks : List α} {m : MultiMap α β}, ks.Nodup →
    (ks.map fun k => (getList m k).length).sum ≤ listed m
  | [], _, _ => Nat.zero_le _
  | k :: ks, m, h => by
      obtain ⟨hk, hks⟩ := List.nodup_cons.mp h
      have hrest := @sum_length_getList_le ks (m.erase k) hks
      have hsame : (ks.map fun k' => (getList (m.erase k) k').length) =
          ks.map fun k' => (getList m k').length := by
        refine List.map_congr_left fun k' hk' => ?_
        rw [getList_erase, if_neg]
        rintro rfl
        exact hk hk'
      rw [hsame] at hrest
      rw [List.map_cons, List.sum_cons]
      cases hm : m.lookup k with
      | none =>
          have herase : listed (m.erase k) = listed m := by
            refine total_congr fun a => ?_
            rw [lookup_erase_if]
            split
            · rename_i heq
              rw [heq, hm]
            · rfl
          rw [lookup_eq_none_iff_getList.mp hm, List.length_nil]
          omega
      | some l =>
          have hl : getList m k = l.1 := by
            rw [getList, hm]
            rfl
          have htotal : listed m = l.1.length + listed (m.erase k) := total_erase hm
          rw [hl]
          omega

/-- Every key with every value of its list, in the order they are visited. -/
def elements (w : WalkOrder) (m : MultiMap α β) : List (α × β) :=
  (w.walk (pairs m)).flatMap fun p => p.2.1.map fun v => (p.1, v)

theorem filter_elements_of_entries (a : α) : ∀ {l : List (α × NeList β)}, (l.map Prod.fst).Nodup →
    ((l.flatMap fun p => p.2.1.map fun v => (p.1, v)).filter fun p => p.1 = a).map Prod.snd =
      ((l.find? fun p => p.1 = a).map fun p => p.2.1).getD []
  | [], _ => rfl
  | p :: l, hnd => by
      obtain ⟨hp, hnd'⟩ := List.nodup_cons.mp hnd
      have ih := filter_elements_of_entries a hnd'
      rw [List.flatMap_cons, List.filter_append, List.map_append, ih, List.find?_cons]
      by_cases ha : p.1 = a
      · have hnone : l.find? (fun q => q.1 = a) = none := by
          refine List.find?_eq_none.mpr fun q hq hqa => hp ?_
          rw [ha, ← of_decide_eq_true hqa]
          exact List.mem_map.mpr ⟨q, hq, rfl⟩
        have hall : (p.2.1.map fun v => (p.1, v)).filter (fun q => q.1 = a) =
            p.2.1.map fun v => (p.1, v) := by
          refine List.filter_eq_self.mpr fun q hq => ?_
          obtain ⟨v, -, rfl⟩ := List.mem_map.mp hq
          exact decide_eq_true ha
        have hsnd : (p.2.1.map fun v => (p.1, v)).map Prod.snd = p.2.1 := by
          rw [List.map_map]
          exact List.map_id _
        rw [hnone, hall, hsnd]
        simp [ha]
      · have hnil : (p.2.1.map fun v => (p.1, v)).filter (fun q => q.1 = a) = [] := by
          refine List.filter_eq_nil_iff.mpr fun q hq => ?_
          obtain ⟨v, -, rfl⟩ := List.mem_map.mp hq
          simpa using ha
        rw [hnil]
        simp [ha]

/-- The elements under one key are its list. -/
theorem filter_elements (w : WalkOrder) (m : MultiMap α β) (a : α) :
    ((elements w m).filter fun p => p.1 = a).map Prod.snd = getList m a := by
  have hperm := w.perm (pairs m)
  have hnd : ((w.walk (pairs m)).map Prod.fst).Nodup :=
    (hperm.map Prod.fst).nodup_iff.mpr (pairs_nodup_fst m)
  rw [elements, filter_elements_of_entries a hnd, getList]
  cases hf : (w.walk (pairs m)).find? fun p => p.1 = a with
  | none =>
      have hnone : m.lookup a = none := by
        rw [List.find?_eq_none] at hf
        refine Option.eq_none_iff_forall_ne_some.mpr fun l hl => ?_
        exact hf (a, l) (hperm.mem_iff.mpr (mem_pairs.mpr hl)) (by simp)
      rw [hnone]
      rfl
  | some p =>
      have ha : p.1 = a := by simpa using List.find?_some hf
      have hmem : (a, p.2) ∈ pairs m := ha ▸ hperm.mem_iff.mp (List.mem_of_find?_eq_some hf)
      rw [mem_pairs.mp hmem]
      rfl

end UMapLib
