import Mathlib.Algebra.Order.BigOperators.Group.Finset
import ShieldReduce.Lib.Loop

/-!
# Lists that are filled and emptied

A list for each key. An item is pushed to the end of a list, or a list is
taken as a whole and left empty. Items that are taken from one list may be
pushed to another, so a bound on one list has to count the lists that are
taken along: `Room n m S` says that no list grows beyond `n` items by `m`
more and by what the lists of the keys `S` hold. Pushes use up the `m`
(`Room.pushes`), and a list of `S` that is taken pays for as many pushes as
it had items (`Room.moves`).
-/

namespace DrawerLib

open LoopLib

variable {κ β : Type} [DecidableEq κ]

abbrev Drawers (κ β : Type) := κ → List β

inductive Access (κ β : Type) where
  | push (key : κ) (item : β)
  | take (key : κ)

def apply (L : Drawers κ β) : Access κ β → Drawers κ β
  | .push key item => Function.update L key (L key ++ [item])
  | .take key => Function.update L key []

/-- No list is longer than `n`. -/
def Within (n : Nat) (L : Drawers κ β) : Prop := ∀ key, (L key).length ≤ n

/-- No list is longer than `n` behind any of the accesses. -/
def Safe (n : Nat) (L : Drawers κ β) (as : List (Access κ β)) : Prop :=
  ∀ v ∈ visits apply L as, Within n (apply v.1 v.2)

/-- How many items the keys have together. -/
def held (L : Drawers κ β) (S : Finset κ) : Nat := ∑ k ∈ S, (L k).length

/-- Any list has room for its own items, those of the keys `S`, and `m` more. -/
def Room (n m : Nat) (S : Finset κ) (L : Drawers κ β) : Prop :=
  ∀ key, held L (insert key S) + m ≤ n

variable {n m : Nat} {S : Finset κ} {L : Drawers κ β} {as bs : List (Access κ β)}

theorem safe_nil : Safe n L [] := fun _ hv => by cases hv

theorem safe_cons (a : Access κ β) :
    Safe n L (a :: as) ↔ Within n (apply L a) ∧ Safe n (apply L a) as := by
  rw [Safe, visits_cons, List.forall_mem_cons]
  rfl

theorem safe_append : Safe n L (as ++ bs) ↔ Safe n L as ∧ Safe n (as.foldl apply L) bs := by
  induction as generalizing L with
  | nil => exact (and_iff_right safe_nil).symm
  | cons a as ih => rw [List.cons_append, safe_cons, safe_cons, ih, and_assoc, List.foldl_cons]

/-! ## One access -/

theorem held_push_le (key : κ) (item : β) (S : Finset κ) :
    held (apply L (.push key item)) S ≤ held L S + 1 := by
  by_cases hkey : key ∈ S
  · rw [held, held, ← Finset.add_sum_erase S _ hkey, ← Finset.add_sum_erase S _ hkey, apply,
      Function.update_self, List.length_append, List.length_singleton]
    have hrest : ∑ k ∈ S.erase key, (Function.update L key (L key ++ [item]) k).length =
        ∑ k ∈ S.erase key, (L k).length :=
      Finset.sum_congr rfl fun k hk => by rw [Function.update_of_ne (Finset.ne_of_mem_erase hk)]
    omega
  · refine le_trans (le_of_eq ?_) (Nat.le_succ _)
    refine Finset.sum_congr rfl fun k hk => ?_
    rw [apply, Function.update_of_ne]
    rintro rfl
    exact hkey hk

theorem held_take {key : κ} (hkey : key ∈ S) :
    held (apply L (.take key)) S + (L key).length = held L S := by
  rw [held, held, ← Finset.add_sum_erase S _ hkey, ← Finset.add_sum_erase S _ hkey, apply,
    Function.update_self, List.length_nil]
  have hrest : ∑ k ∈ S.erase key, (Function.update L key [] k).length =
      ∑ k ∈ S.erase key, (L k).length :=
    Finset.sum_congr rfl fun k hk => by rw [Function.update_of_ne (Finset.ne_of_mem_erase hk)]
  omega

namespace Room

theorem within (h : Room n m S L) : Within n L := by
  intro key
  have hone : (L key).length ≤ held L (insert key S) :=
    Finset.single_le_sum (fun k _ => Nat.zero_le (L k).length) (Finset.mem_insert_self key S)
  have hroom := h key
  omega

theorem mono (h : Room n m S L) {m' : Nat} (hle : m' ≤ m) : Room n m' S L := fun key =>
  le_trans (Nat.add_le_add_left hle _) (h key)

/-- Fewer keys hold no more. -/
theorem anti (h : Room n m S L) {S' : Finset κ} (hsub : S' ⊆ S) : Room n m S' L := fun key =>
  le_trans (Nat.add_le_add_right (Finset.sum_le_sum_of_subset (Finset.insert_subset_insert key hsub))
    m) (h key)

theorem push (h : Room n (m + 1) S L) (key : κ) (item : β) :
    Room n m S (apply L (.push key item)) := by
  intro key'
  have hpush := @held_push_le _ _ _ L key item (insert key' S)
  have hroom := h key'
  omega

/-- The items of a list that is taken can be pushed elsewhere. -/
theorem take (h : Room n m S L) {key : κ} (hkey : key ∈ S) :
    Room n (m + (L key).length) S (apply L (.take key)) := by
  intro key'
  have htake := @held_take _ _ _ (insert key' S) L key (Finset.mem_insert_of_mem hkey)
  have hroom := h key'
  omega

end Room

/-! ## Many accesses -/

/-- Nothing is taken. -/
def Pushes (as : List (Access κ β)) : Prop := ∀ a ∈ as, ∃ key item, a = .push key item

theorem Room.pushes (h : Room n (m + as.length) S L) (has : Pushes as) :
    Safe n L as ∧ Room n m S (as.foldl apply L) := by
  induction as generalizing L with
  | nil => exact ⟨safe_nil, h⟩
  | cons a as ih =>
      obtain ⟨key, item, rfl⟩ := has a (List.mem_cons_self ..)
      have hpush : Room n (m + as.length) S (apply L (.push key item)) := Room.push h key item
      obtain ⟨hsafe, hroom⟩ := ih hpush fun b hb => has b (List.mem_cons_of_mem _ hb)
      exact ⟨(safe_cons _).mpr ⟨hpush.within, hsafe⟩, hroom⟩

/-- A list is taken, and its items and one more are pushed elsewhere; or not all
of that happens. -/
def Moves (L : Drawers κ β) (src : κ) (as : List (Access κ β)) : Prop :=
  as = [] ∨ ∃ bs, as = .take src :: bs ∧ Pushes bs ∧ bs.length ≤ (L src).length + 1

theorem Room.moves {src : κ} (h : Room n (m + 1) S L) (hsrc : src ∈ S) (has : Moves L src as) :
    Safe n L as ∧ Room n m S (as.foldl apply L) := by
  rcases has with rfl | ⟨bs, rfl, hbs, hlen⟩
  · exact ⟨safe_nil, h.mono (Nat.le_succ m)⟩
  · have htake := h.take hsrc
    obtain ⟨hsafe, hroom⟩ := Room.pushes (htake.mono (show m + bs.length ≤ _ by omega)) hbs
    exact ⟨(safe_cons _).mpr ⟨htake.within, hsafe⟩, hroom⟩

end DrawerLib
