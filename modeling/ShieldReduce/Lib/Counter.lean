import Mathlib.Algebra.BigOperators.Group.List.Basic
import Mathlib.Algebra.GroupWithZero.Nat
import Mathlib.Tactic.Common
import ShieldReduce.Lib.Loop

/-!
# A 64-bit counter that is drawn on

An exchange takes an amount from an unsigned counter and then gives
another one back. Whether the counter ever goes below zero on the way is a
matter of sums: each amount has to be covered by what was there at first and
what has been given back since (`noUnderflow_iff`). As long as it is, the
counter holds the real number (`toNat_foldl_apply`).

Where the exchanges come from the rounds of a loop, a potential that every round
decreases by what it takes bounds all of them (`sum_visits_le`).
-/

namespace CounterLib

open LoopLib

structure Exchange where
  taken : Nat
  given : Nat

def Exchange.apply (c : UInt64) (x : Exchange) : UInt64 :=
  c - UInt64.ofNat x.taken + UInt64.ofNat x.given

def taken (xs : List Exchange) : Nat := (xs.map Exchange.taken).sum

def given (xs : List Exchange) : Nat := (xs.map Exchange.given).sum

/-- No subtraction goes below zero. -/
def NoUnderflow : UInt64 → List Exchange → Prop
  | _, [] => True
  | c, x :: xs => x.taken ≤ c.toNat ∧ NoUnderflow (x.apply c) xs

instance decidableNoUnderflow : ∀ (c : UInt64) (xs : List Exchange), Decidable (NoUnderflow c xs)
  | _, [] => isTrue trivial
  | c, x :: xs =>
      have := decidableNoUnderflow (x.apply c) xs
      inferInstanceAs (Decidable (_ ∧ _))

/-- Every amount is covered when it is taken. -/
def Covered (n : Nat) (xs : List Exchange) : Prop :=
  ∀ k < xs.length, taken (xs.take (k + 1)) ≤ n + given (xs.take k)

instance (n : Nat) (xs : List Exchange) : Decidable (Covered n xs) :=
  inferInstanceAs (Decidable (∀ k < xs.length, taken (xs.take (k + 1)) ≤ n + given (xs.take k)))

variable {c : UInt64} {xs ys : List Exchange} {x : Exchange} {n : Nat}

@[simp] theorem taken_nil : taken [] = 0 := rfl

@[simp] theorem given_nil : given [] = 0 := rfl

@[simp] theorem taken_cons : taken (x :: xs) = x.taken + taken xs := by simp [taken]

@[simp] theorem given_cons : given (x :: xs) = x.given + given xs := by simp [given]

@[simp] theorem given_append : given (xs ++ ys) = given xs + given ys := by simp [given]

theorem toNat_apply (hle : x.taken ≤ c.toNat) (hlt : c.toNat + x.given < 2 ^ 64) :
    (x.apply c).toNat = c.toNat - x.taken + x.given := by
  have hc := c.toNat_lt
  have htaken : (UInt64.ofNat x.taken).toNat = x.taken := by
    rw [UInt64.toNat_ofNat']
    omega
  have hgiven : (UInt64.ofNat x.given).toNat = x.given := by
    rw [UInt64.toNat_ofNat']
    omega
  have hsub : (c - UInt64.ofNat x.taken).toNat = c.toNat - x.taken := by
    rw [UInt64.toNat_sub_of_le _ _ (by rw [UInt64.le_iff_toNat_le, htaken]; exact hle), htaken]
  rw [Exchange.apply, UInt64.toNat_add, hsub, hgiven]
  omega

theorem covered_cons : Covered n (x :: xs) ↔
    x.taken ≤ n ∧ Covered (n - x.taken + x.given) xs := by
  constructor
  · intro h
    have hfirst : x.taken ≤ n := by simpa using h 0 (by simp)
    refine ⟨hfirst, fun k hk => ?_⟩
    have hnext := h (k + 1) (by simpa using hk)
    rw [List.take_succ_cons, List.take_succ_cons, taken_cons, given_cons] at hnext
    omega
  · rintro ⟨hfirst, h⟩ k hk
    cases k with
    | zero => simpa using hfirst
    | succ k =>
        have hnext := h k (by simpa using hk)
        rw [List.take_succ_cons, List.take_succ_cons, taken_cons, given_cons]
        omega

theorem Covered.mono {m : Nat} (h : Covered n xs) (hle : n ≤ m) : Covered m xs := fun k hk =>
  Nat.le_trans (h k hk) (Nat.add_le_add_right hle _)

theorem noUnderflow_iff : ∀ {xs : List Exchange} {c : UInt64}, c.toNat + given xs < 2 ^ 64 →
    (NoUnderflow c xs ↔ Covered c.toNat xs)
  | [], _, _ => iff_of_true trivial fun _ hk => absurd hk (Nat.not_lt_zero _)
  | x :: xs, c, h => by
      rw [given_cons] at h
      rw [NoUnderflow, covered_cons]
      refine and_congr_right fun hle => ?_
      have hnat := toNat_apply hle (show c.toNat + x.given < 2 ^ 64 by omega)
      rw [noUnderflow_iff (by rw [hnat]; omega), hnat]

theorem noUnderflow_append : ∀ {xs : List Exchange} {c : UInt64},
    NoUnderflow c (xs ++ ys) ↔ NoUnderflow c xs ∧ NoUnderflow (xs.foldl Exchange.apply c) ys
  | [], _ => by simp [NoUnderflow]
  | x :: xs, c => by
      rw [List.cons_append, NoUnderflow, NoUnderflow, noUnderflow_append, and_assoc, List.foldl_cons]

/-- The counter holds the real number. -/
theorem toNat_foldl_apply : ∀ {xs : List Exchange} {c : UInt64}, c.toNat + given xs < 2 ^ 64 →
    NoUnderflow c xs → (xs.foldl Exchange.apply c).toNat + taken xs = c.toNat + given xs
  | [], _, _, _ => rfl
  | x :: xs, c, h, hno => by
      rw [given_cons] at h ⊢
      have hnat := toNat_apply hno.1 (show c.toNat + x.given < 2 ^ 64 by omega)
      have hrest := toNat_foldl_apply (by rw [hnat]; omega) hno.2
      have hle := hno.1
      rw [List.foldl_cons, taken_cons]
      omega

theorem covered_of_taken_le (h : taken xs ≤ n) : Covered n xs := by
  intro k _
  have hsplit : taken xs = taken (xs.take (k + 1)) + taken (xs.drop (k + 1)) := by
    rw [taken, taken, taken, ← List.sum_append, ← List.map_append, List.take_append_drop]
  omega

/-! ## Rounds that are paid from a potential -/

section Potential

variable {σ α ε : Type} {step : σ → α → σ} {costs : σ × α → List ε} {cost : ε → Nat}
  {potential : σ → Nat}

theorem sum_visits_le : ∀ (l : List α) (s : σ),
    (∀ v ∈ visits step s l,
      ((costs v).map cost).sum + potential (step v.1 v.2) ≤ potential v.1) →
    (((visits step s l).flatMap costs).map cost).sum + potential (l.foldl step s) ≤ potential s
  | [], _, _ => Nat.le_of_eq (Nat.zero_add _)
  | a :: l, s, h => by
      rw [visits_cons, List.forall_mem_cons] at h
      have hrest := sum_visits_le l (step s a) h.2
      have hfirst := h.1
      dsimp only at hfirst
      rw [visits_cons, List.flatMap_cons, List.map_append, List.sum_append, List.foldl_cons]
      omega

end Potential

end CounterLib
