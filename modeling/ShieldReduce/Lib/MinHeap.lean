import Mathlib.Data.Nat.Basic
import Mathlib.Order.Lattice
import Mathlib.Logic.Equiv.Basic
import Mathlib.Tactic.Common

/-!
# The order of a binary min-heap

A binary heap of `n` entries as the function `f` from positions to
priorities: an entry is not below its parent (`Ordered`). A sift moves one
entry along a path by exchanging it with its parent or with its smaller
child. What holds in between is `Loose`: the order holds away from that
entry, and across it. `UpTo` and `DownFrom` add which side of it is still
in order, and each sift is a step lemma and a stop lemma for its own side.
-/

namespace MinHeapLib

def parent (i : Nat) : Nat := (i - 1) / 2

theorem parent_lt {i : Nat} (h : 0 < i) : parent i < i := by
  rw [parent]
  omega

/-! ## Exchanging entries -/

section Exchange

variable {ω : Type}

/-- The priorities after the entries at `i` and `j` were exchanged. -/
def exchange (f : Nat → ω) (i j : Nat) : Nat → ω := fun k => f (Equiv.swap i j k)

theorem exchange_left (f : Nat → ω) (i j : Nat) : exchange f i j i = f j :=
  congrArg f (Equiv.swap_apply_left i j)

theorem exchange_right (f : Nat → ω) (i j : Nat) : exchange f i j j = f i :=
  congrArg f (Equiv.swap_apply_right i j)

theorem exchange_of_ne (f : Nat → ω) {i j k : Nat} (hi : k ≠ i) (hj : k ≠ j) :
    exchange f i j k = f k :=
  congrArg f (Equiv.swap_apply_of_ne_of_ne hi hj)

end Exchange

/-! ## The order -/

variable {ω : Type} [LinearOrder ω] {n : Nat} {f : Nat → ω} {hole : Nat}

def Ordered (n : Nat) (f : Nat → ω) : Prop := ∀ i, 0 < i → i < n → f (parent i) ≤ f i

/-- The root is the least entry. -/
theorem Ordered.root_le (h : Ordered n f) {i : Nat} (hi : i < n) : f 0 ≤ f i := by
  induction i using Nat.strong_induction_on with
  | _ i ih =>
      rcases Nat.eq_zero_or_pos i with rfl | hpos
      · exact le_refl _
      · exact (ih (parent i) (parent_lt hpos) ((parent_lt hpos).trans hi)).trans (h i hpos hi)

/-- In order but for the entry at `hole`. -/
structure Loose (n : Nat) (f : Nat → ω) (hole : Nat) : Prop where
  others : ∀ i, 0 < i → i < n → i ≠ hole → parent i ≠ hole → f (parent i) ≤ f i
  across : ∀ i, 0 < i → i < n → parent i = hole → 0 < hole → f (parent hole) ≤ f i

/-- The entry at `hole` may be below its parent. -/
structure UpTo (n : Nat) (f : Nat → ω) (hole : Nat) : Prop where
  loose : Loose n f hole
  below : ∀ i, 0 < i → i < n → parent i = hole → f hole ≤ f i

/-- The entry at `hole` may be above its children. -/
structure DownFrom (n : Nat) (f : Nat → ω) (hole : Nat) : Prop where
  loose : Loose n f hole
  above : 0 < hole → f (parent hole) ≤ f hole

/-! ## Raising an entry -/

theorem Loose.upTo (h : Loose n f hole) (hpos : 0 < hole) (hlt : f hole < f (parent hole)) :
    UpTo n f hole :=
  ⟨h, fun i hi hin hp => (hlt.trans_le (h.across i hi hin hp hpos)).le⟩

theorem UpTo.step (h : UpTo n f hole) (hpos : 0 < hole) (hlt : f hole < f (parent hole)) :
    UpTo n (exchange f hole (parent hole)) (parent hole) := by
  have hup := parent_lt hpos
  -- the siblings of the raised entry were above its parent already
  have hsibling : ∀ i, 0 < i → i < n → parent i = parent hole → i ≠ hole → f (parent hole) ≤ f i := by
    intro i hi hin hp hne
    exact hp ▸ h.loose.others i hi hin hne (by omega)
  refine ⟨⟨fun i hi hin hne hpne => ?_, fun i hi hin hp hpos' => ?_⟩, fun i hi hin hp => ?_⟩
  · have hih : i ≠ hole := fun heq => hpne (heq ▸ rfl)
    rw [exchange_of_ne f hih hne]
    by_cases hp : parent i = hole
    · rw [hp, exchange_left]
      exact h.loose.across i hi hin hp hpos
    · rw [exchange_of_ne f hp hpne]
      exact h.loose.others i hi hin hih hp
  · have hup' := parent_lt hpos'
    have hi' := parent_lt hi
    rw [exchange_of_ne f (by omega) (by omega)]
    have hgrand : f (parent (parent hole)) ≤ f (parent hole) :=
      h.loose.others (parent hole) hpos' (by omega) (by omega) (by omega)
    by_cases heq : i = hole
    · rw [heq, exchange_left]
      exact hgrand
    · rw [exchange_of_ne f heq (by omega)]
      exact hgrand.trans (hsibling i hi hin hp heq)
  · have hi' := parent_lt hi
    rw [exchange_right]
    by_cases heq : i = hole
    · rw [heq, exchange_left]
      exact hlt.le
    · rw [exchange_of_ne f heq (by omega)]
      exact hlt.le.trans (hsibling i hi hin hp heq)

theorem UpTo.stop (h : UpTo n f hole) (hstop : 0 < hole → f (parent hole) ≤ f hole) :
    Ordered n f := by
  intro i hi hin
  by_cases heq : i = hole
  · exact heq ▸ hstop (heq ▸ hi)
  · by_cases hp : parent i = hole
    · exact hp ▸ h.below i hi hin hp
    · exact h.loose.others i hi hin heq hp

/-! ## Lowering an entry -/

theorem Loose.downFrom (h : Loose n f hole) (hle : 0 < hole → f (parent hole) ≤ f hole) :
    DownFrom n f hole := ⟨h, hle⟩

theorem Ordered.downFrom (h : Ordered n f) (hole : Nat) (hn : hole < n) : DownFrom n f hole :=
  ⟨⟨fun i hi hin _ _ => h i hi hin, fun i hi hin hp hpos =>
    (h hole hpos hn).trans (hp ▸ h i hi hin)⟩, fun hpos => h hole hpos hn⟩

/-- The entry changes places with `child`, the least of its children. -/
theorem DownFrom.step (h : DownFrom n f hole) {child : Nat} (hpos : 0 < child) (hn : child < n)
    (hchild : parent child = hole)
    (hleast : ∀ i, 0 < i → i < n → parent i = hole → f child ≤ f i) (hlt : f child < f hole) :
    DownFrom n (exchange f hole child) child := by
  have hdown := parent_lt hpos
  refine ⟨⟨fun i hi hin hne hpne => ?_, fun i hi hin hp _ => ?_⟩, fun _ => ?_⟩
  · have hi' := parent_lt hi
    by_cases heq : i = hole
    · subst heq
      rw [exchange_left, exchange_of_ne f (by omega) hpne]
      exact h.loose.across child hpos hn hchild hi
    · rw [exchange_of_ne f heq hne]
      by_cases hp : parent i = hole
      · rw [hp, exchange_left]
        exact hleast i hi hin hp
      · rw [exchange_of_ne f hp hpne]
        exact h.loose.others i hi hin heq hp
  · have hi' := parent_lt hi
    rw [hchild, exchange_left, exchange_of_ne f (by omega) (by omega)]
    exact hp ▸ h.loose.others i hi hin (by omega) (by omega)
  · rw [hchild, exchange_left, exchange_right]
    exact hlt.le

theorem DownFrom.stop (h : DownFrom n f hole)
    (hstop : ∀ i, 0 < i → i < n → parent i = hole → f hole ≤ f i) : Ordered n f := by
  intro i hi hin
  by_cases heq : i = hole
  · exact heq ▸ h.above (heq ▸ hi)
  · by_cases hp : parent i = hole
    · exact hp ▸ hstop i hi hin hp
    · exact h.loose.others i hi hin heq hp

end MinHeapLib
