import Mathlib.Data.Nat.Digits.Defs
import Mathlib.Data.Int.ModEq
import Mathlib.Tactic.Ring

/-!
# Polynomial hashes of windows

`polyHash base M w` reads the items of `w` as the digits of a number in
some base, the first one highest, and takes it modulo `M`. Appending an
item multiplies by the base (`polyHash_snoc`); before a window moves on,
its highest digit is taken out (`polyHash_tail`, for a value that is only
known modulo `M`).
-/

namespace RollingLib

/-- The number whose digits are the items of `w`. -/
def poly (base : Nat) (w : List Nat) : Nat := Nat.ofDigits base w.reverse

def polyHash (base M : Nat) (w : List Nat) : Nat := poly base w % M

variable {base M : Nat}

theorem poly_snoc (w : List Nat) (c : Nat) : poly base (w ++ [c]) = poly base w * base + c := by
  rw [poly, List.reverse_append, List.reverse_singleton, List.singleton_append, Nat.ofDigits_cons,
    poly, Nat.mul_comm, Nat.add_comm]

theorem poly_cons (b : Nat) (w : List Nat) :
    poly base (b :: w) = b * base ^ w.length + poly base w := by
  rw [poly, List.reverse_cons, Nat.ofDigits_append, Nat.ofDigits_singleton, List.length_reverse,
    poly, Nat.mul_comm, Nat.add_comm]

theorem polyHash_lt (hM : 0 < M) (w : List Nat) : polyHash base M w < M := Nat.mod_lt _ hM

theorem polyHash_snoc (w : List Nat) (c : Nat) :
    (polyHash base M w * base + c) % M = polyHash base M (w ++ [c]) := by
  rw [polyHash, polyHash, poly_snoc, Nat.add_mod, Nat.mul_mod, Nat.mod_mod, ← Nat.mul_mod,
    ← Nat.add_mod]

/-- Taking the highest digit out of a window. -/
theorem polyHash_tail {b : Nat} {w : List Nat} {fp : Int}
    (hfp : fp ≡ polyHash base M (b :: w) - (b * (base ^ w.length % M) % M : Nat) [ZMOD M]) :
    fp ≡ polyHash base M w [ZMOD M] := by
  have hmod : ∀ n : Nat, ((n % M : Nat) : Int) ≡ n [ZMOD M] := fun n => by
    rw [Int.natCast_mod]
    exact Int.mod_modEq _ _
  have hpower : ((b * (base ^ w.length % M) % M : Nat) : Int) ≡
      ((b * base ^ w.length : Nat) : Int) [ZMOD M] := by
    rw [Nat.mul_mod, Nat.mod_mod, ← Nat.mul_mod]
    exact hmod _
  calc fp ≡ polyHash base M (b :: w) - (b * (base ^ w.length % M) % M : Nat) [ZMOD M] := hfp
    _ ≡ (poly base (b :: w) : Int) - (b * base ^ w.length : Nat) [ZMOD M] :=
        (hmod _).sub hpower
    _ ≡ (poly base w : Int) [ZMOD M] := by
        rw [poly_cons]
        push_cast
        rw [add_sub_cancel_left]
    _ ≡ polyHash base M w [ZMOD M] := (hmod _).symm

end RollingLib
