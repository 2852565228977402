import Mathlib.Data.Finset.Lattice.Fold
import Mathlib.Order.Lattice.Nat
import ShieldReduce.Lib.RollingHash
import ShieldReduce.Lib.Loop
import ShieldReduce.Enclave.Env

/-!
# Super-features

`getSF2` divides a chunk into twelve sub-chunks, takes the largest hash of a
window of 48 bytes in each, sorts the twelve features in groups of three and
hashes the smallest of all groups, the middle ones, and the largest. The
window hash is polynomial and rolls over the sub-chunk in machine words of
three types; what it reads behind a sub-chunk, or behind the chunk, is
never used.
-/

namespace ShieldReduce

open ByteLib LoopLib RollingLib

namespace EcallFreqIndex

def windowSize : Nat := 48

def sfNum : Nat := 3

def featureNum : Nat := 12

/-- `MOD`; the base `A` is 37. -/
def featureMod : Nat := 1000000007

def subchunkIndex (chunkSize i : Nat) : Nat := chunkSize * i / featureNum

/-- `A` to the power of `WINDOW_SIZE - 1`. -/
def apower : UInt64 :=
  (List.range (windowSize - 1)).foldl (fun apower _ => apower * 37 % 1000000007) 1

/-! ## The window hash in machine words -/

/-- `fp *= A; fp += b; fp %= MOD`. -/
def absorb (fp : Int64) (b : UInt8) : Int64 := (fp * 37 + Int64.ofNat b.toNat) % 1000000007

/-- `fp -= (b * Apower) % MOD`: the difference of two `uint64_t` goes back
into an `int64_t`. -/
def dropFirst (fp : Int64) (b : UInt8) : Int64 :=
  (fp.toUInt64 - b.toUInt64 * apower % 1000000007).toInt64

/-- `while (fp < 0) fp += MOD`. -/
def liftFp (fp : Int64) : Int64 :=
  whileLoop (fun fp => decide (fp < 0)) (· + 1000000007) 2 fp

structure Rolling where
  fp : Int64
  feature : UInt32

/-- The loop over the windows of a sub-chunk that ends at `last`, at window `j`. -/
def rollWindow (ptr : Mem) (last : Nat) (s : Rolling) (j : Nat) : Rolling :=
  let feature := if s.fp > s.feature.toUInt64.toInt64 then s.fp.toUInt64.toUInt32 else s.feature
  let fp := liftFp (dropFirst s.fp (ptr j))
  if j ≠ last - windowSize then ⟨absorb fp (ptr (j + windowSize)), feature⟩ else ⟨fp, feature⟩

/-- A feature, of the sub-chunk from `first` to `last`. -/
def subchunkFeature (ptr : Mem) (first last : Nat) : UInt32 :=
  let fp := (List.range' first windowSize).foldl (fun fp j => absorb fp (ptr j)) 0
  ((List.range' first (last + 1 - windowSize - first)).foldl (rollWindow ptr last) ⟨fp, 0⟩).feature

def getSF2 (generateHash : Bytes → Fp) (ptr : Mem) (chunkSize : Nat) : Sf :=
  let feature := (List.range featureNum).map fun i =>
    subchunkFeature ptr (subchunkIndex chunkSize i) (subchunkIndex chunkSize (i + 1))
  let feature := (List.range (featureNum / sfNum)).flatMap fun i =>
    ((feature.drop (i * sfNum)).take sfNum).mergeSort
  BytesN.ofBytes 96 ((List.range sfNum).flatMap fun i =>
    (generateHash ((List.range (featureNum / sfNum)).flatMap fun j =>
      le64 (feature.getD (j * sfNum + i) 0).toNat)).1)

/-! ## What the words hold -/

theorem apower_toNat : apower.toNat = 37 ^ 47 % featureMod := by decide +kernel

theorem toInt_small {x : Int} (h1 : -2 ^ 63 ≤ x) (h2 : x < 2 ^ 63) : x.bmod (2 ^ 64) = x := by
  apply Int.bmod_eq_of_le <;> omega

theorem absorb_toInt {fp : Int64} {h : Nat} (hfp : fp.toInt = h) (hlt : h < featureMod)
    (b : UInt8) : (absorb fp b).toInt = ((h * 37 + b.toNat) % featureMod : Nat) := by
  have hb := b.toNat_lt
  rw [featureMod] at hlt ⊢
  have hmul : (fp * 37).toInt = h * 37 := by
    rw [Int64.toInt_mul, hfp]
    exact toInt_small (by change _ ≤ (h : Int) * 37; omega) (by change (h : Int) * 37 < _; omega)
  have hadd : (fp * 37 + Int64.ofNat b.toNat).toInt = h * 37 + b.toNat := by
    rw [Int64.toInt_add, hmul, Int64.toInt_ofNat_of_lt (by omega)]
    exact toInt_small (by omega) (by omega)
  rw [absorb, Int64.toInt_mod, hadd]
  change ((h : Int) * 37 + b.toNat).tmod 1000000007 = _
  rw [Int.tmod_eq_emod_of_nonneg (by omega)]
  push_cast
  rfl

theorem toInt_toInt64 {x : UInt64} (h : x.toNat < 2 ^ 63) : x.toInt64.toInt = x.toNat := by
  have hx := Int64.toInt_ofNat_of_lt h
  rwa [← UInt64.toInt64_ofNat', UInt64.ofNat_toNat] at hx

/-- What is taken out of the fingerprint for a byte. -/
def highest (b : UInt8) : Nat := b.toNat * (37 ^ 47 % featureMod) % featureMod

theorem highest_lt (b : UInt8) : highest b < featureMod := Nat.mod_lt _ (by decide)

theorem toNat_highest (b : UInt8) : (b.toUInt64 * apower % 1000000007).toNat = highest b := by
  have hb := b.toNat_lt
  have hpower : 37 ^ 47 % featureMod < featureMod := Nat.mod_lt _ (by decide)
  have hprod : b.toNat * (37 ^ 47 % featureMod) < 2 ^ 64 :=
    (Nat.mul_lt_mul'' hb hpower).trans_le (by decide)
  rw [UInt64.toNat_mod, UInt64.toNat_mul, apower_toNat, UInt8.toNat_toUInt64,
    Nat.mod_eq_of_lt hprod]
  rfl

theorem dropFirst_toInt {fp : Int64} {h : Nat} (hfp : fp.toInt = h) (hlt : h < featureMod)
    (b : UInt8) : (dropFirst fp b).toInt = h - highest b := by
  have hdrop := highest_lt b
  rw [← toNat_highest] at hdrop ⊢
  rw [featureMod] at hlt hdrop
  rw [dropFirst, UInt64.toInt64_sub, Int64.toInt64_toUInt64, Int64.toInt_sub, hfp,
    toInt_toInt64 (by omega)]
  exact toInt_small (by omega) (by omega)

theorem liftFp_toInt {fp : Int64} (hlow : -(featureMod : Int) < fp.toInt)
    (hhigh : fp.toInt < featureMod) :
    0 ≤ (liftFp fp).toInt ∧ (liftFp fp).toInt < featureMod ∧
      (liftFp fp).toInt ≡ fp.toInt [ZMOD featureMod] := by
  rw [featureMod] at *
  by_cases hneg : fp < 0
  · have hneg' : fp.toInt < 0 := Int64.lt_iff_toInt_lt.mp hneg
    have hadd : (fp + 1000000007).toInt = fp.toInt + 1000000007 := by
      rw [Int64.toInt_add]
      exact toInt_small (by change _ ≤ fp.toInt + 1000000007; omega)
        (by change fp.toInt + 1000000007 < _; omega)
    have hstop : ¬ fp + 1000000007 < 0 := by
      rw [Int64.lt_iff_toInt_lt, hadd]
      exact not_lt.mpr (show 0 ≤ fp.toInt + 1000000007 by omega)
    have hlift : liftFp fp = fp + 1000000007 := by
      simp [liftFp, whileLoop, hneg, hstop]
    rw [hlift, hadd]
    exact ⟨by omega, by omega, Int.add_modEq_right⟩
  · have hpos : ¬ fp.toInt < 0 := fun h => hneg (Int64.lt_iff_toInt_lt.mpr h)
    have hlift : liftFp fp = fp := by
      simp [liftFp, whileLoop, hneg]
    rw [hlift]
    exact ⟨by omega, by omega, .rfl⟩

/-! ## Windows -/

/-- The `n` bytes at `j`, as numbers. -/
def window (ptr : Mem) (j n : Nat) : List Nat := (slice ptr j n).map UInt8.toNat

def windowHash (ptr : Mem) (j : Nat) : Nat := polyHash 37 featureMod (window ptr j windowSize)

theorem window_succ (ptr : Mem) (j n : Nat) :
    window ptr j (n + 1) = window ptr j n ++ [(ptr (j + n)).toNat] := by
  rw [window, slice_succ, List.map_append, List.map_singleton, window]

theorem window_cons (ptr : Mem) (j n : Nat) :
    window ptr j (n + 1) = (ptr j).toNat :: window ptr (j + 1) n := by
  rw [window, Nat.add_comm n 1, slice_add, slice_succ, slice_zero, List.nil_append,
    List.singleton_append, List.map_cons, Nat.add_zero, window]

theorem windowHash_lt (ptr : Mem) (j : Nat) : windowHash ptr j < featureMod :=
  polyHash_lt (by decide) _

/-- The first loop of a sub-chunk. -/
theorem firstWindow_toInt (ptr : Mem) (first : Nat) : ∀ n : Nat,
    ((List.range' first n).foldl (fun fp j => absorb fp (ptr j)) 0).toInt =
      polyHash 37 featureMod (window ptr first n)
  | 0 => rfl
  | n + 1 => by
      rw [List.range'_1_concat, List.foldl_append, List.foldl_cons, List.foldl_nil,
        absorb_toInt (firstWindow_toInt ptr first n) (polyHash_lt (by decide) _), polyHash_snoc,
        window_succ]

/-- From one window to the next one. -/
theorem roll_toInt {ptr : Mem} {j : Nat} {fp : Int64} (hfp : fp.toInt = windowHash ptr j) :
    (absorb (liftFp (dropFirst fp (ptr j))) (ptr (j + windowSize))).toInt =
      windowHash ptr (j + 1) := by
  have hlt := windowHash_lt ptr j
  have hdrop := dropFirst_toInt hfp hlt (ptr j)
  have hhighest := highest_lt (ptr j)
  obtain ⟨hlow, hhigh, hmod⟩ := liftFp_toInt
    (show -(featureMod : Int) < (dropFirst fp (ptr j)).toInt by omega) (by omega)
  have hlen : (window ptr (j + 1) 47).length = 47 := by simp [window]
  have htail : (liftFp (dropFirst fp (ptr j))).toInt =
      polyHash 37 featureMod (window ptr (j + 1) 47) := by
    have heq : (liftFp (dropFirst fp (ptr j))).toInt ≡
        polyHash 37 featureMod (window ptr (j + 1) 47) [ZMOD featureMod] := by
      refine polyHash_tail (b := (ptr j).toNat) ?_
      rw [hlen, ← window_cons]
      rwa [hdrop] at hmod
    have hsmall : polyHash 37 featureMod (window ptr (j + 1) 47) < featureMod :=
      polyHash_lt (by decide) _
    rw [Int.ModEq, Int.emod_eq_of_lt hlow hhigh, Int.emod_eq_of_lt (by omega) (by omega)] at heq
    exact heq
  rw [absorb_toInt htail (polyHash_lt (by decide) _), polyHash_snoc]
  rw [windowHash, show windowSize = 47 + 1 from rfl, window_succ, Nat.add_right_comm j 1 47]
  rfl

/-- The largest hash of a window inside a sub-chunk; 0 if there is none. -/
def windowMax (ptr : Mem) (first last : Nat) : Nat :=
  (Finset.range (last + 1 - windowSize - first)).sup fun k => windowHash ptr (first + k)

/-- Keeping the larger one, across the types. -/
theorem larger_toNat {fp : Int64} {h : Nat} (hfp : fp.toInt = h) (hlt : h < featureMod)
    (feature : UInt32) :
    (if fp > feature.toUInt64.toInt64 then fp.toUInt64.toUInt32 else feature).toNat =
      max feature.toNat h := by
  have hf := feature.toNat_lt
  rw [featureMod] at hlt
  have hfeature : feature.toUInt64.toInt64.toInt = feature.toNat := by
    rw [toInt_toInt64 (by rw [UInt32.toNat_toUInt64]; omega), UInt32.toNat_toUInt64]
  have hword : fp = Int64.ofNat h := Int64.toInt_inj.mp (by
    rw [hfp, Int64.toInt_ofNat_of_lt (by omega)])
  have hback : fp.toUInt64.toUInt32.toNat = h := by
    rw [hword, Int64.toUInt64_ofNat', UInt64.toNat_toUInt32, UInt64.toNat_ofNat']
    omega
  have hcmp : fp > feature.toUInt64.toInt64 ↔ feature.toNat < h := by
    rw [gt_iff_lt, Int64.lt_iff_toInt_lt, hfeature, hfp]
    omega
  split
  · rename_i hgt
    have hgt' := hcmp.mp hgt
    omega
  · rename_i hngt
    have hngt' := mt hcmp.mpr hngt
    omega

/-- After `k` windows the feature is the largest hash of them, and the
fingerprint is the hash of the next window, if there is one. -/
theorem rollWindow_run {ptr : Mem} {first : Nat} (last : Nat) {fp : Int64}
    (hfp : fp.toInt = windowHash ptr first) : ∀ k ≤ last + 1 - windowSize - first,
      let s := (List.range' first k).foldl (rollWindow ptr last) ⟨fp, 0⟩
      s.feature.toNat = (Finset.range k).sup (fun i => windowHash ptr (first + i)) ∧
        (k < last + 1 - windowSize - first → s.fp.toInt = windowHash ptr (first + k))
  | 0, _ => ⟨rfl, fun _ => hfp⟩
  | k + 1, hk => by
      obtain ⟨hfeature, hnext⟩ := rollWindow_run last hfp k (by omega)
      have hhash := hnext (by omega)
      have hlarger := larger_toNat hhash (windowHash_lt ptr _)
        ((List.range' first k).foldl (rollWindow ptr last) ⟨fp, 0⟩).feature
      rw [List.range'_1_concat, List.foldl_append, List.foldl_cons, List.foldl_nil]
      generalize (List.range' first k).foldl (rollWindow ptr last) ⟨fp, 0⟩ = s at *
      rw [Finset.range_add_one, Finset.sup_insert, ← hfeature, sup_comm]
      dsimp only [rollWindow]
      by_cases hlast : first + k ≠ last - windowSize
      · rw [if_pos hlast]
        exact ⟨hlarger, fun _ => roll_toInt hhash⟩
      · rw [if_neg hlast]
        exact ⟨hlarger, fun hcontra => absurd hcontra (by omega)⟩

theorem subchunkFeature_toNat (ptr : Mem) (first last : Nat) :
    (subchunkFeature ptr first last).toNat = windowMax ptr first last :=
  (rollWindow_run last (firstWindow_toInt ptr first windowSize) _ (Nat.le_refl _)).1

end EcallFreqIndex

end ShieldReduce
