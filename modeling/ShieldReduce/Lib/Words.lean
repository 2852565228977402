import ShieldReduce.Lib.Bytes
import Mathlib.Data.Nat.Bitwise
import Mathlib.Tactic.Ring

/-!
# Words of a memory

A program that compares two ranges of bytes does it a word at a time: two
words are equal as numbers if their bytes are, and where they are not, the
lowest bit in which they differ is in the first byte that does
(`common_bytes`).
-/

namespace ByteLib

/-- `n` bytes as a little-endian number. -/
def readLE (m : Mem) (pos : Nat) : (n : Nat) → Nat
  | 0 => 0
  | n + 1 => (m pos).toNat + 256 * readLE m (pos + 1) n

variable {m m' : Mem} {p p' : Nat}

theorem readLE_lt (m : Mem) : ∀ (p n : Nat), readLE m p n < 256 ^ n
  | _, 0 => Nat.one_pos
  | p, n + 1 => by
      have hb := (m p).toNat_lt
      have ih := readLE_lt m (p + 1) n
      rw [readLE, pow_succ]
      omega

/-- The low bytes of a word. -/
theorem readLE_mod (m : Mem) : ∀ {k n : Nat} (p : Nat), k ≤ n →
    readLE m p n % 256 ^ k = readLE m p k
  | 0, _, _, _ => by rw [pow_zero, Nat.mod_one, readLE]
  | k + 1, 0, _, h => absurd h (by omega)
  | k + 1, n + 1, p, h => by
      have hb : (m p).toNat < 256 := (m p).toNat_lt
      have ih := readLE_mod m (p + 1) (Nat.le_of_succ_le_succ h)
      rw [readLE, readLE, ← ih, pow_succ', Nat.add_comm, Nat.add_comm (m p).toNat,
        ← Nat.mod_add_mod (256 * readLE m (p + 1) n), Nat.mul_mod_mul_left, Nat.mod_eq_of_lt]
      have hlt := Nat.mod_lt (readLE m (p + 1) n) (show 0 < 256 ^ k from Nat.pow_pos (by decide))
      omega

theorem slice_succ' (m : Mem) (p n : Nat) : slice m p (n + 1) = m p :: slice m (p + 1) n := by
  rw [Nat.add_comm, slice_add]
  rfl

theorem readLE_eq_iff : ∀ {n p p' : Nat},
    readLE m p n = readLE m' p' n ↔ slice m p n = slice m' p' n
  | 0, _, _ => by simp [readLE]
  | n + 1, p, p' => by
      have hb : (m p).toNat < 256 := (m p).toNat_lt
      have hb' : (m' p').toNat < 256 := (m' p').toNat_lt
      rw [slice_succ', slice_succ', List.cons.injEq, ← readLE_eq_iff, ← UInt8.toNat_inj, readLE,
        readLE]
      omega

/-! ## The first difference -/

/-- The number of zeros below the lowest bit that is set, for a word of `n` bits. -/
def ctz : (n : Nat) → (val : Nat) → Nat
  | 0, _ => 0
  | n + 1, val => if val % 2 = 1 then 0 else ctz n (val / 2) + 1

theorem pow_dvd_iff_le_ctz : ∀ {n val k : Nat}, val ≠ 0 → val < 2 ^ n →
    (2 ^ k ∣ val ↔ k ≤ ctz n val)
  | 0, val, _, hne, hlt => absurd hlt (by rw [pow_zero]; omega)
  | n + 1, val, 0, _, _ => by simp
  | n + 1, val, k + 1, hne, hlt => by
      rw [ctz]
      by_cases hodd : val % 2 = 1
      · rw [if_pos hodd]
        constructor
        · intro hdvd
          have htwo := dvd_trans (Dvd.intro_left (2 ^ k) rfl) hdvd
          omega
        · omega
      · obtain ⟨w, rfl⟩ : ∃ w, val = 2 * w := ⟨val / 2, by omega⟩
        rw [pow_succ] at hlt
        have ih : 2 ^ k ∣ w ↔ k ≤ ctz n w := pow_dvd_iff_le_ctz (by omega) (by omega)
        rw [if_neg hodd, Nat.mul_div_cancel_left w Nat.two_pos, pow_succ',
          Nat.mul_dvd_mul_iff_left Nat.two_pos, ih, Nat.succ_le_succ_iff]

theorem pow_dvd_xor_iff {a b k : Nat} : 2 ^ k ∣ a ^^^ b ↔ a % 2 ^ k = b % 2 ^ k := by
  rw [Nat.dvd_iff_mod_eq_zero, Nat.xor_mod_two_pow, Nat.xor_eq_zero_iff]

/-- Two words of `n` bytes that are not the same agree up to the byte with their
lowest different bit, and differ there. -/
theorem common_bytes {n : Nat} (hne : readLE m p n ^^^ readLE m' p' n ≠ 0) :
    let c := ctz (8 * n) (readLE m p n ^^^ readLE m' p' n) / 8
    c < n ∧ slice m p c = slice m' p' c ∧ m (p + c) ≠ m' (p' + c) := by
  intro c
  have hpow : ∀ k : Nat, 256 ^ k = 2 ^ (8 * k) := fun k => by rw [pow_mul]; rfl
  have hlt : readLE m p n ^^^ readLE m' p' n < 2 ^ (8 * n) := by
    exact Nat.xor_lt_two_pow (hpow n ▸ readLE_lt m p n) (hpow n ▸ readLE_lt m' p' n)
  -- as many bytes agree as the zeros below the difference cover
  have hagree : ∀ k, k ≤ n → (slice m p k = slice m' p' k ↔ k ≤ c) := by
    intro k hk
    rw [← readLE_eq_iff, ← readLE_mod m p hk, ← readLE_mod m' p' hk, hpow, ← pow_dvd_xor_iff,
      pow_dvd_iff_le_ctz hne hlt]
    omega
  have hcn : c < n := by
    by_contra hge
    have hall := (hagree n (le_refl n)).mpr (by omega)
    exact hne (Nat.xor_eq_zero_iff.mpr (readLE_eq_iff.mpr hall))
  have hc := (hagree c hcn.le).mpr (le_refl c)
  refine ⟨hcn, hc, fun hsame => ?_⟩
  have hmore := (hagree (c + 1) hcn).mp (slice_eq_succ hc hsame)
  omega

end ByteLib
