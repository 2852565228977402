import ShieldReduce.Lib.Bytes
import Mathlib.Tactic.Ring

/-!
# Copies from the text written so far

A back reference repeats what stands `offset` bytes before the end of a
text, byte after byte, so that it may read what it has just written
(`backCopy`). In a memory that is being filled the same is a range that
`Repeats` what is `offset` bytes below it.

A program copies such a range by several bytes at a time. That is right
from any distance that is a multiple of the offset and not shorter than
the piece (`Repeats.copy`), and copying further than asked spoils only
what is written next (`wildCopy`).
-/

namespace ByteLib

/-! ## Writing to a memory -/

/-- `memcpy` of `xs` to offset `pos`. -/
def Mem.write (m : Mem) (pos : Nat) (xs : Bytes) : Mem := fun i =>
  if pos ≤ i ∧ i < pos + xs.length then xs.getD (i - pos) 0 else m i

/-- `memcpy` of `n` bytes inside a memory. -/
def Mem.copy (m : Mem) (dst src n : Nat) : Mem := m.write dst (slice m src n)

theorem Mem.write_of_lt {m : Mem} {pos i : Nat} (xs : Bytes) (h : i < pos) :
    m.write pos xs i = m i := if_neg (by omega)

theorem Mem.write_add {m : Mem} {pos j : Nat} {xs : Bytes} (h : j < xs.length) :
    m.write pos xs (pos + j) = xs.getD j 0 := by
  rw [Mem.write, if_pos (by omega), Nat.add_sub_cancel_left]

theorem Mem.copy_of_lt {m : Mem} {dst i : Nat} (src n : Nat) (h : i < dst) :
    m.copy dst src n i = m i := Mem.write_of_lt _ h

theorem Mem.copy_add {m : Mem} {dst src n j : Nat} (h : j < n) :
    m.copy dst src n (dst + j) = m (src + j) := by
  rw [Mem.copy, Mem.write_add (by rwa [length_slice])]
  simp [slice, List.getD_eq_getElem?_getD, h]

theorem slice_congr {m m' : Mem} {pos len : Nat} (h : ∀ i, pos ≤ i → i < pos + len → m i = m' i) :
    slice m pos len = slice m' pos len :=
  slice_eq_iff.mpr fun i hi => h (pos + i) (by omega) (by omega)

theorem take_slice {m : Mem} {pos k n : Nat} (h : k ≤ n) :
    (slice m pos n).take k = slice m pos k := by
  obtain ⟨j, rfl⟩ := Nat.exists_eq_add_of_le h
  have hlen : (slice m pos k).length = k := length_slice ..
  rw [slice_add, List.take_append_of_le_length hlen.ge, List.take_of_length_le hlen.le]

/-- A write leaves alone what is below it. -/
theorem slice_write_of_le {m : Mem} {pos p len : Nat} (xs : Bytes) (h : p + len ≤ pos) :
    slice (m.write pos xs) p len = slice m p len :=
  slice_congr fun _ _ hi => Mem.write_of_lt xs (by omega)

theorem slice_write_take {m : Mem} {pos n : Nat} {xs : Bytes} (h : n ≤ xs.length) :
    slice (m.write pos xs) pos n = xs.take n := by
  apply List.ext_getElem
  · simp [h]
  · intro i h₁ h₂
    have hi : i < n := by simpa using h₁
    simp only [slice, List.getElem_map, List.getElem_range, List.getElem_take]
    rw [Mem.write_add (by omega), List.getD_eq_getElem?_getD, List.getElem?_eq_getElem (by omega)]
    rfl

/-- Only what is written last of a range that is written again and again counts. -/
theorem slice_zero_write {m : Mem} {pos n : Nat} {xs : Bytes} (h : n ≤ xs.length) :
    slice (m.write pos xs) 0 (pos + n) = slice m 0 pos ++ xs.take n := by
  rw [slice_add, slice_write_of_le xs (by omega), Nat.zero_add, slice_write_take h]

/-! ## Back references -/

/-- `n` more bytes, each the one `offset` bytes before it. -/
def backCopy (offset : Nat) : Nat → Bytes → Bytes
  | 0, out => out
  | n + 1, out => backCopy offset n (out ++ [out.getD (out.length - offset) 0])

theorem backCopy_succ (offset : Nat) : ∀ (n : Nat) (out : Bytes),
    backCopy offset (n + 1) out =
      backCopy offset n out ++
        [(backCopy offset n out).getD ((backCopy offset n out).length - offset) 0]
  | 0, _ => rfl
  | n + 1, out => by
      rw [backCopy, backCopy_succ offset n, ← backCopy]

@[simp] theorem length_backCopy (offset : Nat) : ∀ (n : Nat) (out : Bytes),
    (backCopy offset n out).length = out.length + n
  | 0, _ => rfl
  | n + 1, out => by
      rw [backCopy, length_backCopy offset n, List.length_append, List.length_singleton]
      omega

/-- The range `[lo, hi)` holds what is `offset` bytes below it. -/
def Repeats (m : Mem) (offset lo hi : Nat) : Prop := ∀ i, lo ≤ i → i < hi → m i = m (i - offset)

section Repeats

variable {m m' : Mem} {offset lo hi : Nat}

theorem Repeats.refl (m : Mem) (offset lo : Nat) : Repeats m offset lo lo :=
  fun _ hlo hhi => absurd hhi (by omega)

theorem Repeats.mono (h : Repeats m offset lo hi) {hi' : Nat} (hle : hi' ≤ hi) :
    Repeats m offset lo hi' := fun i hlo hhi => h i hlo (by omega)

/-- It holds what is any multiple of the offset below it. -/
theorem Repeats.mul (h : Repeats m offset lo hi) (hlo : offset ≤ lo) :
    ∀ (k : Nat) {i : Nat}, i < hi → lo + k * offset ≤ i + offset → m i = m (i - k * offset)
  | 0, i, _, _ => by rw [Nat.zero_mul, Nat.sub_zero]
  | k + 1, i, hi', hk => by
      rw [Nat.succ_mul] at hk ⊢
      have hle : lo ≤ i - k * offset := by omega
      rw [h.mul hlo k hi' (by omega), h _ hle (by omega), Nat.sub_sub]

/-- A piece copied behind it, from a multiple of the offset that is not
shorter than the piece. -/
theorem Repeats.copy (h : Repeats m offset lo hi) (hlo : offset ≤ lo) {k n : Nat}
    (hn : n ≤ k * offset) (hk : lo + k * offset ≤ hi + offset) :
    Repeats (m.copy hi (hi - k * offset) n) offset lo (hi + n) := by
  intro i hi₁ hi₂
  by_cases hbelow : i < hi
  · rw [Mem.copy_of_lt _ _ hbelow, Mem.copy_of_lt _ _ (by omega), h i hi₁ hbelow]
  · obtain ⟨j, rfl⟩ := Nat.exists_eq_add_of_le (Nat.le_of_not_lt hbelow)
    have hj : j < n := by omega
    rw [Mem.copy_add hj]
    by_cases hjo : j < offset
    · rw [Mem.copy_of_lt _ _ (by omega)]
      cases k with
      | zero => rw [Nat.zero_mul] at hn; omega
      | succ k =>
          rw [Nat.succ_mul] at hk ⊢
          rw [h.mul hlo k (i := hi + j - offset) (by omega) (by omega)]
          congr 1
          omega
    · have hsub : hi + j - offset = hi + (j - offset) := by omega
      rw [hsub, Mem.copy_add (by omega), h _ (by omega) (by omega)]
      congr 1
      omega

/-- What repeats a text is its back reference. -/
theorem slice_repeats (h : Repeats m' offset lo hi) (hpos : 0 < offset) (hlo : offset ≤ lo)
    (hm : ∀ i, i < lo → m' i = m i) :
    ∀ n, lo + n ≤ hi → slice m' 0 (lo + n) = backCopy offset n (slice m 0 lo)
  | 0, _ => slice_congr fun i _ hi => hm i (by omega)
  | n + 1, hn => by
      have ih := slice_repeats h hpos hlo hm n (by omega)
      rw [← Nat.add_assoc, slice_succ, ih, backCopy_succ, ← ih, length_slice]
      congr 2
      have hlt : lo + n - offset < lo + n := by omega
      rw [Nat.zero_add, h (lo + n) (by omega) (by omega)]
      simp [slice, List.getD_eq_getElem?_getD, hlt]

end Repeats

/-- A range of zeros is what the code makes of the offset 0. -/
theorem slice_zeros {m m' : Mem} {lo hi : Nat} (hzero : ∀ i, lo ≤ i → i < hi → m' i = 0)
    (hm : ∀ i, i < lo → m' i = m i) :
    ∀ n, lo + n ≤ hi → slice m' 0 (lo + n) = backCopy 0 n (slice m 0 lo)
  | 0, _ => slice_congr fun i _ hi => hm i (by omega)
  | n + 1, hn => by
      have ih := slice_zeros hzero hm n (by omega)
      rw [← Nat.add_assoc, slice_succ, ih, backCopy_succ, ← ih, length_slice, Nat.zero_add,
        hzero (lo + n) (by omega) (by omega), Nat.sub_zero]
      simp [List.getD_eq_getElem?_getD]

/-- Bytes that equal those `offset` below them are a back reference. -/
theorem backCopy_slice {m : Mem} {pos offset : Nat} (hpos : 0 < offset) (hle : offset ≤ pos)
    {n : Nat} (h : ∀ i, i < n → m (pos + i) = m (pos + i - offset)) :
    backCopy offset n (slice m 0 pos) = slice m 0 (pos + n) :=
  (slice_repeats (m := m) (show Repeats m offset pos (pos + n) from fun i hlo hhi => by
      obtain ⟨j, rfl⟩ := Nat.exists_eq_add_of_le hlo
      exact h j (by omega)) hpos hle (fun _ _ => rfl) n (le_refl _)).symm

/-! ## Copies that go on a little -/

variable {σ : Type}

/-- `do { body(pos); pos += stride; } while (pos < dstEnd)`. -/
def wildCopy (body : Nat → σ → σ) (stride dstEnd : Nat) : (fuel pos : Nat) → σ → σ
  | 0, _, s => s
  | fuel + 1, pos, s =>
      if pos + stride < dstEnd then wildCopy body stride dstEnd fuel (pos + stride) (body pos s)
      else body pos s

/-- The last round ends at `dstEnd` or behind it, by less than one round if
there was more than one. -/
theorem wildCopy_inv (body : Nat → σ → σ) (stride dstEnd : Nat) (I : Nat → σ → Prop)
    (hstride : 0 < stride) (fuel pos : Nat) (s : σ) (hfuel : dstEnd ≤ pos + fuel)
    (hstep : ∀ p t, pos ≤ p → p = pos ∨ p < dstEnd → I p t → I (p + stride) (body p t))
    (h : I pos s) :
    ∃ last, dstEnd ≤ last ∧ pos + stride ≤ last ∧ (last < dstEnd + stride ∨ last = pos + stride) ∧
      I last (wildCopy body stride dstEnd (fuel + 1) pos s) := by
  induction fuel generalizing pos s with
  | zero =>
      rw [wildCopy, if_neg (by omega)]
      exact ⟨pos + stride, by omega, le_refl _, Or.inr rfl, hstep pos s (le_refl _) (Or.inl rfl) h⟩
  | succ fuel ih =>
      have hnext := hstep pos s (le_refl _) (Or.inl rfl) h
      rw [wildCopy]
      split
      · rename_i hlt
        obtain ⟨last, hle, hpos, hlast, hI⟩ := ih (pos + stride) (body pos s) (by omega)
          (fun p t hp hor => hstep p t (by omega) (Or.inr (by omega))) hnext
        exact ⟨last, hle, by omega, Or.inl (by omega), hI⟩
      · exact ⟨pos + stride, by omega, le_refl _, Or.inr rfl, hnext⟩

end ByteLib
