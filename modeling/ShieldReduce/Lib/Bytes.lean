import Mathlib.Algebra.Group.Nat.Defs
import Mathlib.Data.List.Basic
import Mathlib.Data.List.Range
import Mathlib.Tactic.Common

/-!
# Byte strings, byte memories and little-endian words

A buffer that a program reads through a pointer is a *memory*, a total
map from offsets to bytes: reading past the end of an allocation is then
reading some byte, about which nothing is known. A buffer that is
written front to back is a byte *string*, whose length is how far it has
been written; `writeAt` overwrites inside it or extends it.
-/

namespace ByteLib

abbrev Bytes := List UInt8

/-- What a pointer points to. -/
abbrev Mem := Nat → UInt8

/-! ## Slices of a memory -/

/-- The `len` bytes at offset `pos`. -/
def slice (m : Mem) (pos len : Nat) : Bytes :=
  (List.range len).map fun i => m (pos + i)

@[simp] theorem length_slice (m : Mem) (pos len : Nat) :
    (slice m pos len).length = len := by
  simp [slice]

@[simp] theorem slice_zero (m : Mem) (pos : Nat) : slice m pos 0 = [] := rfl

theorem slice_succ (m : Mem) (pos len : Nat) :
    slice m pos (len + 1) = slice m pos len ++ [m (pos + len)] := by
  simp [slice, List.range_succ]

theorem slice_add (m : Mem) (pos : Nat) (a b : Nat) :
    slice m pos (a + b) = slice m pos a ++ slice m (pos + a) b := by
  induction b with
  | zero => simp
  | succ b ih =>
      rw [← Nat.add_assoc, slice_succ, ih, slice_succ, List.append_assoc, Nat.add_assoc]

theorem slice_eq_iff {m m' : Mem} {p p' len : Nat} :
    slice m p len = slice m' p' len ↔ ∀ i, i < len → m (p + i) = m' (p' + i) := by
  simp [slice, List.map_inj_left]

theorem slice_eq_succ {m m' : Mem} {p p' len : Nat}
    (h : slice m p len = slice m' p' len) (hb : m (p + len) = m' (p' + len)) :
    slice m p (len + 1) = slice m' p' (len + 1) := by
  rw [slice_succ, slice_succ, h, hb]

theorem slice_eq_add {m m' : Mem} {p p' a b : Nat}
    (h : slice m p a = slice m' p' a)
    (h' : slice m (p + a) b = slice m' (p' + a) b) :
    slice m p (a + b) = slice m' p' (a + b) := by
  rw [slice_add, slice_add, h, h']

/-! ## The memory a byte string fills -/

/-- A byte string placed at offset 0; the bytes after it read as 0. -/
def memOf (l : Bytes) : Mem := fun i => l.getD i 0

theorem memOf_eq_getElem {l : Bytes} {i : Nat} (hi : i < l.length) : memOf l i = l[i] := by
  rw [memOf, List.getD_eq_getElem?_getD, List.getElem?_eq_getElem hi, Option.getD_some]

theorem slice_memOf {l : Bytes} : ∀ {pos len : Nat}, pos + len ≤ l.length →
    slice (memOf l) pos len = (l.drop pos).take len := by
  intro pos len h
  apply List.ext_getElem
  · simp; omega
  · intro i h1 h2
    have hi : i < len := by simpa using h1
    have hlt : pos + i < l.length := by omega
    simp [slice, memOf, List.getD_eq_getElem?_getD, List.getElem?_eq_getElem hlt]

theorem slice_memOf_self (l : Bytes) : slice (memOf l) 0 l.length = l := by
  rw [slice_memOf (by omega)]
  simp

/-! ## Byte strings of a fixed length -/

/-- An array of `n` bytes. -/
abbrev BytesN (n : Nat) := { l : Bytes // l.length = n }

/-- The first `n` bytes of a string; what it is short of reads as 0. -/
def BytesN.ofBytes (n : Nat) (l : Bytes) : BytesN n :=
  ⟨(l ++ List.replicate n 0).take n, by simp⟩

@[simp] theorem BytesN.ofBytes_append {n : Nat} (x : BytesN n) (rest : Bytes) :
    BytesN.ofBytes n (x.1 ++ rest) = x := by
  refine Subtype.ext ?_
  have h : (x.1 ++ (rest ++ List.replicate n 0)).take n = x.1 := by
    rw [List.take_append_of_le_length (by rw [x.2]), List.take_of_length_le (by rw [x.2])]
  show (x.1 ++ rest ++ List.replicate n 0).take n = x.1
  rw [List.append_assoc, h]

@[simp] theorem BytesN.ofBytes_val {n : Nat} (x : BytesN n) : BytesN.ofBytes n x.1 = x := by
  have h := BytesN.ofBytes_append x []
  rwa [List.append_nil] at h

/-- Only the first `n` bytes count. -/
theorem BytesN.ofBytes_append_of_le {n : Nat} {l : Bytes} (h : n ≤ l.length) (t : Bytes) :
    BytesN.ofBytes n (l ++ t) = BytesN.ofBytes n l := by
  refine Subtype.ext ?_
  show (l ++ t ++ List.replicate n 0).take n = (l ++ List.replicate n 0).take n
  rw [List.append_assoc, List.take_append_of_le_length h, List.take_append_of_le_length h]

/-! ## Overwriting inside a byte string -/

/-- `memcpy` of `xs` to offset `pos` of the buffer `buf`. -/
def writeAt (buf : Bytes) (pos : Nat) (xs : Bytes) : Bytes :=
  buf.take pos ++ xs ++ buf.drop (pos + xs.length)

theorem length_writeAt {buf : Bytes} {pos : Nat} (xs : Bytes) (h : pos ≤ buf.length) :
    (writeAt buf pos xs).length = max buf.length (pos + xs.length) := by
  simp [writeAt]
  omega

theorem prefix_writeAt (buf xs : Bytes) : xs <+: writeAt buf 0 xs :=
  ⟨buf.drop (0 + xs.length), by simp [writeAt]⟩

/-- What precedes the write is kept, and the write follows it. -/
theorem take_writeAt {buf : Bytes} {pos : Nat} (xs : Bytes) (h : pos ≤ buf.length) :
    (writeAt buf pos xs).take (pos + xs.length) = buf.take pos ++ xs := by
  have hlen : (buf.take pos ++ xs).length = pos + xs.length := by simp; omega
  rw [writeAt, ← hlen, List.take_left]

/-- A write that stays inside the first `n` bytes replaces its own range there. -/
theorem take_writeAt_of_le {buf : Bytes} {pos n : Nat} {xs : Bytes}
    (hn : n ≤ buf.length) (h : pos + xs.length ≤ n) :
    (writeAt buf pos xs).take n
      = buf.take pos ++ xs ++ (buf.take n).drop (pos + xs.length) := by
  have hlen : (buf.take pos ++ xs).length = pos + xs.length := by simp; omega
  rw [writeAt, List.take_append, hlen, List.take_of_length_le (by omega), List.drop_take]

/-- A header overwritten in place, the text behind it cut to `n` bytes. -/
theorem rewrite_header {buf u hdr t : Bytes} {d : Nat} (hd : d ≤ buf.length)
    (h : buf.take d = u ++ (hdr ++ t)) (hdr' : Bytes) (hlen : hdr'.length = hdr.length)
    {n : Nat} (hn : n ≤ t.length) :
    (writeAt buf u.length hdr').take (u.length + hdr.length + n) = u ++ (hdr' ++ t.take n) ∧
      u.length + hdr.length + n ≤ (writeAt buf u.length hdr').length := by
  have hdlen : d = u.length + hdr.length + t.length := by
    have := congrArg List.length h
    simp at this
    omega
  have hu : buf.take u.length = u := by
    have := congrArg (List.take u.length) h
    rwa [List.take_take, Nat.min_eq_left (by omega), List.take_left] at this
  have hrest : (buf.take (u.length + hdr.length + n)).drop (u.length + hdr.length)
      = t.take n := by
    have := congrArg (fun l => (l.take (u.length + hdr.length + n)).drop (u.length + hdr.length)) h
    simp only [List.take_take, Nat.min_eq_left (show u.length + hdr.length + n ≤ d by omega),
      ← List.append_assoc] at this
    rw [this, ← List.length_append, List.take_length_add_append, List.drop_left]
  constructor
  · rw [take_writeAt_of_le (by omega) (by omega), hu, hlen, hrest, List.append_assoc]
  · rw [length_writeAt _ (by omega)]
    omega

/-! ## Little-endian 32-bit words -/

def le32 (x : UInt32) : Bytes :=
  [UInt8.ofNat x.toNat, UInt8.ofNat (x.toNat / 256),
    UInt8.ofNat (x.toNat / 65536), UInt8.ofNat (x.toNat / 16777216)]

/-- The word the first four bytes of a string spell. -/
def ofLe32 : Bytes → UInt32
  | a :: b :: c :: d :: _ =>
      UInt32.ofNat (a.toNat + 256 * b.toNat + 65536 * c.toNat + 16777216 * d.toNat)
  | _ => 0

@[simp] theorem length_le32 (x : UInt32) : (le32 x).length = 4 := rfl

@[simp] theorem ofLe32_le32 (x : UInt32) (rest : Bytes) :
    ofLe32 (le32 x ++ rest) = x := by
  have hx : x.toNat < 2 ^ 32 := x.toNat_lt
  simp only [le32, ofLe32, List.cons_append, List.nil_append]
  apply UInt32.toNat_inj.mp
  simp only [UInt8.toNat_ofNat', UInt32.toNat_ofNat']
  omega

/-- The eight bytes of a 64-bit word. -/
def le64 (n : Nat) : Bytes := le32 (UInt32.ofNat n) ++ le32 (UInt32.ofNat (n / 2 ^ 32))

def ofLe64 (bytes : Bytes) : Nat := (ofLe32 bytes).toNat + 2 ^ 32 * (ofLe32 (bytes.drop 4)).toNat

theorem ofLe64_le64 {n : Nat} (h : n < 2 ^ 64) (rest : Bytes) : ofLe64 (le64 n ++ rest) = n := by
  have hdrop : (le64 n ++ rest).drop 4 = le32 (UInt32.ofNat (n / 2 ^ 32)) ++ rest := rfl
  rw [ofLe64, hdrop, le64, List.append_assoc, ofLe32_le32, ofLe32_le32, UInt32.toNat_ofNat',
    UInt32.toNat_ofNat']
  omega

end ByteLib
