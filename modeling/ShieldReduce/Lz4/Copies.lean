import ShieldReduce.Lz4.Decompress
import Mathlib.Tactic.IntervalCases

/-!
# What the decoder's copies write

A copy of literals appends them to the text and a copy of a match
appends its back reference, though both write further than the text
then goes. `Copied` is the state in the middle of a match; it covers the
offset 0, for which the code writes zeros.
-/

namespace ShieldReduce.Lz4

open ByteLib

/-- The bytes from `lo` to `hi` are a match with `offset`, those below `lo` are as they were. -/
def Copied (m₀ m : Mem) (offset lo hi : Nat) : Prop :=
  (∀ i, i < lo → m i = m₀ i) ∧
    if offset = 0 then ∀ i, lo ≤ i → i < hi → m i = 0 else Repeats m offset lo hi

section Copied

variable {m₀ m : Mem} {offset lo hi : Nat}

theorem Copied.refl (m : Mem) (offset lo : Nat) : Copied m m offset lo lo := by
  refine ⟨fun _ _ => rfl, ?_⟩
  split
  · intro i hlo hhi
    omega
  · exact .refl m offset lo

theorem Copied.mono (h : Copied m₀ m offset lo hi) {hi' : Nat} (hle : hi' ≤ hi) :
    Copied m₀ m offset lo hi' := by
  refine ⟨h.1, ?_⟩
  have hrange := h.2
  split at hrange
  · rename_i hzero
    rw [if_pos hzero]
    exact fun i hlo hhi => hrange i hlo (by omega)
  · rename_i hpos
    rw [if_neg hpos]
    exact hrange.mono hle

/-- The next `n` bytes, copied from `q` bytes below them. -/
theorem Copied.copy (h : Copied m₀ m offset lo hi) (hlo : offset ≤ lo) (hle : lo ≤ hi) {q n : Nat}
    (hdvd : offset = 0 ∨ offset ∣ q) (hn : n ≤ q) (hq : lo + q ≤ hi + offset) :
    Copied m₀ (m.copy hi (hi - q) n) offset lo (hi + n) := by
  refine ⟨fun i hi' => (Mem.copy_of_lt _ _ (by omega)).trans (h.1 i hi'), ?_⟩
  have hrange := h.2
  split at hrange
  · rename_i hzero
    rw [if_pos hzero]
    intro i hi₁ hi₂
    by_cases hbelow : i < hi
    · rw [Mem.copy_of_lt _ _ hbelow, hrange i hi₁ hbelow]
    · obtain ⟨j, rfl⟩ := Nat.exists_eq_add_of_le (Nat.le_of_not_lt hbelow)
      rw [Mem.copy_add (by omega), hrange _ (by omega) (by omega)]
  · rename_i hpos
    obtain ⟨k, rfl⟩ := hdvd.resolve_left hpos
    rw [if_neg hpos, Nat.mul_comm]
    rw [Nat.mul_comm] at hn hq
    exact hrange.copy hlo hn hq

/-- The text with the match behind it. -/
theorem Copied.slice (h : Copied m₀ m offset lo hi) (hlo : offset ≤ lo) {n : Nat}
    (hn : lo + n ≤ hi) : slice m 0 (lo + n) = backCopy offset n (ByteLib.slice m₀ 0 lo) := by
  have hrange := h.2
  split at hrange
  · rename_i hzero
    rw [hzero]
    exact slice_zeros hrange h.1 n hn
  · exact slice_repeats hrange (by omega) hlo h.1 n hn

end Copied

namespace Decoder

/-- Everything that was accessed is in the buffers. -/
def Inside (iend oend : Nat) (d : Decoder) : Prop := ∀ a ∈ d.accesses, a.Inside iend oend

/-- The text so far. -/
def text (d : Decoder) : Bytes := slice d.dst 0 d.op

variable {src : Mem} {iend oend : Nat} {d : Decoder}

/-! ## Single copies -/

@[simp] theorem ip_copySrc (pos ip n : Nat) : (d.copySrc src pos ip n).ip = d.ip := rfl
@[simp] theorem op_copySrc (pos ip n : Nat) : (d.copySrc src pos ip n).op = d.op := rfl
@[simp] theorem ip_copyDst (pos : Nat) (m : Int) (n : Nat) : (d.copyDst pos m n).ip = d.ip := rfl
@[simp] theorem op_copyDst (pos : Nat) (m : Int) (n : Nat) : (d.copyDst pos m n).op = d.op := rfl
@[simp] theorem ip_store (pos : Nat) (xs : Bytes) : (d.store pos xs).ip = d.ip := rfl
@[simp] theorem op_store (pos : Nat) (xs : Bytes) : (d.store pos xs).op = d.op := rfl

theorem Inside.store (h : d.Inside iend oend) {pos : Nat} {xs : Bytes}
    (hpos : pos + xs.length ≤ oend) : (d.store pos xs).Inside iend oend := by
  intro a ha
  rcases List.mem_cons.mp ha with rfl | ha
  · exact hpos
  · exact h a ha

theorem Inside.copySrc (h : d.Inside iend oend) (src : Mem) {pos ip n : Nat} (hpos : pos + n ≤ oend)
    (hip : ip + n ≤ iend) : (d.copySrc src pos ip n).Inside iend oend := by
  intro a ha
  rcases List.mem_cons.mp ha with rfl | ha
  · exact hpos
  · rcases List.mem_cons.mp ha with rfl | ha
    · exact hip
    · exact h a ha

theorem Inside.copyDst (h : d.Inside iend oend) {pos n : Nat} {m : Int} (hpos : pos + n ≤ oend)
    (hm : 0 ≤ m) (hlt : m ≤ pos) : (d.copyDst pos m n).Inside iend oend := by
  intro a ha
  rcases List.mem_cons.mp ha with rfl | ha
  · exact hpos
  · rcases List.mem_cons.mp ha with rfl | ha
    · exact ⟨hm, by omega⟩
    · exact h a ha

theorem Inside.of_accesses {d' : Decoder} (h : d.Inside iend oend)
    (heq : d'.accesses = d.accesses) : d'.Inside iend oend := fun a ha => h a (heq ▸ ha)

theorem slice_copySrc {pos ip n k : Nat} (hk : k ≤ n) :
    slice (d.copySrc src pos ip n).dst 0 (pos + k) = slice d.dst 0 pos ++ slice src ip k := by
  rw [← take_slice hk]
  exact slice_zero_write (by rwa [length_slice])

/-! ## Copies of literals -/

/-- A text, and literals behind it as far as `pos`. -/
structure Appends (src : Mem) (iend oend : Nat) (d : Decoder) (op ip pos : Nat) (t : Decoder) :
    Prop where
  ip_eq : t.ip = d.ip
  op_eq : t.op = d.op
  inside : t.Inside iend oend
  text : slice t.dst 0 pos = slice d.dst 0 op ++ slice src ip (pos - op)

variable {op ip pos : Nat} {t : Decoder}

theorem Appends.refl (src : Mem) (op ip : Nat) (h : d.Inside iend oend) :
    Appends src iend oend d op ip op d where
  ip_eq := rfl
  op_eq := rfl
  inside := h
  text := by rw [Nat.sub_self, slice_zero, List.append_nil]

theorem Appends.copySrc (h : Appends src iend oend d op ip pos t) (hle : op ≤ pos) {n : Nat}
    (hpos : pos + n ≤ oend) (hip : ip + (pos - op) + n ≤ iend) :
    Appends src iend oend d op ip (pos + n) (t.copySrc src pos (ip + (pos - op)) n) where
  ip_eq := h.ip_eq
  op_eq := h.op_eq
  inside := h.inside.copySrc src hpos hip
  text := by
    have hsub : pos + n - op = (pos - op) + n := by omega
    rw [slice_copySrc (le_refl n), h.text, hsub, slice_add, List.append_assoc]

/-- The literals are there though more was copied. -/
theorem Appends.slice (h : Appends src iend oend d op ip pos t) {n : Nat} (hn : op + n ≤ pos) :
    slice t.dst 0 (op + n) = ByteLib.slice d.dst 0 op ++ ByteLib.slice src ip n := by
  have htake := congrArg (List.take (op + n)) h.text
  have hlen : (ByteLib.slice d.dst 0 op).length = op := length_slice ..
  rwa [take_slice hn, List.take_append, hlen, List.take_of_length_le (by omega),
    Nat.add_sub_cancel_left, take_slice (by omega)] at htake

theorem wildCopy8Src_spec (src : Mem) (ip : Nat) (h : d.Inside iend oend) {op dstEnd : Nat}
    (hle : op ≤ dstEnd)
    (hdst : dstEnd + 8 ≤ oend) (hsrc : ip + (dstEnd - op) + 8 ≤ iend) :
    ∃ last, dstEnd ≤ last ∧ Appends src iend oend d op ip last (d.wildCopy8Src src op ip dstEnd) := by
  obtain ⟨last, hlast, -, -, hA⟩ := wildCopy_inv
    (fun pos d => d.copySrc src pos (ip + (pos - op)) 8) 8 dstEnd
    (fun pos t => Appends src iend oend d op ip pos t) (by decide) dstEnd op d (by omega)
    (fun p t hp hor hA => hA.copySrc hp (by omega) (by omega)) (.refl src op ip h)
  exact ⟨last, hlast, hA⟩

theorem wildCopy32Src_spec (src : Mem) (ip : Nat) (h : d.Inside iend oend) {op dstEnd : Nat}
    (hle : op ≤ dstEnd)
    (hdst : dstEnd + 32 ≤ oend) (hsrc : ip + (dstEnd - op) + 32 ≤ iend) :
    ∃ last, dstEnd ≤ last ∧
      Appends src iend oend d op ip last (d.wildCopy32Src src op ip dstEnd) := by
  obtain ⟨last, hlast, -, -, hA⟩ := wildCopy_inv
    (fun pos d => (d.copySrc src pos (ip + (pos - op)) 16).copySrc src (pos + 16)
      (ip + (pos - op) + 16) 16) 32 dstEnd
    (fun pos t => Appends src iend oend d op ip pos t) (by decide) dstEnd op d (by omega)
    (fun p t hp hor hA => by
      have hfirst := hA.copySrc hp (n := 16) (by omega) (by omega)
      have hsecond := hfirst.copySrc (by omega) (n := 16) (by omega) (by omega)
      have hsub : ip + (p + 16 - op) = ip + (p - op) + 16 := by omega
      rwa [hsub] at hsecond) (.refl src op ip h)
  exact ⟨last, hlast, hA⟩

/-- A copy of literals leaves the positions alone, wherever it goes. -/
theorem wildCopy8Src_pos (src : Mem) (d : Decoder) (op ip dstEnd : Nat) :
    (d.wildCopy8Src src op ip dstEnd).ip = d.ip ∧ (d.wildCopy8Src src op ip dstEnd).op = d.op := by
  obtain ⟨-, -, -, -, hpos⟩ := wildCopy_inv
    (fun pos d => d.copySrc src pos (ip + (pos - op)) 8) 8 dstEnd
    (fun _ (t : Decoder) => t.ip = d.ip ∧ t.op = d.op) (by decide) dstEnd op d (by omega)
    (fun _ _ _ _ ht => ht) ⟨rfl, rfl⟩
  exact hpos

theorem wildCopy32Src_pos (src : Mem) (d : Decoder) (op ip dstEnd : Nat) :
    (d.wildCopy32Src src op ip dstEnd).ip = d.ip ∧
      (d.wildCopy32Src src op ip dstEnd).op = d.op := by
  obtain ⟨-, -, -, -, hpos⟩ := wildCopy_inv
    (fun pos d => (d.copySrc src pos (ip + (pos - op)) 16).copySrc src (pos + 16)
      (ip + (pos - op) + 16) 16) 32 dstEnd
    (fun _ (t : Decoder) => t.ip = d.ip ∧ t.op = d.op) (by decide) dstEnd op d (by omega)
    (fun _ _ _ _ ht => ht) ⟨rfl, rfl⟩
  exact hpos

/-! ## Copies of a match -/

/-- In the middle of a match that begins at `lo`. -/
structure Matching (iend oend : Nat) (d : Decoder) (offset lo pos : Nat) (t : Decoder) : Prop where
  ip_eq : t.ip = d.ip
  op_eq : t.op = d.op
  inside : t.Inside iend oend
  copied : Copied d.dst t.dst offset lo pos
  inReach : offset ≤ lo
  ordered : lo ≤ pos

variable {offset lo : Nat}

theorem Matching.refl (h : d.Inside iend oend) (hlo : offset ≤ lo) :
    Matching iend oend d offset lo lo d := ⟨rfl, rfl, h, .refl _ _ _, hlo, le_refl _⟩

theorem Matching.copyDst (h : Matching iend oend d offset lo pos t) {q n : Nat} {m : Int}
    (hm : m + q = pos) (hdvd : offset = 0 ∨ offset ∣ q) (hn : n ≤ q) (hq : lo + q ≤ pos + offset)
    (hpos : pos + n ≤ oend) : Matching iend oend d offset lo (pos + n) (t.copyDst pos m n) where
  ip_eq := h.ip_eq
  op_eq := h.op_eq
  inside := by
    have hreach := h.inReach
    exact h.inside.copyDst hpos (by omega) (by omega)
  copied := by
    have hreach := h.inReach
    have hto : m.toNat = pos - q := by omega
    have hcopy := h.copied.copy h.inReach h.ordered hdvd hn hq
    rwa [← hto] at hcopy
  inReach := h.inReach
  ordered := by
    have hordered := h.ordered
    omega

/-- The text with the match behind it. -/
theorem Matching.slice (h : Matching iend oend d offset lo pos t) {n : Nat} (hn : lo + n ≤ pos) :
    slice t.dst 0 (lo + n) = backCopy offset n (ByteLib.slice d.dst 0 lo) :=
  h.copied.slice h.inReach hn

/-- From a distance of at least eight bytes a match is copied by eight bytes. -/
theorem Matching.wildCopy8 (h : Matching iend oend d offset lo pos t) (dstEnd : Nat) {q : Nat}
    {m : Int} (hm : m + q = pos) (hdvd : offset = 0 ∨ offset ∣ q) (hn : 8 ≤ q) (hq : lo + q ≤ pos + offset)
    (hpos : pos + 8 ≤ oend) (hend : dstEnd + 7 ≤ oend) :
    ∃ last, dstEnd ≤ last ∧ pos + 8 ≤ last ∧
      Matching iend oend d offset lo last (t.wildCopy8 pos m dstEnd) := by
  obtain ⟨last, hlast, hfirst, -, hM⟩ := wildCopy_inv
    (fun p d => d.copyDst p (m + (p - pos : Nat)) 8) 8 dstEnd
    (fun p t => Matching iend oend d offset lo p t) (by decide) dstEnd pos t (by omega)
    (fun p t hp hor hM => hM.copyDst (q := q) (by omega) hdvd hn (by omega) (by omega)) h
  exact ⟨last, hlast, hfirst, hM⟩

theorem Matching.wildCopy32 (h : Matching iend oend d offset lo pos t) (dstEnd : Nat) {q : Nat}
    {m : Int} (hm : m + q = pos) (hdvd : offset = 0 ∨ offset ∣ q) (hn : 16 ≤ q) (hq : lo + q ≤ pos + offset)
    (hpos : pos + 32 ≤ oend) (hend : dstEnd + 31 ≤ oend) :
    ∃ last, dstEnd ≤ last ∧ Matching iend oend d offset lo last (t.wildCopy32 pos m dstEnd) := by
  obtain ⟨last, hlast, -, -, hM⟩ := wildCopy_inv
    (fun p d => (d.copyDst p (m + (p - pos : Nat)) 16).copyDst (p + 16)
      (m + (p - pos : Nat) + 16) 16) 32 dstEnd
    (fun p t => Matching iend oend d offset lo p t) (by decide) dstEnd pos t (by omega)
    (fun p t hp hor hM => by
      have hfirst := hM.copyDst (q := q) (n := 16) (m := m + (p - pos : Nat)) (by omega) hdvd hn
        (by omega) (by omega)
      exact hfirst.copyDst (q := q) (n := 16) (m := m + (p - pos : Nat) + 16) (by omega) hdvd hn
        (by omega) (by omega)) h
  exact ⟨last, hlast, hM⟩

/-- Single bytes, from the offset itself. -/
theorem Matching.byte (h : Matching iend oend d offset lo pos t) (hpos : 0 < offset) {m : Int}
    (hm : m + offset = pos) (hlt : pos < oend) :
    Matching iend oend d offset lo (pos + 1) (t.copyDst pos m 1) :=
  h.copyDst hm (Or.inr (dvd_refl offset)) hpos (by have := h.ordered; omega) hlt

/-- The distance that the tables lead to, from behind the first four bytes and
from behind the first eight. -/
theorem tables_dvd {offset : Nat} (hpos : 0 < offset) (hlt : offset < 8) :
    ∃ q q' : Nat, 4 + offset - inc32table.getD offset 0 = q ∧
      8 + offset - inc32table.getD offset 0 + dec64table.getD offset 0 = q' ∧
      offset ∣ q ∧ 4 ≤ q ∧ q ≤ 4 + offset ∧ offset ∣ q' ∧ 8 ≤ q' ∧ q' ≤ 8 + offset := by
  interval_cases offset
  · exact ⟨4, 8, by decide⟩
  · exact ⟨4, 8, by decide⟩
  · exact ⟨6, 9, by decide⟩
  · exact ⟨8, 8, by decide⟩
  · exact ⟨5, 10, by decide⟩
  · exact ⟨6, 12, by decide⟩
  · exact ⟨7, 14, by decide⟩

/-- With the offset 0 the match is where it is copied to, and that has been set
to zero. -/
theorem copyEight_zero (h : d.Inside iend oend) (hroom : d.op + 8 ≤ oend) :
    (d.copyEight d.op 0).2 = d.op ∧
      Matching iend oend d 0 d.op (d.op + 8) (d.copyEight d.op 0).1 := by
  have hsnd : (d.copyEight d.op 0).2 = d.op := by
    simp only [copyEight, if_pos (show 0 < 8 by decide), inc32table, dec64table, List.getD_cons_zero,
      add_zero, sub_zero]
  refine ⟨hsnd, ?_⟩
  have hstore : (d.store d.op [0, 0, 0, 0]).Inside iend oend := h.store (by simp; omega)
  have hzero : ∀ i, d.op ≤ i → i < d.op + 4 → (d.store d.op [0, 0, 0, 0]).dst i = 0 := by
    intro i hlo hhi
    obtain ⟨j, rfl⟩ := Nat.exists_eq_add_of_le hlo
    have hj : j < 4 := by omega
    refine (Mem.write_add (show j < [0, 0, 0, (0 : UInt8)].length from hj)).trans ?_
    interval_cases j <;> rfl
  have hM : Matching iend oend d 0 d.op (d.op + 4) (d.store d.op [0, 0, 0, 0]) :=
    { ip_eq := rfl
      op_eq := rfl
      inside := hstore
      copied := ⟨fun i hi => Mem.write_of_lt _ hi, hzero⟩
      inReach := Nat.zero_le _
      ordered := by omega }
  -- zeros copied onto themselves
  have hself : ∀ {k : Nat} {t : Decoder}, k < 4 → Matching iend oend d 0 d.op (d.op + 4) t →
      Matching iend oend d 0 d.op (d.op + 4) (t.copyDst (d.op + k) (d.op + k : Nat) 1) := by
    intro k t hk ht
    have hval := ht.copied.2
    rw [if_pos rfl] at hval
    have hsame : (t.copyDst (d.op + k) (d.op + k : Nat) 1).dst = t.dst := by
      funext i
      simp only [Decoder.copyDst, Int.toNat_natCast, Mem.copy, Mem.write, length_slice]
      split
      · rename_i hi
        have hik : i = d.op + k := by omega
        subst hik
        simp [ByteLib.slice]
      · rfl
    exact { ht with
      ip_eq := ht.ip_eq
      op_eq := ht.op_eq
      inside := ht.inside.copyDst (by omega) (by omega) (by omega)
      copied := by rw [hsame]; exact ht.copied }
  have h₁ := hself (k := 0) (by decide) hM
  have h₂ := hself (k := 1) (by decide) h₁
  have h₃ := hself (k := 2) (by decide) h₂
  have h₄ := hself (k := 3) (by decide) h₃
  have h₅ := h₄.copyDst (q := 4) (n := 4) (m := d.op) (by omega) (Or.inl rfl) (le_refl _) (by omega)
    (by omega)
  simpa [copyEight, inc32table] using h₅

/-- The first eight bytes of a match, and the distance of the next. -/
theorem copyEight_spec (h : d.Inside iend oend) (hroom : d.op + 8 ≤ oend) (hlo : offset ≤ d.op) :
    Matching iend oend d offset d.op (d.op + 8) (d.copyEight (d.op - offset) offset).1 ∧
      ∃ q : Nat, (d.copyEight (d.op - offset) offset).2 + q = (d.op + 8 : Nat) ∧
        (offset = 0 ∨ offset ∣ q) ∧ 8 ≤ q ∧ q ≤ 8 + offset := by
  by_cases hzero : offset = 0
  · subst hzero
    obtain ⟨hsnd, hM⟩ := copyEight_zero h hroom
    have hm : (d.op : Int) - (0 : Nat) = d.op := by omega
    rw [hm]
    exact ⟨hM, 8, by omega, Or.inl rfl, le_refl _, by omega⟩
  · by_cases hlt : offset < 8
    · obtain ⟨q, q', hq, hq', hdvd, hge, hle, hdvd', hge', hle'⟩ :=
        tables_dvd (Nat.pos_of_ne_zero hzero) hlt
      have hpos := Nat.pos_of_ne_zero hzero
      have hstart : Matching iend oend d offset d.op d.op (d.store d.op [0, 0, 0, 0]) :=
        { ip_eq := rfl
          op_eq := rfl
          inside := h.store (by simp; omega)
          copied := by
            refine ⟨fun i hi => Mem.write_of_lt _ hi, ?_⟩
            rw [if_neg hzero]
            exact .refl _ _ _
          inReach := hlo
          ordered := le_refl _ }
      have h₁ := hstart.byte hpos (m := d.op - offset) (by omega) (by omega)
      have h₂ := h₁.byte hpos (m := d.op - offset + 1) (by omega) (by omega)
      have h₃ := h₂.byte hpos (m := d.op - offset + 2) (by omega) (by omega)
      have h₄ := h₃.byte hpos (m := d.op - offset + 3) (by omega) (by omega)
      have h₅ := h₄.copyDst (q := q) (n := 4) (m := d.op - offset + inc32table.getD offset 0)
        (by omega) (Or.inr hdvd) hge (by omega) (by omega)
      simp only [copyEight, if_pos hlt]
      exact ⟨h₅, q', by omega, Or.inr hdvd', hge', hle'⟩
    · simp only [copyEight, if_neg hlt]
      have hM := (Matching.refl h hlo).copyDst (q := offset) (n := 8) (m := d.op - offset) (by omega)
        (Or.inr (dvd_refl _)) (by omega) (by omega) hroom
      exact ⟨hM, offset, by omega, Or.inr (dvd_refl _), by omega, by omega⟩

/-- The bytes from `offset` below the match on, again and again. -/
theorem copied_pattern {m : Mem} {offset lo : Nat} (hpos : 0 < offset)
    (hlo : offset ≤ lo) {t : Mem} {k : Nat} (hbelow : ∀ i, i < lo → t i = m i)
    (hrange : ∀ j, j < k → t (lo + j) = m (lo - offset + j % offset)) :
    Copied m t offset lo (lo + k) := by
  refine ⟨hbelow, ?_⟩
  rw [if_neg (by omega)]
  intro i hi₁ hi₂
  obtain ⟨j, rfl⟩ := Nat.exists_eq_add_of_le hi₁
  rw [hrange j (by omega)]
  by_cases hj : j < offset
  · have hsub : lo + j - offset = lo - offset + j := by omega
    rw [hbelow _ (by omega), hsub, Nat.mod_eq_of_lt hj]
  · have hsub : lo + j - offset = lo + (j - offset) := by omega
    rw [hsub, hrange _ (by omega), Nat.mod_eq_sub_mod (by omega)]

theorem memcpyUsingOffset_spec (h : d.Inside iend oend) (hlo : offset ≤ d.op) (dstEnd : Nat)
    (hend : dstEnd + 12 ≤ oend) (hmin : d.op + 4 ≤ dstEnd) :
    ∃ last, dstEnd ≤ last ∧ Matching iend oend d offset d.op last
      (d.memcpyUsingOffset (d.op - offset) dstEnd offset) := by
  unfold memcpyUsingOffset
  split
  · rename_i hpattern
    have hpos : 0 < offset := by omega
    have hdvd : offset ∣ 8 := by
      rcases hpattern with rfl | rfl | rfl <;> decide
    have hto : ((d.op : Int) - offset).toNat = d.op - offset := by omega
    have hlen : ((List.range 8).map fun i =>
        d.dst (((d.op : Int) - offset).toNat + i % offset)).length = 8 := by simp
    have hin : Inside iend oend { d with accesses := .back (d.op - offset) offset :: d.accesses } := by
      intro a ha
      rcases List.mem_cons.mp ha with rfl | ha
      · exact ⟨by omega, by omega⟩
      · exact h a ha
    obtain ⟨last, hlast, -, -, -, hbelow, hrange, hI, hip, hop⟩ :=
      wildCopy_inv
      (fun pos d' => d'.store pos ((List.range 8).map fun i =>
        d.dst (((d.op : Int) - offset).toNat + i % offset))) 8 dstEnd
      (fun p t => 8 ∣ p - d.op ∧ (∀ i, i < d.op → t.dst i = d.dst i) ∧
        (∀ j, j < p - d.op → t.dst (d.op + j) = d.dst (d.op - offset + j % offset)) ∧
        t.Inside iend oend ∧ t.ip = d.ip ∧ t.op = d.op) (by decide)
      dstEnd d.op { d with accesses := .back (d.op - offset) offset :: d.accesses } (by omega)
      (fun p t hp hor ht => by
        obtain ⟨hmul, hbelow, hrange, hI, hip, hop⟩ := ht
        refine ⟨by omega, fun i hi => ?_, fun j hj => ?_, hI.store (by rw [hlen]; omega), hip, hop⟩
        · exact (Mem.write_of_lt _ (by omega)).trans (hbelow i hi)
        · by_cases hjp : j < p - d.op
          · exact (Mem.write_of_lt _ (by omega)).trans (hrange j hjp)
          · obtain ⟨r, hr⟩ := Nat.exists_eq_add_of_le (Nat.le_of_not_lt hjp)
            have hadd : d.op + j = p + r := by omega
            have hr8 : r < 8 := by omega
            have hmod : j % offset = r % offset := by
              have h8 := dvd_trans hdvd hmul
              rw [hr, Nat.add_mod, Nat.mod_eq_zero_of_dvd h8, Nat.zero_add, Nat.mod_mod]
            rw [hadd]
            refine (Mem.write_add (by rw [hlen]; exact hr8)).trans ?_
            rw [hmod, List.getD_eq_getElem?_getD, List.getElem?_map, List.getElem?_range hr8]
            simp only [Option.map_some, Option.getD_some, hto])
      ⟨by simp, fun _ _ => rfl, fun j hj => absurd hj (by omega), hin, rfl, rfl⟩
    refine ⟨last, hlast, hip, hop, hI, ?_, hlo, by omega⟩
    obtain ⟨k, hk⟩ := Nat.exists_eq_add_of_le (show d.op ≤ last by omega)
    have hsub : last - d.op = k := by omega
    rw [hsub] at hrange
    rw [hk]
    exact copied_pattern hpos hlo hbelow hrange
  · obtain ⟨hM, q, hm, hdvd, hge, hle⟩ := copyEight_spec h (by omega) hlo
    obtain ⟨last, hlast, -, hM'⟩ := hM.wildCopy8 dstEnd hm hdvd hge (by omega) (by omega)
      (by omega)
    exact ⟨last, hlast, hM'⟩

/-- The tail of a match, byte by byte. -/
theorem Matching.bytes {q : Nat} {m : Int} (hdvd : offset = 0 ∨ offset ∣ q) (hn : 0 < q) :
    ∀ (n : Nat) {pos : Nat} {t : Decoder}, Matching iend oend d offset lo pos t →
      m + q = pos → lo + q ≤ pos + offset → pos + n ≤ oend →
      Matching iend oend d offset lo (pos + n)
        ((List.range n).foldl (fun d i => d.copyDst (pos + i) (m + i) 1) t)
  | 0, _, _, h, _, _, _ => h
  | n + 1, pos, t, h, hm, hq, hpos => by
      have ih := Matching.bytes hdvd hn n h hm hq (by omega)
      rw [List.range_succ, List.foldl_append, List.foldl_cons, List.foldl_nil, ← Nat.add_assoc]
      exact ih.copyDst (q := q) (by omega) hdvd (by omega) (by omega) (by omega)

end Decoder

end ShieldReduce.Lz4
