import ShieldReduce.Edelta.Locals

/-!
# The buffer of the restoring decoder

`ed3_decode` decodes into a buffer of twice the size of delta and base.
A delta spells its chunk with copies, which take eight bytes each however
much they copy, and with literals. A chunk that repeats a part of its base
many times is decoded beyond the end of the buffer.

Except for one short one, all copies have more than `STRMIN` bytes, so what
they copy are bytes that the chunk shares with the base in strings of that
length (`Job.sharedBytes`). As long as these are not much more than half of
the chunk and the base together, the literals make up for them.
-/

namespace ShieldReduce.Edelta

open ByteLib

/-! ## What the units take and what they give -/

def copiedBytes : List DeltaOp → Nat
  | [] => 0
  | .copy _ len :: ops => len + copiedBytes ops
  | .lit _ :: ops => copiedBytes ops

def literalBytes : List DeltaOp → Nat
  | [] => 0
  | .copy _ _ :: ops => literalBytes ops
  | .lit bs :: ops => bs.length + literalBytes ops

def copyUnits : List DeltaOp → Nat
  | [] => 0
  | .copy _ _ :: ops => 1 + copyUnits ops
  | .lit _ :: ops => copyUnits ops

def literalUnits : List DeltaOp → Nat
  | [] => 0
  | .copy _ _ :: ops => literalUnits ops
  | .lit _ :: ops => 1 + literalUnits ops

theorem length_unitsBytes (ops : List DeltaOp) : (unitsBytes ops).length =
    literalBytes ops + sizeofDeltaUnit1 * copyUnits ops + sizeofDeltaUnit2 * literalUnits ops := by
  induction ops with
  | nil => rfl
  | cons op ops ih =>
      rw [unitsBytes_cons, List.length_append, ih]
      cases op with
      | copy off len =>
          simp only [unitBytes, DeltaUnit1.length_toBytes, literalBytes, copyUnits, literalUnits,
            sizeofDeltaUnit1, sizeofDeltaUnit2]
          omega
      | lit bs =>
          simp only [unitBytes, List.length_append, DeltaUnit2.length_toBytes, literalBytes, copyUnits,
            literalUnits, sizeofDeltaUnit1, sizeofDeltaUnit2]
          omega

theorem length_applyOps_eq (base : Mem) (ops : List DeltaOp) :
    (applyOps base ops).length = copiedBytes ops + literalBytes ops := by
  induction ops with
  | nil => rfl
  | cons op ops ih =>
      rw [applyOps_cons, List.length_append, ih]
      cases op with
      | copy off len =>
          simp only [DeltaOp.text, length_slice, copiedBytes, literalBytes]
          omega
      | lit bs =>
          simp only [DeltaOp.text, copiedBytes, literalBytes]
          omega

/-! ## Short and long copies -/

/-- What the units copy that copy more than `STRMIN` bytes. -/
def longBytes : List DeltaOp → Nat
  | [] => 0
  | .copy _ len :: ops => (if STRMIN < len then len else 0) + longBytes ops
  | .lit _ :: ops => longBytes ops

def longUnits : List DeltaOp → Nat
  | [] => 0
  | .copy _ len :: ops => (if STRMIN < len then 1 else 0) + longUnits ops
  | .lit _ :: ops => longUnits ops

theorem copiedBytes_le (ops : List DeltaOp) :
    copiedBytes ops ≤ longBytes ops + STRMIN * shortCopies ops := by
  induction ops with
  | nil => exact Nat.zero_le _
  | cons op ops ih =>
      cases op with
      | copy off len =>
          simp only [copiedBytes, longBytes, shortCopies]
          rw [STRMIN] at ih ⊢
          split_ifs <;> omega
      | lit bs => exact ih

/-- Nothing is copied without a copy unit. -/
theorem copiedBytes_eq_zero {ops : List DeltaOp} (h : copyUnits ops = 0) : copiedBytes ops = 0 := by
  induction ops with
  | nil => rfl
  | cons op ops ih =>
      cases op with
      | copy off len =>
          rw [copyUnits] at h
          omega
      | lit bs => exact ih h

theorem units_le (ops : List DeltaOp) : longUnits ops + shortCopies ops ≤ copyUnits ops := by
  induction ops with
  | nil => exact Nat.le_refl _
  | cons op ops ih =>
      cases op with
      | copy off len =>
          simp only [copyUnits, longUnits, shortCopies]
          split_ifs <;> omega
      | lit bs => exact ih

/-- No unit copies more than the base. -/
theorem longBytes_le_mul {n : Nat} {ops : List DeltaOp} (hin : ∀ op ∈ ops, op.Within n) :
    longBytes ops ≤ n * longUnits ops := by
  induction ops with
  | nil => exact Nat.zero_le _
  | cons op ops ih =>
      have hrest := ih fun o ho => hin o (List.mem_cons_of_mem _ ho)
      cases op with
      | copy off len =>
          have hop : off + len ≤ n := hin _ (List.mem_cons_self ..)
          simp only [longBytes, longUnits]
          rw [Nat.mul_add]
          split_ifs <;> omega
      | lit bs => exact hrest

/-! ## What the chunk shares with the base -/

namespace Job

/-- The string of `STRMIN + 1` bytes at `pos` is in the base. -/
def inBase (f : Job) (pos : Nat) : Bool :=
  (List.range f.baseSize).any fun off => decide (off + (STRMIN + 1) ≤ f.baseSize) &&
    slice f.baseBuf off (STRMIN + 1) == slice f.newBuf pos (STRMIN + 1)

/-- The byte at `i` is in a string of `STRMIN + 1` bytes of the chunk that is in
the base. -/
def shared (f : Job) (i : Nat) : Bool :=
  (List.range (STRMIN + 1)).any fun back => decide (back ≤ i) &&
    decide (i - back + (STRMIN + 1) ≤ f.newSize) && f.inBase (i - back)

/-- How many bytes of the chunk are in such strings. -/
def sharedBytes (f : Job) : Nat := (List.range f.newSize).countP f.shared

/-- Without such a string in the base there is none in the chunk. -/
theorem sharedBytes_eq_zero {f : Job} (h : f.baseSize ≤ STRMIN) : f.sharedBytes = 0 := by
  refine List.countP_eq_zero.mpr fun i _ hi => ?_
  obtain ⟨back, -, hback⟩ := List.any_eq_true.mp hi
  obtain ⟨off, -, hoff⟩ := List.any_eq_true.mp (Bool.and_eq_true_iff.mp hback).2
  have hle := of_decide_eq_true (Bool.and_eq_true_iff.mp hoff).1
  omega

/-- The bytes of a long copy are shared. -/
theorem shared_of_copy {f : Job} {pos off len : Nat} (hlen : STRMIN < len)
    (hoff : off + len ≤ f.baseSize) (hpos : pos + len ≤ f.newSize)
    (heq : slice f.baseBuf off len = slice f.newBuf pos len) {i : Nat} (hi : pos ≤ i)
    (hi' : i < pos + len) : f.shared i = true := by
  -- the string around `i` begins as late as the copy allows
  obtain ⟨d, hd, hdi, hback⟩ : ∃ d, d + (STRMIN + 1) ≤ len ∧ pos + d ≤ i ∧
      i - (pos + d) < STRMIN + 1 := by
    rw [STRMIN] at *
    exact ⟨min (i - pos) (len - 13), by omega, by omega, by omega⟩
  have hstring : slice f.baseBuf (off + d) (STRMIN + 1) = slice f.newBuf (pos + d) (STRMIN + 1) := by
    refine slice_eq_iff.mpr fun k hk => ?_
    have hbyte := slice_eq_iff.mp heq (d + k) (by omega)
    rwa [← Nat.add_assoc, ← Nat.add_assoc] at hbyte
  have hsub : i - (i - (pos + d)) = pos + d := by omega
  refine List.any_eq_true.mpr ⟨i - (pos + d), List.mem_range.mpr hback, ?_⟩
  rw [hsub, inBase, Bool.and_eq_true, Bool.and_eq_true, decide_eq_true_eq, decide_eq_true_eq,
    List.any_eq_true]
  refine ⟨⟨Nat.sub_le _ _, by omega⟩, off + d, List.mem_range.mpr (by omega), ?_⟩
  rw [Bool.and_eq_true, decide_eq_true_eq, beq_iff_eq]
  exact ⟨by omega, hstring⟩

end Job

/-- Long copies copy shared bytes. -/
theorem longBytes_le_shared {f : Job} {ops : List DeltaOp} (hin : ∀ op ∈ ops, op.Within f.baseSize)
    {pos n : Nat} (htext : applyOps f.baseBuf ops = slice f.newBuf pos n)
    (hpos : pos + n ≤ f.newSize) : longBytes ops ≤ (List.range' pos n).countP f.shared := by
  induction ops generalizing pos n with
  | nil => exact Nat.zero_le _
  | cons op ops ih =>
      have hlen := congrArg List.length htext
      rw [applyOps_cons, List.length_append, length_slice] at hlen
      have hboth : slice f.newBuf pos (op.text f.baseBuf ++ applyOps f.baseBuf ops).length =
          op.text f.baseBuf ++ applyOps f.baseBuf ops := by
        rw [List.length_append, hlen, ← htext, applyOps_cons]
      obtain ⟨hfirst, hrest⟩ := slice_prefix hboth
      have hlater := ih (fun o ho => hin o (List.mem_cons_of_mem _ ho)) hrest.symm (by omega)
      rw [← hlen, ← List.range'_append_1, List.countP_append]
      cases op with
      | lit bs => exact hlater.trans (Nat.le_add_left _ _)
      | copy off len =>
          have hop : off + len ≤ f.baseSize := hin _ (List.mem_cons_self ..)
          rw [DeltaOp.text, length_slice] at hfirst hlater hlen ⊢
          rw [longBytes]
          refine Nat.add_le_add ?_ hlater
          split
          · rename_i hlong
            refine Nat.le_of_eq (Eq.symm ?_)
            rw [List.countP_eq_length.mpr, List.length_range']
            intro i hi
            obtain ⟨hi, hi'⟩ := List.mem_range'_1.mp hi
            exact Job.shared_of_copy hlong hop (by omega) hfirst.symm hi hi'
          · exact Nat.zero_le _

/-! ## The buffer -/

/-- `max_buffer_size` of `ed3_decode`. -/
def EcallRecvDecoder.maxBufferSize (inSize refSize : Nat) : Nat := (inSize + refSize) * 2

/-- A delta that `ProcessDeltachunk` accepts is decoded within the buffer. -/
def DecodesWithin (f : Job) (delta : Bytes) : Prop :=
  delta.length < f.newSize →
    (EcallRecvDecoder.eDeltaDecode (memOf delta) delta.length f.baseBuf).outBuf.length ≤
      EcallRecvDecoder.maxBufferSize delta.length f.baseSize

/-- The chunk is hardly longer than twice its base, or it shares hardly more with
the base than half of what both have; every use of the whole base pays for one
more unit. -/
def ReusesLittle (f : Job) : Prop :=
  f.newSize ≤ 2 * f.baseSize + 2 * sizeofDeltaUnit1 ∨
    2 * f.sharedBytes + sizeofDeltaUnit1 ≤
      f.newSize + 2 * f.baseSize + 2 * sizeofDeltaUnit1 * (f.sharedBytes / f.baseSize)

instance (f : Job) : Decidable (ReusesLittle f) := by
  unfold ReusesLittle
  infer_instance

/-- `x` bytes in `l` copies of at most `b` bytes, none of them beyond `c` bytes. -/
theorem copies_paid {b c l x : Nat} (hb : 8 ≤ b ∨ c = 0) (hx : x ≤ c) (hl : x ≤ b * l) :
    2 * x + 16 * (c / b) ≤ 2 * c + 16 * l := by
  rcases hb with hb | rfl
  · have hdiv := Nat.mul_div_le c b
    generalize c / b = q at hdiv ⊢
    by_cases hq : q ≤ l
    · omega
    · obtain ⟨d, rfl⟩ : ∃ d, q = l + d := ⟨q - l, by omega⟩
      have hd : 8 * d ≤ b * d := Nat.mul_le_mul_right d hb
      rw [Nat.mul_add] at hdiv
      omega
  · rw [Nat.zero_div]
    omega

/-- A base of 43 bytes, and a chunk that repeats it eight times. -/
def repeatedBase : Bytes := List.replicate 13 5 ++ List.replicate 30 0

def repeatingNew : Bytes := List.replicate 13 1 ++ (List.replicate 8 repeatedBase).flatten ++ [3]

/-- A hash of strings. -/
def polynomialHash (l : Bytes) : UInt64 := l.foldl (fun h b => h * 31 + b.toUInt64) 7

/-- A chunk that is longer than twice this base and repeats it twice. -/
def repeatingTwice : Bytes :=
  List.replicate 13 1 ++ (List.replicate 2 repeatedBase).flatten ++ List.replicate 30 3

end ShieldReduce.Edelta
