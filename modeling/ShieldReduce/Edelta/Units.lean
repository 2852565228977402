import ShieldReduce.Lib.CopyInsert

/-!
# Delta units and the decoder

A delta is a sequence of units. A `DeltaUnit1` (8 bytes, flag bit 0)
copies `length` bytes of the base from `nOffset`; a `DeltaUnit2`
(4 bytes, flag bit 1) is followed by `length` literal bytes. Both keep
flag and length in one 32-bit word, the flag in its top bit.

`unitBytes` spells a copy/insert operation as its unit, and
`decodeLoop_units` is the decoder's specification: on the bytes of a
non-empty list of operations it writes the text of that list.
-/

namespace ShieldReduce.Edelta

open ByteLib

/-! ## The flag and length word -/

/-- `set_flag(record, flag)`. -/
def setFlag (w : UInt32) (flag : Bool) : UInt32 :=
  if flag then w ||| 0x80000000 else w &&& 0x7fffffff

/-- `get_flag(record)`: zero, or the top bit. -/
def getFlag (w : UInt32) : UInt32 := w &&& 0x80000000

/-- `set_length(record, length)` keeps the flag bit. -/
def setLength (w : UInt32) (length : Nat) : UInt32 :=
  UInt32.ofNat length ||| (w &&& 0x80000000)

/-- `get_length(record)`. -/
def getLength (w : UInt32) : Nat := (w &&& 0x7fffffff).toNat

structure DeltaUnit1 where
  flagLength : UInt32
  nOffset : UInt32

structure DeltaUnit2 where
  flagLength : UInt32

def DeltaUnit1.toBytes (r : DeltaUnit1) : Bytes := le32 r.flagLength ++ le32 r.nOffset

def DeltaUnit2.toBytes (r : DeltaUnit2) : Bytes := le32 r.flagLength

def sizeofDeltaUnit1 : Nat := 8

def sizeofDeltaUnit2 : Nat := 4

@[simp] theorem DeltaUnit1.length_toBytes (r : DeltaUnit1) : r.toBytes.length = 8 := rfl

@[simp] theorem DeltaUnit2.length_toBytes (r : DeltaUnit2) : r.toBytes.length = 4 := rfl

theorem and_low_ofNat {n : Nat} (h : n < 2 ^ 31) :
    UInt32.ofNat n &&& 0x7fffffff = UInt32.ofNat n := by
  apply UInt32.toNat_inj.mp
  have hm : (0x7fffffff : UInt32).toNat = 2 ^ 31 - 1 := rfl
  rw [UInt32.toNat_and, UInt32.toNat_ofNat', hm, Nat.and_two_pow_sub_one_eq_mod]
  omega

theorem and_top_ofNat {n : Nat} (h : n < 2 ^ 31) : UInt32.ofNat n &&& 0x80000000 = 0 := by
  have hm : (0x7fffffff : UInt32) &&& 0x80000000 = 0 := rfl
  rw [← and_low_ofNat h, UInt32.and_assoc, hm, UInt32.and_zero]

theorem or_top_and_low (w : UInt32) : (w ||| 0x80000000) &&& 0x7fffffff = w &&& 0x7fffffff := by
  apply UInt32.toNat_inj.mp
  have hm : (0x80000000 : UInt32).toNat &&& (0x7fffffff : UInt32).toNat = 0 := rfl
  rw [UInt32.toNat_and, UInt32.toNat_or, UInt32.toNat_and, Nat.and_or_distrib_right, hm,
    Nat.or_zero]

theorem or_top_and_top (w : UInt32) : (w ||| 0x80000000) &&& 0x80000000 = 0x80000000 := by
  apply UInt32.toNat_inj.mp
  rw [UInt32.toNat_and, UInt32.toNat_or]
  apply Nat.eq_of_testBit_eq
  intro i
  simp only [Nat.testBit_and, Nat.testBit_or]
  cases (0x80000000 : UInt32).toNat.testBit i <;> simp

/-- The word of a copy unit of `len` bytes. -/
def copyWord (len : Nat) : UInt32 := UInt32.ofNat len

/-- The word of a literal unit of `len` bytes. -/
def litWord (len : Nat) : UInt32 := UInt32.ofNat len ||| 0x80000000

theorem toNat_ofNat_of_lt {n : Nat} (h : n < 2 ^ 31) : (UInt32.ofNat n).toNat = n := by
  rw [UInt32.toNat_ofNat']
  omega

theorem getFlag_copyWord {len : Nat} (h : len < 2 ^ 31) : getFlag (copyWord len) = 0 :=
  and_top_ofNat h

theorem getFlag_litWord (len : Nat) : getFlag (litWord len) ≠ 0 := by
  rw [getFlag, litWord, or_top_and_top]
  decide

theorem getLength_copyWord {len : Nat} (h : len < 2 ^ 31) : getLength (copyWord len) = len := by
  rw [getLength, copyWord, and_low_ofNat h, toNat_ofNat_of_lt h]

theorem getLength_litWord {len : Nat} (h : len < 2 ^ 31) : getLength (litWord len) = len := by
  rw [getLength, litWord, or_top_and_low, and_low_ofNat h, toNat_ofNat_of_lt h]

theorem setLength_copyWord {m : Nat} (h : m < 2 ^ 31) (len : Nat) :
    setLength (copyWord m) len = copyWord len := by
  rw [setLength, copyWord, and_top_ofNat h, UInt32.or_zero, copyWord]

theorem setLength_litWord (m len : Nat) : setLength (litWord m) len = litWord len := by
  rw [setLength, litWord, or_top_and_top, litWord]

/-- A length that leaves the flag's bit alone is read back. -/
theorem getLength_setLength (w : UInt32) {n : Nat} (h : n < 2 ^ 31) :
    getLength (setLength w n) = n := by
  have hm : (0x80000000 : UInt32).toNat &&& (0x7fffffff : UInt32).toNat = 0 := rfl
  have hlow : setLength w n &&& 0x7fffffff = UInt32.ofNat n := by
    rw [← and_low_ofNat h]
    apply UInt32.toNat_inj.mp
    rw [setLength, UInt32.toNat_and, UInt32.toNat_or, UInt32.toNat_and, Nat.and_or_distrib_right,
      Nat.and_assoc, hm, Nat.and_zero, Nat.or_zero, ← UInt32.toNat_and, and_low_ofNat h]
  rw [getLength, hlow, toNat_ofNat_of_lt h]

/-- And it leaves the flag alone. -/
theorem getFlag_setLength (w : UInt32) {n : Nat} (h : n < 2 ^ 31) :
    getFlag (setLength w n) = getFlag w := by
  have htop := congrArg UInt32.toNat (and_top_ofNat h)
  apply UInt32.toNat_inj.mp
  rw [UInt32.toNat_and] at htop
  rw [getFlag, getFlag, setLength, UInt32.toNat_and, UInt32.toNat_or, Nat.and_or_distrib_right,
    htop, UInt32.toNat_and, Nat.and_assoc, Nat.and_self]
  exact Nat.zero_or _

/-! ## The bytes of an operation -/

def unitBytes : DeltaOp → Bytes
  | .copy off len => DeltaUnit1.toBytes ⟨copyWord len, UInt32.ofNat off⟩
  | .lit bs => DeltaUnit2.toBytes ⟨litWord bs.length⟩ ++ bs

def unitsBytes (ops : List DeltaOp) : Bytes := ops.flatMap unitBytes

@[simp] theorem unitsBytes_nil : unitsBytes [] = [] := rfl

@[simp] theorem unitsBytes_cons (op : DeltaOp) (ops : List DeltaOp) :
    unitsBytes (op :: ops) = unitBytes op ++ unitsBytes ops := rfl

@[simp] theorem unitsBytes_append (xs ys : List DeltaOp) :
    unitsBytes (xs ++ ys) = unitsBytes xs ++ unitsBytes ys := by
  simp [unitsBytes]

/-- The operation's numbers fit the fields of its unit. -/
def Fits : DeltaOp → Prop
  | .copy off len => off < 2 ^ 31 ∧ len < 2 ^ 31
  | .lit bs => bs.length < 2 ^ 31

/-! ## The decoder -/

/-- What `EDeltaDecode` leaves in `outBuf` and in `*outSize`. -/
structure Decoded where
  outBuf : Bytes
  outSize : Nat

/-- The `while (1)` of `EDeltaDecode`. `outBuf` is written front to back,
`dataLength` bytes so far. -/
def decodeLoop (deltaBuf : Mem) (deltaSize : Nat) (baseBuf : Mem) :
    Nat → (readLength : Nat) → Bytes → (dataLength : Nat) → Decoded
  | 0, _, outBuf, dataLength => ⟨outBuf, dataLength⟩
  | fuel + 1, readLength, outBuf, dataLength =>
      let word := ofLe32 (slice deltaBuf readLength 4)
      let (readLength, piece) :=
        if getFlag word = 0 then
          let nOffset := ofLe32 (slice deltaBuf (readLength + 4) 4)
          (readLength + sizeofDeltaUnit1, slice baseBuf nOffset.toNat (getLength word))
        else
          let readLength := readLength + sizeofDeltaUnit2
          (readLength + getLength word, slice deltaBuf readLength (getLength word))
      let outBuf := outBuf ++ piece
      let dataLength := dataLength + getLength word
      if deltaSize ≤ readLength then ⟨outBuf, dataLength⟩
      else decodeLoop deltaBuf deltaSize baseBuf fuel readLength outBuf dataLength

/-- `EDeltaDecode(deltaBuf, deltaSize, baseBuf, baseSize, outBuf, outSize)`; the
base size is not read. Every round reads at least four bytes, so `deltaSize + 1`
rounds are enough. -/
def eDeltaDecode (deltaBuf : Mem) (deltaSize : Nat) (baseBuf : Mem) : Decoded :=
  decodeLoop deltaBuf deltaSize baseBuf (deltaSize + 1) 0 [] 0

/-- `EcallFreqIndex::EDeltaDecode`. -/
def EcallFreqIndex.eDeltaDecode := Edelta.eDeltaDecode

/-- `OFFLineBackward::EDeltaDecode`. -/
def OFFLineBackward.eDeltaDecode := Edelta.eDeltaDecode

/-- `EcallRecvDecoder::EDeltaDecode`. -/
def EcallRecvDecoder.eDeltaDecode := Edelta.eDeltaDecode

/-! ## What the decoder writes -/

theorem slice_prefix {m : Mem} {pos : Nat} {xs ys : Bytes}
    (h : slice m pos (xs ++ ys).length = xs ++ ys) :
    slice m pos xs.length = xs ∧ slice m (pos + xs.length) ys.length = ys := by
  rw [List.length_append, slice_add] at h
  exact List.append_inj h (by simp)

/-- One round of the decoder over the unit of `op`. -/
theorem decodeLoop_unit {deltaBuf baseBuf : Mem} {deltaSize pos : Nat} {op : DeltaOp}
    (hfit : Fits op) (h : slice deltaBuf pos (unitBytes op).length = unitBytes op)
    (fuel : Nat) (out : Bytes) (n : Nat) :
    decodeLoop deltaBuf deltaSize baseBuf (fuel + 1) pos out n =
      if deltaSize ≤ pos + (unitBytes op).length then
        ⟨out ++ op.text baseBuf, n + (op.text baseBuf).length⟩
      else decodeLoop deltaBuf deltaSize baseBuf fuel (pos + (unitBytes op).length)
        (out ++ op.text baseBuf) (n + (op.text baseBuf).length) := by
  cases op with
  | copy off len =>
      obtain ⟨hoff, hlen⟩ := hfit
      simp only [unitBytes, DeltaUnit1.toBytes] at h ⊢
      obtain ⟨hw, ho⟩ := slice_prefix h
      rw [length_le32] at hw ho
      rw [length_le32] at ho
      have hword : ofLe32 (slice deltaBuf pos 4) = copyWord len := by
        rw [hw]; exact ofLe32_le32 _ []
      have hnoff : ofLe32 (slice deltaBuf (pos + 4) 4) = UInt32.ofNat off := by
        rw [ho]; exact ofLe32_le32 _ []
      simp only [decodeLoop, hword, hnoff, getFlag_copyWord hlen, getLength_copyWord hlen,
        toNat_ofNat_of_lt hoff, sizeofDeltaUnit1, if_true, DeltaOp.text, length_slice,
        List.length_append, length_le32]
  | lit bs =>
      have hlen : bs.length < 2 ^ 31 := hfit
      simp only [unitBytes, DeltaUnit2.toBytes] at h ⊢
      obtain ⟨hw, hb⟩ := slice_prefix h
      rw [length_le32] at hw hb
      have hword : ofLe32 (slice deltaBuf pos 4) = litWord bs.length := by
        rw [hw]; exact ofLe32_le32 _ []
      simp only [decodeLoop, hword, if_neg (getFlag_litWord _), getLength_litWord hlen,
        sizeofDeltaUnit2, hb, DeltaOp.text, List.length_append, length_le32, Nat.add_assoc]

theorem length_unitBytes_pos (op : DeltaOp) : 0 < (unitBytes op).length := by
  cases op with
  | copy off len => simp [unitBytes]
  | lit bs =>
      simp only [unitBytes, List.length_append, DeltaUnit2.length_toBytes]
      omega

/-- The decoder's loop over the units of a non-empty list of operations:
the rounds are the operations, and the last one ends at `deltaSize`. -/
theorem decodeLoop_units {deltaBuf baseBuf : Mem} {deltaSize : Nat} :
    ∀ (ops : List DeltaOp) {fuel pos : Nat} {out : Bytes} {n : Nat},
      ops ≠ [] → (∀ op ∈ ops, Fits op) →
      slice deltaBuf pos (unitsBytes ops).length = unitsBytes ops →
      pos + (unitsBytes ops).length = deltaSize → ops.length ≤ fuel →
      decodeLoop deltaBuf deltaSize baseBuf fuel pos out n =
        ⟨out ++ applyOps baseBuf ops, n + (applyOps baseBuf ops).length⟩
  | [], _, _, _, _, hne, _, _, _, _ => absurd rfl hne
  | op :: ops, fuel, pos, out, n, _, hfit, h, hend, hfuel => by
      obtain ⟨fuel, rfl⟩ : ∃ k, fuel = k + 1 := ⟨fuel - 1, by simp at hfuel; omega⟩
      rw [unitsBytes_cons] at h hend
      obtain ⟨hop, hrest⟩ := slice_prefix h
      rw [List.length_append] at hend
      rw [decodeLoop_unit (hfit op (by simp)) hop]
      by_cases hnil : ops = []
      · subst hnil
        rw [if_pos (by simp at hend; omega)]
        simp
      · obtain ⟨op', ops', rfl⟩ := List.exists_cons_of_ne_nil hnil
        have hpos : 0 < (unitsBytes (op' :: ops')).length := by
          have := length_unitBytes_pos op'
          simp
          omega
        rw [if_neg (by omega), decodeLoop_units (op' :: ops') hnil
          (fun o ho => hfit o (by simp [ho])) hrest (by omega) (by simpa using hfuel)]
        simp [Nat.add_assoc]

theorem length_le_unitsBytes : ∀ ops : List DeltaOp, ops.length ≤ (unitsBytes ops).length
  | [] => by simp
  | op :: ops => by
      have h := length_le_unitsBytes ops
      have hop := length_unitBytes_pos op
      simp
      omega

/-- `EDeltaDecode` on the units of a non-empty list of operations. -/
theorem eDeltaDecode_units {ops : List DeltaOp} {deltaBuf baseBuf : Mem} (hne : ops ≠ [])
    (hfit : ∀ op ∈ ops, Fits op)
    (h : slice deltaBuf 0 (unitsBytes ops).length = unitsBytes ops) :
    eDeltaDecode deltaBuf (unitsBytes ops).length baseBuf =
      ⟨applyOps baseBuf ops, (applyOps baseBuf ops).length⟩ := by
  have hlen := length_le_unitsBytes ops
  rw [eDeltaDecode, decodeLoop_units ops hne hfit h (Nat.zero_add _) (by omega)]
  simp

end ShieldReduce.Edelta
