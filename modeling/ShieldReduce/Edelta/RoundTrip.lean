import ShieldReduce.Edelta.Encode

/-!
# Decoding undoes encoding

The invariant of the encoder ties the output buffer to the input
position. `Spells f out pos` says that the bytes `out` are whole units
whose text over the base is the first `pos` bytes of the new chunk. The
encoder is always in one of two states: the output is `Closed`, so it
spells everything up to the input position; or a literal of `L` bytes is
`Open`: the output is closed up to the literal's start, four bytes of
header follow that may be out of date, and then the literal's bytes.

A string that is not found opens a literal or extends it, a match closes
the literal after giving back the bytes that the backward extension
reaches, and at the end the header is patched. Every iteration moves the
input position forward, so the main loop ends at `newEnd`.
-/

namespace ShieldReduce.Edelta

open ByteLib LoopLib

/-! ## Units that spell a prefix -/

/-- How many units copy something, but no more than `STRMIN` bytes. -/
def shortCopies : List DeltaOp → Nat
  | [] => 0
  | .copy _ len :: ops => (if 0 < len ∧ len ≤ STRMIN then 1 else 0) + shortCopies ops
  | .lit _ :: ops => shortCopies ops

theorem shortCopies_append (ops ops' : List DeltaOp) :
    shortCopies (ops ++ ops') = shortCopies ops + shortCopies ops' := by
  induction ops with
  | nil => exact (Nat.zero_add _).symm
  | cons op ops ih => cases op <;> simp only [List.cons_append, shortCopies, ih, Nat.add_assoc]

/-- `out` consists of units that stay inside the base and spell the first
`pos` bytes of the new chunk. Only the last string before the tail may be
copied by a short unit. -/
def Spells (f : Job) (out : Bytes) (pos : Nat) : Prop :=
  ∃ ops : List DeltaOp, (∀ op ∈ ops, Fits op ∧ op.Within f.baseSize) ∧
    (shortCopies ops = 0 ∨ f.newEnd ≤ pos ∧ shortCopies ops ≤ 1) ∧
    out = unitsBytes ops ∧ applyOps f.baseBuf ops = slice f.newBuf 0 pos

theorem Spells.nil (f : Job) : Spells f [] 0 := ⟨[], by simp, Or.inl rfl, rfl, rfl⟩

theorem Spells.snoc {f : Job} {out : Bytes} {pos pos' : Nat} (h : Spells f out pos)
    (op : DeltaOp) (hop : Fits op ∧ op.Within f.baseSize) (hle : pos ≤ pos')
    (hlast : shortCopies [op] = 0 ∨ pos < f.newEnd ∧ f.newEnd ≤ pos' ∧ shortCopies [op] ≤ 1)
    (happ : ∀ ops, applyOps f.baseBuf ops = slice f.newBuf 0 pos →
      applyOps f.baseBuf (ops ++ [op]) = slice f.newBuf 0 pos') :
    Spells f (out ++ unitBytes op) pos' := by
  obtain ⟨ops, hgood, hshort, rfl, htext⟩ := h
  refine ⟨ops ++ [op], ?_, ?_, by simp, happ ops htext⟩
  · intro o ho
    rcases List.mem_append.mp ho with ho' | ho'
    · exact hgood o ho'
    · rw [List.mem_singleton.mp ho']
      exact hop
  · rw [shortCopies_append]
    omega

theorem Spells.copy {f : Job} {out : Bytes} {pos off len : Nat} (h : Spells f out pos)
    (hfit : off < 2 ^ 31 ∧ len < 2 ^ 31) (hin : off + len ≤ f.baseSize)
    (hlast : len ≤ STRMIN → pos + len = f.newEnd)
    (hc : slice f.baseBuf off len = slice f.newBuf pos len) :
    Spells f (out ++ DeltaUnit1.toBytes ⟨copyWord len, UInt32.ofNat off⟩) (pos + len) := by
  refine h.snoc (.copy off len) ⟨hfit, hin⟩ (Nat.le_add_right _ _) ?_ fun _ ht =>
    applyOps_snoc_copy ht hc
  simp only [shortCopies, Nat.add_zero]
  split <;> omega

theorem Spells.lit {f : Job} {out : Bytes} {pos len : Nat} (h : Spells f out pos)
    (hfit : len < 2 ^ 31) :
    Spells f (out ++ (DeltaUnit2.toBytes ⟨litWord len⟩ ++ slice f.newBuf pos len))
      (pos + len) := by
  have hs := h.snoc (.lit (slice f.newBuf pos len)) ⟨by simpa [Fits] using hfit, trivial⟩
    (Nat.le_add_right _ _) (Or.inl rfl) fun _ ht => applyOps_snoc_lit ht len
  simpa [unitBytes] using hs

/-! ## The common runs -/

theorem commonRun_inv {P : Nat → Prop} {fuel : Nat} {inside : Nat → Bool}
    {same : Nat → Nat → Bool} (h0 : P 0)
    (h8 : ∀ j, P j → inside (j + 7) = true → same j 8 = true → P (j + 8))
    (h1 : ∀ j, P j → inside j = true → same j 1 = true → P (j + 1)) :
    P (commonRun fuel inside same) := by
  rw [commonRun]
  refine whileLoop_inv (fun j hj hc => ?_) _ _ (whileLoop_inv (fun j hj hc => ?_) _ _ h0)
  · obtain ⟨hi, hs⟩ := Bool.and_eq_true_iff.mp hc
    exact h1 j hj hi hs
  · obtain ⟨hi, hs⟩ := Bool.and_eq_true_iff.mp hc
    exact h8 j hj hi hs

/-- A run read forwards from `bpos` and `npos` is a common substring that
stays below both limits. -/
theorem commonRun_forward (base new : Mem) (fuel bpos npos blim nlim : Nat) :
    let j := commonRun fuel (fun j => bpos + j < blim && npos + j < nlim)
      (fun j w => slice base (bpos + j) w == slice new (npos + j) w)
    slice base bpos j = slice new npos j ∧ (j = 0 ∨ (bpos + j ≤ blim ∧ npos + j ≤ nlim)) := by
  refine commonRun_inv
    (P := fun j => slice base bpos j = slice new npos j ∧
      (j = 0 ∨ (bpos + j ≤ blim ∧ npos + j ≤ nlim))) ⟨rfl, Or.inl rfl⟩ ?_ ?_ <;>
  · intro j ⟨hj, _⟩ hin hs
    simp only [Bool.and_eq_true, decide_eq_true_eq] at hin
    exact ⟨slice_eq_add hj (by simpa using hs), Or.inr (by omega)⟩

theorem Job.headRun_spec (f : Job) :
    slice f.baseBuf 0 f.headRun = slice f.newBuf 0 f.headRun ∧
      f.headRun ≤ f.baseSize ∧ f.headRun ≤ f.newSize := by
  have h := commonRun_forward f.baseBuf f.newBuf f.newSize 0 0 f.baseSize f.newSize
  simp only [Nat.zero_add] at h
  obtain ⟨hs, hle⟩ := h
  exact ⟨hs, by rw [Job.headRun]; omega, by rw [Job.headRun]; omega⟩

theorem Job.tailRun_spec (f : Job) :
    f.tailRun ≤ f.baseSize ∧ f.tailRun ≤ f.newSize ∧
      slice f.baseBuf (f.baseSize - f.tailRun) f.tailRun =
        slice f.newBuf (f.newSize - f.tailRun) f.tailRun := by
  have hstep : ∀ j w, j + w ≤ f.baseSize → j + w ≤ f.newSize →
      slice f.baseBuf (f.baseSize - j) j = slice f.newBuf (f.newSize - j) j →
      slice f.baseBuf (f.baseSize - j - w) w = slice f.newBuf (f.newSize - j - w) w →
      slice f.baseBuf (f.baseSize - (j + w)) (j + w) =
        slice f.newBuf (f.newSize - (j + w)) (j + w) := by
    intro j w hb hn hj hw
    rw [Nat.sub_add_eq, Nat.sub_add_eq, Nat.add_comm j w]
    refine slice_eq_add hw ?_
    rwa [Nat.sub_add_cancel (by omega), Nat.sub_add_cancel (by omega)]
  refine commonRun_inv
    (P := fun j => j ≤ f.baseSize ∧ j ≤ f.newSize ∧
      slice f.baseBuf (f.baseSize - j) j = slice f.newBuf (f.newSize - j) j)
    ⟨by omega, by omega, rfl⟩ ?_ ?_ <;>
  · intro j ⟨_, _, hj⟩ hin hs
    simp only [Bool.and_eq_true, decide_eq_true_eq] at hin
    exact ⟨by omega, by omega, hstep j _ (by omega) (by omega) hj (by simpa using hs)⟩

/-- What trimming leaves: a common head and a common tail that do not
overlap in the new chunk. -/
structure Job.Trimmed (f : Job) : Prop where
  head : slice f.baseBuf 0 f.begSize = slice f.newBuf 0 f.begSize
  head_le : f.begSize ≤ f.baseSize
  tail : slice f.baseBuf (f.baseSize - f.endSize) f.endSize =
    slice f.newBuf (f.newSize - f.endSize) f.endSize
  tail_le : f.endSize ≤ f.baseSize
  disjoint : f.begSize + f.endSize ≤ f.newSize

theorem Job.begSize_spec (f : Job) :
    slice f.baseBuf 0 f.begSize = slice f.newBuf 0 f.begSize ∧
      f.begSize ≤ f.baseSize ∧ f.begSize ≤ f.newSize := by
  rw [Job.begSize]
  split
  · exact f.headRun_spec
  · exact ⟨rfl, by omega, by omega⟩

/-- A common tail can be cut down from its front. -/
theorem tail_shorten {base new : Mem} {bsize nsize e e' : Nat} (hle : e' ≤ e)
    (hb : e ≤ bsize) (hn : e ≤ nsize)
    (h : slice base (bsize - e) e = slice new (nsize - e) e) :
    slice base (bsize - e') e' = slice new (nsize - e') e' := by
  refine slice_eq_iff.mpr fun i hi => ?_
  have := slice_eq_iff.mp h (e - e' + i) (by omega)
  rwa [show bsize - e + (e - e' + i) = bsize - e' + i by omega,
    show nsize - e + (e - e' + i) = nsize - e' + i by omega] at this

theorem Job.begSize_large (f : Job) : f.begSize = 0 ∨ 16 < f.begSize := by
  rw [Job.begSize]
  split <;> omega

theorem Job.endSize_large (f : Job) : f.endSize = 0 ∨ 16 < f.endSize := by
  simp only [Job.endSize]
  split_ifs <;> omega

theorem Job.trimmed_spec (f : Job) : f.Trimmed := by
  obtain ⟨hhead, hbb, hbn⟩ := f.begSize_spec
  obtain ⟨htb, htn, htail⟩ := f.tailRun_spec
  have hend : f.endSize ≤ f.tailRun ∧ f.begSize + f.endSize ≤ f.newSize := by
    simp only [Job.endSize]
    split_ifs <;> omega
  exact ⟨hhead, hbb, tail_shorten hend.1 htb htn htail, by omega, hend.2⟩

/-! ## The two states of the output -/

/-- Sizes that fit the length field of a unit. -/
def Job.Small (f : Job) : Prop := f.newSize < 2 ^ 31 ∧ f.baseSize < 2 ^ 31

namespace Enc

/-- `record1` carries flag 0 and `record2` flag 1, whatever their lengths. -/
def Words (s : Enc) : Prop :=
  (∃ m, m < 2 ^ 31 ∧ s.record1.flagLength = copyWord m) ∧
    ∃ m, s.record2.flagLength = litWord m

/-- The output spells the first `pos` bytes of the new chunk. -/
structure Closed (f : Job) (s : Enc) (pos : Nat) : Prop where
  len : s.deltaLen ≤ s.deltaBuf.length
  words : s.Words
  spells : Spells f s.output pos

/-- The output ends in a literal of the `L` bytes before `pos`; the header
in front of it may be out of date. -/
structure Open (f : Job) (s : Enc) (pos L : Nat) : Prop where
  len : s.deltaLen ≤ s.deltaBuf.length
  words : s.Words
  length2 : s.record2.flagLength = litWord L
  le_pos : L ≤ pos
  spells : ∃ u hdr, Spells f u (pos - L) ∧ hdr.length = 4 ∧
    s.output = u ++ (hdr ++ slice f.newBuf (pos - L) L)

/-- The invariant of the main loop on the output. -/
def Written (f : Job) (s : Enc) : Prop :=
  (s.flag ≠ .unit2 ∧ s.Closed f s.inputPos) ∨
    (s.flag = .unit2 ∧ ∃ L, s.Open f s.inputPos L)

theorem length_output {s : Enc} (h : s.deltaLen ≤ s.deltaBuf.length) :
    s.output.length = s.deltaLen := by
  simp [output, h]

theorem output_put {s : Enc} (h : s.deltaLen ≤ s.deltaBuf.length) (xs : Bytes) :
    (s.put xs).output = s.output ++ xs :=
  take_writeAt xs h

theorem len_put {s : Enc} (h : s.deltaLen ≤ s.deltaBuf.length) (xs : Bytes) :
    (s.put xs).deltaLen ≤ (s.put xs).deltaBuf.length := by
  simp only [put, length_writeAt xs h]
  omega

theorem Words.setLength2 {s : Enc} (h : s.Words) (len : Nat) : (s.setLength2 len).Words := by
  obtain ⟨h1, m, hm⟩ := h
  exact ⟨h1, len, by rw [Enc.setLength2, hm, setLength_litWord]⟩

theorem Words.setLength1 {s : Enc} (h : s.Words) {len : Nat} (hlen : len < 2 ^ 31) :
    (s.setLength1 len).Words := by
  obtain ⟨⟨m, hm, heq⟩, h2⟩ := h
  exact ⟨⟨len, hlen, by rw [Enc.setLength1, heq, setLength_copyWord hm]⟩, h2⟩

/-! ## Literals -/

/-- A string opens a literal in a closed state. -/
theorem Closed.unmatched {f : Job} {s : Enc} (hflag : s.flag ≠ .unit2)
    (h : s.Closed f s.inputPos) (len : Nat) :
    (s.unmatched f len).flag = .unit2 ∧
      (s.unmatched f len).Open f (s.inputPos + len) len := by
  have hput := len_put (s := s.setLength2 len) h.len (s.setLength2 len).record2.toBytes
  obtain ⟨_, m, hm⟩ := h.words
  simp only [Enc.unmatched, if_neg hflag, true_and]
  refine ⟨len_put hput _, h.words.setLength2 len, ?_, by omega, ?_⟩
  · simp only [put, setLength2, hm, setLength_litWord]
  · refine ⟨s.output, (s.setLength2 len).record2.toBytes, ?_, rfl, ?_⟩
    · rw [Nat.add_sub_cancel]
      exact h.spells
    · rw [Nat.add_sub_cancel, ← List.append_assoc]
      have h1 := output_put (s := s.setLength2 len) h.len (s.setLength2 len).record2.toBytes
      have h2 := output_put hput (slice f.newBuf s.inputPos len)
      rw [h1] at h2
      exact h2

/-- A string extends the literal of an open state. -/
theorem Open.unmatched {f : Job} {s : Enc} {L : Nat} (hflag : s.flag = .unit2)
    (h : s.Open f s.inputPos L) (hL : L < 2 ^ 31) (len : Nat) :
    (s.unmatched f len).flag = .unit2 ∧
      (s.unmatched f len).Open f (s.inputPos + len) (L + len) := by
  have hput := len_put h.len (slice f.newBuf s.inputPos len)
  obtain ⟨u, hdr, hsp, hhdr, hout⟩ := h.spells
  have hpos : s.inputPos + len - (L + len) = s.inputPos - L := by omega
  have hle := h.le_pos
  simp only [Enc.unmatched, if_pos hflag]
  refine ⟨hflag, hput, Words.setLength2 (s := s.put _) h.words _, ?_, by omega, u, hdr, ?_, hhdr, ?_⟩
  · simp only [put, setLength2, h.length2, setLength_litWord, getLength_litWord hL]
  · rw [hpos]
    exact hsp
  · have h1 := output_put h.len (slice f.newBuf s.inputPos len)
    rw [hpos, slice_add, Nat.sub_add_cancel h.le_pos]
    rw [hout, List.append_assoc, List.append_assoc] at h1
    exact h1

theorem Written.unmatched {f : Job} {s : Enc} (h : s.Written f) {len : Nat}
    (hpos : s.inputPos < 2 ^ 31) : (s.unmatched f len).Written f := by
  rcases h with ⟨hflag, hc⟩ | ⟨hflag, L, ho⟩
  · obtain ⟨hf, ho⟩ := hc.unmatched hflag len
    exact Or.inr ⟨hf, len, ho⟩
  · have hle := ho.le_pos
    obtain ⟨hf, ho'⟩ := ho.unmatched hflag (by omega) len
    exact Or.inr ⟨hf, L + len, ho'⟩

/-! ## Closing a literal -/

theorem Open.header_pos {f : Job} {s : Enc} {pos L : Nat} (h : s.Open f pos L)
    (hL : L < 2 ^ 31) {u hdr : Bytes} (hhdr : hdr.length = 4)
    (hout : s.output = u ++ (hdr ++ slice f.newBuf (pos - L) L)) :
    s.deltaLen - getLength s.record2.flagLength - sizeofDeltaUnit2 = u.length := by
  have hlen := congrArg List.length hout
  rw [length_output h.len] at hlen
  simp only [List.length_append, length_slice] at hlen
  rw [h.length2, getLength_litWord hL, sizeofDeltaUnit2]
  omega

/-- A literal whose header is rewritten for its first `n` bytes ends there. -/
theorem Open.rewrite {f : Job} {s : Enc} {pos L n : Nat} (h : s.Open f pos L) (hL : L < 2 ^ 31)
    (hn : n ≤ L) :
    let start := s.deltaLen - getLength s.record2.flagLength - sizeofDeltaUnit2
    let buf := writeAt s.deltaBuf start (DeltaUnit2.toBytes ⟨litWord n⟩)
    start + 4 + n ≤ buf.length ∧ Spells f (buf.take (start + 4 + n)) (pos - (L - n)) := by
  obtain ⟨u, hdr, hsp, hhdr, hout⟩ := h.spells
  simp only [h.header_pos hL hhdr hout]
  have hrw := rewrite_header h.len hout (DeltaUnit2.toBytes ⟨litWord n⟩) (by rw [hhdr]; rfl)
    (show n ≤ (slice f.newBuf (pos - L) L).length by rw [length_slice]; exact hn)
  rw [hhdr] at hrw
  have htake : (slice f.newBuf (pos - L) L).take n = slice f.newBuf (pos - L) n := by
    obtain ⟨m, rfl⟩ := Nat.exists_eq_add_of_le hn
    rw [slice_add, List.take_append_of_le_length (by simp), List.take_of_length_le (by simp)]
  rw [htake] at hrw
  have hle := h.le_pos
  refine ⟨hrw.2, ?_⟩
  rw [hrw.1, show pos - (L - n) = pos - L + n by omega]
  exact hsp.lit (by omega)

theorem Open.patchHeader {f : Job} {s : Enc} {pos L : Nat} (h : s.Open f pos L)
    (hL : L < 2 ^ 31) : s.patchHeader.Closed f pos ∧ s.patchHeader.Open f pos L := by
  obtain ⟨u, hdr, hsp, hhdr, hout⟩ := h.spells
  have hend : s.deltaLen = u.length + 4 + L := by
    have hlen := congrArg List.length hout
    rw [length_output h.len] at hlen
    simp only [List.length_append, length_slice] at hlen
    omega
  have hpatch : s.patchHeader =
      { s with deltaBuf := writeAt s.deltaBuf u.length (DeltaUnit2.toBytes ⟨litWord L⟩) } := by
    rw [Enc.patchHeader, h.header_pos hL hhdr hout, ← h.length2]
  have hrw := rewrite_header h.len hout (DeltaUnit2.toBytes ⟨litWord L⟩) (by rw [hhdr]; rfl)
    (le_refl _)
  rw [hhdr, length_slice, ← hend] at hrw
  have htake : (slice f.newBuf (pos - L) L).take L = slice f.newBuf (pos - L) L :=
    List.take_of_length_le (by simp)
  rw [htake] at hrw
  have hspells := h.rewrite hL (le_refl L)
  rw [h.header_pos hL hhdr hout, Nat.sub_self, Nat.sub_zero] at hspells
  rw [hpatch]
  refine ⟨⟨hrw.2, h.words, ?_⟩, hrw.2, h.words, h.length2, h.le_pos, u, _, hsp, ?_, hrw.1⟩
  · rw [output, hend]
    exact hspells.2
  · rfl

@[simp] theorem shrinkLiteral_record1 (s : Enc) (k : Nat) :
    (s.shrinkLiteral k).record1 = s.record1 := by
  rw [shrinkLiteral]
  split <;> rfl

theorem Open.shrinkLiteral {f : Job} {s : Enc} {pos L k : Nat} (h : s.Open f pos L)
    (hL : L < 2 ^ 31) (hkL : k ≤ L) : (s.shrinkLiteral k).Closed f (pos - k) := by
  have hword : setLength s.record2.flagLength (getLength s.record2.flagLength - k)
      = litWord (L - k) := by
    rw [h.length2, setLength_litWord, getLength_litWord hL]
  have hlen2 : getLength (litWord (L - k)) = L - k := getLength_litWord (by omega)
  have hwords := h.words.setLength2 (getLength s.record2.flagLength - k)
  have hrw := h.rewrite hL (Nat.sub_le L k)
  rw [show L - (L - k) = k by omega] at hrw
  by_cases hrest : 0 < L - k
  · -- the literal keeps its first `L - k` bytes under a new header
    simp only [Enc.shrinkLiteral, setLength2, hword, hlen2, if_pos hrest, put]
    simp only [setLength2, hword] at hwords
    exact ⟨hrw.1, hwords, hrw.2⟩
  · -- the literal is taken whole, and its header goes with it
    obtain ⟨u, hdr, hsp, hhdr, hout⟩ := h.spells
    have hstart := h.header_pos hL hhdr hout
    have hlen := congrArg List.length hout
    rw [length_output h.len] at hlen
    simp only [List.length_append, length_slice] at hlen
    have hle := h.len
    simp only [Enc.shrinkLiteral, setLength2, hword, hlen2, if_neg hrest, hstart]
    simp only [setLength2, hword] at hwords
    refine ⟨show u.length ≤ s.deltaBuf.length by omega, hwords, ?_⟩
    have htake : s.deltaBuf.take u.length = u := by
      have := congrArg (List.take u.length) hout
      rwa [output, List.take_take, Nat.min_eq_left (by omega), List.take_left] at this
    rw [output, htake, show k = L by omega]
    exact hsp

/-- What is given back grows the copy unit at its front. -/
theorem Open.giveBack {f : Job} {s : Enc} {pos L k m off : Nat} (h : s.Open f pos L)
    (hL : L < 2 ^ 31) (hk : 0 < k) (hkL : k ≤ L) (hm : m + k < 2 ^ 31) (hoff : off < 2 ^ 31)
    (hrec : s.record1 = ⟨copyWord m, UInt32.ofNat off⟩) :
    (s.giveBack k).Closed f (pos - k) ∧
      (s.giveBack k).record1 = ⟨copyWord (m + k), UInt32.ofNat (off - k)⟩ := by
  have hmlt : m < 2 ^ 31 := by omega
  have hc := h.shrinkLiteral hL hkL
  have hrec' : (s.giveBack k).record1 = ⟨copyWord (m + k), UInt32.ofNat (off - k)⟩ := by
    simp only [Enc.giveBack, if_pos hk, setOffset1, setLength1, shrinkLiteral_record1, hrec,
      getLength_copyWord hmlt, setLength_copyWord hmlt, toNat_ofNat_of_lt hoff]
  refine ⟨?_, hrec'⟩
  simp only [Enc.giveBack, if_pos hk] at hrec' ⊢
  exact ⟨hc.len, ⟨⟨m + k, hm, by rw [hrec']⟩, hc.words.2⟩, hc.spells⟩

/-- Writing the copy unit in a closed state. -/
theorem Closed.putCopy {f : Job} {s : Enc} {pos off len : Nat} (h : s.Closed f pos)
    (hrec : s.record1 = ⟨copyWord len, UInt32.ofNat off⟩) (hfit : off < 2 ^ 31 ∧ len < 2 ^ 31)
    (hin : off + len ≤ f.baseSize) (hlast : len ≤ STRMIN → pos + len = f.newEnd)
    (hc : slice f.baseBuf off len = slice f.newBuf pos len) :
    (s.put s.record1.toBytes).Closed f (pos + len) := by
  refine ⟨len_put h.len _, h.words, ?_⟩
  rw [output_put h.len, hrec]
  exact h.spells.copy hfit hin hlast hc

/-! ## A match, extended both ways -/

theorem backward_spec (f : Job) (bpos : Nat) {npos limit : Nat} (hl : limit ≤ npos) :
    backward f bpos npos limit ≤ bpos ∧ backward f bpos npos limit ≤ limit ∧
      slice f.baseBuf (bpos - backward f bpos npos limit) (backward f bpos npos limit) =
        slice f.newBuf (npos - backward f bpos npos limit) (backward f bpos npos limit) := by
  refine whileLoop_inv
    (I := fun k => k ≤ bpos ∧ k ≤ limit ∧
      slice f.baseBuf (bpos - k) k = slice f.newBuf (npos - k) k) ?_ _ _ ⟨by omega, by omega, rfl⟩
  intro k ⟨_, _, hk⟩ hc
  simp only [Bool.and_eq_true, decide_eq_true_eq, beq_iff_eq] at hc
  obtain ⟨⟨hb, hlim⟩, hbyte⟩ := hc
  refine ⟨hb, hlim, ?_⟩
  rw [Nat.add_comm k 1] at hbyte ⊢
  refine slice_eq_add (slice_eq_succ rfl hbyte) ?_
  rwa [show bpos - (1 + k) + 1 = bpos - k by omega, show npos - (1 + k) + 1 = npos - k by omega]

theorem forward_spec (f : Job) (bpos npos : Nat) :
    slice f.baseBuf bpos (forward f bpos npos) = slice f.newBuf npos (forward f bpos npos) ∧
      (forward f bpos npos = 0 ∨
        (bpos + forward f bpos npos ≤ f.baseEnd ∧ npos + forward f bpos npos ≤ f.newEnd)) :=
  commonRun_forward f.baseBuf f.newBuf f.newSize bpos npos f.baseEnd f.newEnd

/-- The copy that a match writes, given how far it was extended: `j` bytes
forwards and `k` bytes backwards, these from the open literal. -/
theorem Closed.giveBack_putCopy {f : Job} {s : Enc} {pos off m k : Nat} (hs : f.Small)
    (hrec : s.record1 = ⟨copyWord m, UInt32.ofNat off⟩)
    (hstate : (k = 0 ∧ s.Closed f pos) ∨ (0 < k ∧ ∃ L, L < 2 ^ 31 ∧ k ≤ L ∧ s.Open f pos L))
    (hoff : off + m ≤ f.baseSize) (hpos : pos + m ≤ f.newSize) (hkoff : k ≤ off) (hkpos : k ≤ pos)
    (hlast : m ≤ STRMIN → pos + m = f.newEnd)
    (hback : slice f.baseBuf (off - k) k = slice f.newBuf (pos - k) k)
    (hfwd : slice f.baseBuf off m = slice f.newBuf pos m) :
    ((s.giveBack k).put (s.giveBack k).record1.toBytes).Closed f (pos + m) := by
  obtain ⟨hn, hb⟩ := hs
  have hclosed : (s.giveBack k).Closed f (pos - k) ∧
      (s.giveBack k).record1 = ⟨copyWord (k + m), UInt32.ofNat (off - k)⟩ := by
    rcases hstate with ⟨rfl, hc⟩ | ⟨hk, L, hL, hkL, ho⟩
    · simpa [Enc.giveBack] using ⟨hc, hrec⟩
    · rw [Nat.add_comm k m]
      exact ho.giveBack hL hk hkL (by omega) (by omega) hrec
  have hcopy := hclosed.1.putCopy hclosed.2 ⟨by omega, by omega⟩ (by omega) (by omega)
    (slice_eq_add hback (by rwa [Nat.sub_add_cancel hkoff, Nat.sub_add_cancel hkpos]))
  rwa [show pos - k + (k + m) = pos + m by omega] at hcopy

theorem newEnd_le (f : Job) : f.newEnd ≤ f.newSize := Nat.sub_le _ _

theorem baseEnd_le (f : Job) : f.baseEnd ≤ f.baseSize := Nat.sub_le _ _

/-- A closed state is one by its buffer and its two records. -/
theorem Closed.congr {f : Job} {s s' : Enc} {pos : Nat} (h : s.Closed f pos)
    (hbuf : s'.deltaBuf = s.deltaBuf) (hlen : s'.deltaLen = s.deltaLen)
    (h1 : s'.record1 = s.record1) (h2 : s'.record2 = s.record2) : s'.Closed f pos := by
  obtain ⟨hl, hw, hsp⟩ := h
  refine ⟨by rw [hbuf, hlen]; exact hl, ?_, ?_⟩
  · rw [Words, h1, h2]
    exact hw
  · rw [output, hbuf, hlen]
    exact hsp

@[simp] theorem patchHeader_inputPos (s : Enc) : s.patchHeader.inputPos = s.inputPos := rfl

@[simp] theorem patchHeader_record2 (s : Enc) : s.patchHeader.record2 = s.record2 := rfl

@[simp] theorem setLength1_inputPos (s : Enc) (n : Nat) : (s.setLength1 n).inputPos = s.inputPos :=
  rfl

@[simp] theorem setLength1_record2 (s : Enc) (n : Nat) : (s.setLength1 n).record2 = s.record2 :=
  rfl

@[simp] theorem setOffset1_inputPos (s : Enc) (n : Nat) : (s.setOffset1 n).inputPos = s.inputPos :=
  rfl

@[simp] theorem setOffset1_record2 (s : Enc) (n : Nat) : (s.setOffset1 n).record2 = s.record2 :=
  rfl

/-- A match closes the output at the end of its forward extension. -/
theorem Written.matchedCopy {f : Job} {s : Enc} {length : Nat} {r : DeltaRecord} (hs : f.Small)
    (hw : s.Written f) (hin : r.nOffset + length ≤ f.baseEnd)
    (hpos : s.inputPos + length ≤ f.newEnd)
    (hlast : length ≤ STRMIN → s.inputPos + length = f.newEnd)
    (heq : slice f.newBuf s.inputPos length = slice f.baseBuf r.nOffset length) :
    (s.matchedCopy f length r).Closed f
      (s.inputPos + (length + forward f (r.nOffset + length) (s.inputPos + length))) := by
  have hn := newEnd_le f
  have hb := baseEnd_le f
  have hsmall := hs
  obtain ⟨hsn, hsb⟩ := hs
  obtain ⟨hfwd, hj⟩ := forward_spec f (r.nOffset + length) (s.inputPos + length)
  have hcommon := slice_eq_add heq.symm hfwd
  have hlen : ∀ j, s.inputPos + length + j - s.inputPos = length + j := fun j => by omega
  rcases hw with ⟨hflag, hc⟩ | ⟨hflag, L, ho⟩
  · obtain ⟨⟨m, hm, hrec⟩, _⟩ := hc.words
    simp only [Enc.matchedCopy, hflag, if_false, hlen]
    generalize forward f (r.nOffset + length) (s.inputPos + length) = j at *
    have hc' : ((s.setLength1 (length + j)).setOffset1 r.nOffset).Closed f s.inputPos :=
      ⟨hc.len, hc.words.setLength1 (by omega), hc.spells⟩
    have h := Closed.giveBack_putCopy (k := 0) hsmall
      (by rw [setOffset1, setLength1, hrec, setLength_copyWord hm]) (Or.inl ⟨rfl, hc'⟩)
      (by omega) (by omega) (by omega) (by omega) (by omega) rfl hcommon
    exact h.congr rfl rfl rfl rfl
  · have hle := ho.le_pos
    obtain ⟨hc, ho'⟩ := ho.patchHeader (by omega)
    obtain ⟨⟨m, hm, hrec⟩, _⟩ := hc.words
    obtain ⟨hk1, hk2, hback⟩ := backward_spec f r.nOffset hle
    have hL : getLength s.record2.flagLength = L := by
      rw [ho.length2, getLength_litWord (by omega)]
    simp only [Enc.matchedCopy, hflag, if_true, patchHeader_inputPos, patchHeader_record2,
      setLength1_inputPos, setLength1_record2, setOffset1_inputPos, setOffset1_record2, hlen, hL]
    generalize forward f (r.nOffset + length) (s.inputPos + length) = j at *
    generalize backward f r.nOffset s.inputPos L = k at *
    have hwords := hc.words.setLength1 (show length + j < 2 ^ 31 by omega)
    have hshort : length + j ≤ STRMIN → s.inputPos + (length + j) = f.newEnd := fun hle => by
      have hend := hlast ((Nat.le_add_right _ _).trans hle)
      omega
    have hstate : (k = 0 ∧ ((s.patchHeader.setLength1 (length + j)).setOffset1 r.nOffset).Closed f
        s.inputPos) ∨ (0 < k ∧ ∃ L, L < 2 ^ 31 ∧ k ≤ L ∧
          ((s.patchHeader.setLength1 (length + j)).setOffset1 r.nOffset).Open f s.inputPos L) := by
      by_cases hk : k = 0
      · exact Or.inl ⟨hk, hc.len, hwords, hc.spells⟩
      · exact Or.inr ⟨by omega, L, by omega, hk2, ho'.len, hwords, ho'.length2, ho'.le_pos,
          ho'.spells⟩
    have h := Closed.giveBack_putCopy hsmall
      (by rw [setOffset1, setLength1, hrec, setLength_copyWord hm]) hstate
      (by omega) (by omega) hk1 (by omega) hshort hback hcommon
    exact h.congr rfl rfl rfl rfl

/-! ## The main loop -/

/-- A string of the base before its tail, and not an empty one. -/
def InBase (f : Job) (r : DeltaRecord) : Prop := 0 < r.nLength ∧ r.nOffset + r.nLength ≤ f.baseEnd

/-- The invariant of the main loop: the output, the cursors, and that the
table holds strings of the base before its tail. -/
structure LoopInv (f : Job) (s : Enc) : Prop where
  written : s.Written f
  pos_le : s.inputPos ≤ f.newEnd
  cursor : s.cursorInput = s.inputPos
  base_le : s.cursorBase ≤ f.baseEnd
  table : s.psHTable.All (InBase f)

theorem LoopInv.unmatched {f : Job} {s : Enc} (hs : f.Small) (h : s.LoopInv f) {len : Nat}
    (hle : s.inputPos + len ≤ f.newEnd) :
    (s.unmatched f len).LoopInv f ∧ (s.unmatched f len).inputPos = s.inputPos + len := by
  have hn := newEnd_le f
  have hsn := hs.1
  refine ⟨⟨h.written.unmatched (by omega), hle, rfl, ?_, ?_⟩, rfl⟩
  · simp only [Enc.unmatched]
    split <;> exact h.base_le
  · simp only [Enc.unmatched]
    split <;> exact h.table

theorem LoopInv.matched {f : Job} {s : Enc} (hs : f.Small) (h : s.LoopInv f) {len : Nat}
    {r : DeltaRecord} (hle : s.inputPos + len ≤ f.newEnd)
    (hlast : len ≤ STRMIN → s.inputPos + len = f.newEnd)
    (hr : InBase f r) :
    (s.matched f len r).LoopInv f ∧ s.inputPos + len ≤ (s.matched f len r).inputPos := by
  rw [Enc.matched]
  split
  · rename_i heq
    have hend := hr.2
    have hclosed := h.written.matchedCopy hs (by omega) hle hlast heq.2
    obtain ⟨_, hj⟩ := forward_spec f (r.nOffset + len) (s.inputPos + len)
    have hbase := h.base_le
    have hpos : (s.matchedCopy f len r).inputPos =
        s.inputPos + (len + forward f (r.nOffset + len) (s.inputPos + len)) := by
      simp only [Enc.matchedCopy, ← Nat.add_assoc]
      split <;> rfl
    have hcb : (s.matchedCopy f len r).cursorBase =
        max s.cursorBase (r.nOffset + len + forward f (r.nOffset + len) (s.inputPos + len)) := by
      simp only [Enc.matchedCopy]
      split <;> rfl
    have htable : (s.matchedCopy f len r).psHTable = s.psHTable := by
      simp only [Enc.matchedCopy, Enc.giveBack, Enc.shrinkLiteral]
      split_ifs <;> rfl
    refine ⟨⟨Or.inl ⟨by simp [Enc.matchedCopy], ?_⟩, by omega, rfl, by omega, ?_⟩, by omega⟩
    · rw [hpos]
      exact hclosed
    · rw [htable]
      exact h.table
  · obtain ⟨h', hpos⟩ := h.unmatched hs hle
    exact ⟨h', by omega⟩

theorem LoopInv.nextString {f : Job} {h : Heuristics} {s : Enc} (hs : f.Small)
    (hi : s.LoopInv f) :
    (s.nextString f h).LoopInv f ∧ s.inputPos ≤ (s.nextString f h).inputPos ∧
      (s.inputPos < f.newEnd → s.inputPos < (s.nextString f h).inputPos) := by
  have hb := chunkGear_bounds (fun i => f.newBuf (s.inputPos + i)) (f.newEnd - s.inputPos)
  have hlast := @chunkGear_last (fun i => f.newBuf (s.inputPos + i)) (f.newEnd - s.inputPos)
  have hpos := hi.pos_le
  simp only [Enc.nextString]
  generalize chunkGear (fun i => f.newBuf (s.inputPos + i)) (f.newEnd - s.inputPos) = len at *
  split
  · rename_i r hr
    obtain ⟨h', hle⟩ := hi.matched (r := r) hs (show s.inputPos + len ≤ f.newEnd by omega)
      (fun hshort => by rw [hlast hshort]; omega) (hi.table.lookup hr)
    exact ⟨h', by omega, by omega⟩
  · obtain ⟨h', heq⟩ := hi.unmatched hs (show s.inputPos + len ≤ f.newEnd by omega)
    exact ⟨h', by omega, by omega⟩

end Enc

/-! ## Rounds of chunking and probes -/

theorem insertBase_all (f : Job) (cursorBase : Nat) :
    ∀ {recs : List DeltaRecord} {t : Htable DeltaRecord},
      (∀ r ∈ recs, cursorBase + (r.nOffset + r.nLength) ≤ f.baseEnd) →
      t.All (Enc.InBase f) → (insertBase cursorBase recs t).1.All (Enc.InBase f)
  | [], _, _, ht => ht
  | r :: rs, _, hr, ht => by
      rw [insertBase]
      split
      · exact ht
      · rename_i hlen
        refine insertBase_all f cursorBase (fun r' hr' => hr r' (by simp [hr'])) (ht.insert _ ?_)
        have := hr r (by simp)
        refine ⟨Nat.pos_of_ne_zero hlen, ?_⟩
        simp only
        omega

theorem findProbe_some {t : Htable DeltaRecord} :
    ∀ {link : List InputString} {hit : ProbeHit}, findProbe t link = some hit →
      (∃ key, t.lookup key = some hit.psDupSubCnk) ∧
        ∃ rest, link = hit.before ++ hit.probe :: rest
  | [], _, h => by cases h
  | c :: cs, hit, h => by
      rw [findProbe] at h
      split at h
      · rename_i r hr
        obtain rfl := Option.some.inj h
        exact ⟨⟨_, hr⟩, cs, rfl⟩
      · obtain ⟨p, hp, rfl⟩ := Option.map_eq_some_iff.mp h
        obtain ⟨hkey, rest, hrest⟩ := findProbe_some hp
        exact ⟨hkey, rest, by simp [hrest]⟩

/-- What the rounds leave: the table and the base cursor stay inside the
base, and a hit splits the probes and comes from the table. -/
theorem chunkRounds_spec (f : Job) (h : Heuristics) (link : List InputString) :
    ∀ (n num cb : Nat) (t : Htable DeltaRecord), cb ≤ f.baseEnd →
      t.All (Enc.InBase f) →
      let rounds := chunkRounds f h link n num cb t
      rounds.cursorBase ≤ f.baseEnd ∧ rounds.psHTable.All (Enc.InBase f) ∧
        ∀ hit, rounds.hit = some hit →
          Enc.InBase f hit.psDupSubCnk ∧ ∃ rest, link = hit.before ++ hit.probe :: rest
  | 0, _, _, _, hcb, ht => ⟨hcb, ht, fun _ hh => by cases hh⟩
  | n + 1, num, cb, t, hcb, ht => by
      obtain ⟨hrecs, hbytes⟩ := chunkingV3_within h.weakHash (fun i => f.baseBuf (cb + i))
        (f.baseEnd - cb) num
      simp only [chunkRounds]
      generalize chunkingV3 h.weakHash (fun i => f.baseBuf (cb + i)) (f.baseEnd - cb) num = ch at *
      have ht' := insertBase_all f cb (fun r hr => by have := hrecs r hr; omega) ht
      have hcb' : cb + ch.2 ≤ f.baseEnd := by omega
      generalize insertBase cb ch.1 t = ins at *
      split
      · rename_i hit hhit
        obtain ⟨⟨key, hkey⟩, hrest⟩ := findProbe_some hhit
        refine ⟨hcb', ht', fun hit' hh => ?_⟩
        obtain rfl := Option.some.inj hh
        exact ⟨ht'.lookup hkey, hrest⟩
      · split
        · exact chunkRounds_spec f h link n _ _ _ hcb' ht'
        · exact ⟨hcb', ht', fun _ hh => by cases hh⟩

/-- The probes are consecutive strings of the input from `pos` on; only the last
one can be short. -/
def Probes (f : Job) : Nat → List InputString → Prop
  | _, [] => True
  | pos, c :: cs =>
      pos + c.nLength ≤ f.newEnd ∧ (pos < f.newEnd → 0 < c.nLength) ∧
        (c.nLength ≤ STRMIN → pos + c.nLength = f.newEnd) ∧ Probes f (pos + c.nLength) cs

theorem probes_inputLink (f : Job) (h : Heuristics) :
    ∀ (n pos : Nat), pos ≤ f.newEnd → Probes f pos (inputLink f h n pos)
  | 0, _, _ => trivial
  | n + 1, pos, hpos => by
      have hb := chunkGear_bounds (fun i => f.newBuf (pos + i)) (f.newEnd - pos)
      have hlast := @chunkGear_last (fun i => f.newBuf (pos + i)) (f.newEnd - pos)
      exact ⟨by simp only; omega, by simp only; omega, by simp only; omega,
        probes_inputLink f h n _ (by simp only; omega)⟩

namespace Enc

/-- The probes before the one that was found go into the literal. -/
theorem LoopInv.foldl_unmatched {f : Job} (hs : f.Small) :
    ∀ (xs : List InputString) {ys : List InputString} {s : Enc}, s.LoopInv f →
      Probes f s.inputPos (xs ++ ys) →
      let s' := xs.foldl (fun s c => s.unmatched f c.nLength) s
      s'.LoopInv f ∧ Probes f s'.inputPos ys ∧ s.inputPos ≤ s'.inputPos ∧
        (s.inputPos < f.newEnd → s.inputPos < s'.inputPos ∨ xs = [])
  | [], _, _, hi, hp => ⟨hi, hp, le_refl _, fun _ => Or.inr rfl⟩
  | c :: xs, ys, s, hi, ⟨hle, hpos, _, hp⟩ => by
      obtain ⟨hi', heq⟩ := hi.unmatched hs hle
      rw [← heq] at hp
      obtain ⟨hi'', hp', hle', _⟩ := LoopInv.foldl_unmatched hs xs hi' hp
      refine ⟨hi'', hp', ?_, fun hlt => Or.inl ?_⟩
      · simp only [List.foldl_cons]
        omega
      · have := hpos hlt
        simp only [List.foldl_cons]
        omega

/-- The rounds touch neither the output nor the input cursor. -/
theorem LoopInv.rounds {f : Job} {s : Enc} (hi : s.LoopInv f) (r : Rounds)
    (hcb : r.cursorBase ≤ f.baseEnd)
    (ht : r.psHTable.All (InBase f)) :
    LoopInv f { s with
      psHTable := r.psHTable, cursorBase := r.cursorBase, flagChunk := r.flagChunk } := by
  refine ⟨?_, hi.pos_le, hi.cursor, hcb, ht⟩
  rcases hi.written with ⟨hflag, hc⟩ | ⟨hflag, L, ho⟩
  · exact Or.inl ⟨hflag, hc.len, hc.words, hc.spells⟩
  · exact Or.inr ⟨hflag, L, ho.len, ho.words, ho.length2, ho.le_pos, ho.spells⟩

/-- One iteration keeps the invariant and consumes input. -/
theorem LoopInv.step {f : Job} {h : Heuristics} {s : Enc} (hs : f.Small) (hi : s.LoopInv f)
    (hlt : s.inputPos < f.newEnd) :
    (s.step f h).LoopInv f ∧ s.inputPos < (s.step f h).inputPos := by
  rw [Enc.step]
  split
  · obtain ⟨hcb, ht, hhit⟩ := chunkRounds_spec f h (inputLink f h INPUT_TRY s.cursorInput)
      BASE_STEP BASE_BEGIN s.cursorBase s.psHTable hi.base_le hi.table
    have hp := probes_inputLink f h INPUT_TRY s.cursorInput
      (show s.cursorInput ≤ f.newEnd by rw [hi.cursor]; exact hi.pos_le)
    simp only
    generalize inputLink f h INPUT_TRY s.cursorInput = link at *
    generalize chunkRounds f h link BASE_STEP BASE_BEGIN s.cursorBase s.psHTable = rounds at *
    rw [hi.cursor] at hp
    have hi' := hi.rounds rounds hcb ht
    split
    · rename_i hit heq
      obtain ⟨hr, rest, hsplit⟩ := hhit hit heq
      rw [hsplit] at hp
      obtain ⟨hj, ⟨hle, hpos, hlast, _⟩, hmono, hstrict⟩ :=
        LoopInv.foldl_unmatched hs hit.before hi' hp
      obtain ⟨hk, hadv⟩ := hj.matched hs hle hlast hr
      refine ⟨hk, ?_⟩
      rcases hstrict hlt with hlt' | hnil
      · exact Nat.lt_of_lt_of_le hlt' (by omega)
      · rw [hnil] at hadv hpos ⊢
        have := hpos hlt
        simp only [List.foldl_nil] at hadv this ⊢
        omega
    · rw [← List.append_nil link] at hp
      obtain ⟨hj, _, hmono, hstrict⟩ := LoopInv.foldl_unmatched hs link hi' hp
      obtain ⟨hk, hle, hadv⟩ := hj.nextString (h := h) hs
      refine ⟨hk, ?_⟩
      rcases hstrict hlt with hlt' | hnil
      · exact Nat.lt_of_lt_of_le hlt' hle
      · rw [hnil] at hadv ⊢
        exact hadv hlt
  · obtain ⟨hi', _, hadv⟩ := hi.nextString (h := h) hs
    exact ⟨hi', hadv hlt⟩

/-- The main loop consumes the input up to the tail. -/
theorem LoopInv.mainLoop {f : Job} {h : Heuristics} {s : Enc} (hs : f.Small)
    (hi : s.LoopInv f) :
    (s.mainLoop f h).LoopInv f ∧ (s.mainLoop f h).inputPos = f.newEnd := by
  have hkeep : ∀ t : Enc, t.LoopInv f → decide (t.inputPos < f.newEnd) = true →
      (t.step f h).LoopInv f := fun t ht hc => (ht.step hs (by simpa using hc)).1
  have hinv := whileLoop_inv hkeep (f.newSize + 1) s hi
  have hexit := whileLoop_exit (fun t => f.newEnd - t.inputPos) hkeep
    (fun t ht hc => by
      have hlt : t.inputPos < f.newEnd := by simpa using hc
      have := (ht.step (h := h) hs hlt).2
      omega)
    (f.newSize + 1) s hi (by have := newEnd_le f; omega)
  have hle := hinv.pos_le
  refine ⟨hinv, ?_⟩
  simp only [decide_eq_false_iff_not, not_lt] at hexit
  exact Nat.le_antisymm hle hexit

/-! ## Head, tail and the whole encoding -/

theorem Closed.copyUnit {f : Job} {s : Enc} {pos off len : Nat} (hs : f.Small)
    (h : s.Closed f pos) (hin : off + len ≤ f.baseSize) (hlong : STRMIN < len)
    (hc : slice f.baseBuf off len = slice f.newBuf pos len) :
    (s.copyUnit off len).Closed f (pos + len) := by
  obtain ⟨hsn, hsb⟩ := hs
  obtain ⟨⟨m, hm, hrec⟩, _⟩ := h.words
  have h' : ((s.setOffset1 off).setLength1 len).Closed f pos :=
    ⟨h.len, Words.setLength1 (s := s.setOffset1 off) h.words (by omega), h.spells⟩
  have hp := h'.putCopy (by rw [setOffset1, setLength1, hrec, setLength_copyWord hm])
    ⟨by omega, by omega⟩ hin (fun hshort => absurd hlong (Nat.not_lt.mpr hshort)) hc
  exact hp.congr rfl rfl rfl rfl

theorem init_closed (f : Job) (t : Htable DeltaRecord) : (init f t).Closed f 0 := by
  refine ⟨le_refl _, ⟨⟨0, by omega, rfl⟩, 0, rfl⟩, Spells.nil f⟩

/-- The state in which the head has been copied. -/
theorem head_closed {f : Job} (hs : f.Small) (t : Htable DeltaRecord) :
    let s := if f.begSize ≠ 0 then (init f t).copyUnit 0 f.begSize else init f t
    s.Closed f f.begSize ∧ s.flag ≠ .unit2 ∧ s.inputPos = f.begSize ∧ s.cursorInput = f.begSize ∧
      s.cursorBase = f.begSize ∧ s.psHTable = t := by
  have ht := f.trimmed_spec
  have hdis := ht.disjoint
  have hle := ht.head_le
  split
  · rename_i hbeg
    have hlong : STRMIN < f.begSize := by
      have hlarge := f.begSize_large
      rw [STRMIN]
      omega
    have hc := (init_closed f t).copyUnit hs (by omega) hlong ht.head
    rw [Nat.zero_add] at hc
    exact ⟨hc, by simp [copyUnit], rfl, rfl, rfl, rfl⟩
  · rename_i hbeg
    rw [not_not] at hbeg
    exact ⟨hbeg ▸ init_closed f t, by simp [init], rfl, rfl, rfl, rfl⟩

theorem Closed.putTail {f : Job} {s : Enc} (hs : f.Small) (h : s.Closed f f.newEnd) :
    (s.putTail f).Closed f f.newSize := by
  have ht := f.trimmed_spec
  have hle := ht.tail_le
  have hdis := ht.disjoint
  rw [Enc.putTail]
  split
  · rename_i hend
    have hlong : STRMIN < f.endSize := by
      have hlarge := f.endSize_large
      rw [STRMIN]
      omega
    have hc := h.copyUnit hs (by omega) hlong ht.tail
    rwa [Job.newEnd, Nat.sub_add_cancel (by omega)] at hc
  · rename_i hend
    rw [not_not] at hend
    rwa [Job.newEnd, hend, Nat.sub_zero] at h

/-- A literal that is opened at its full length needs no patch. -/
theorem Closed.unmatched_closed {f : Job} {s : Enc} (hflag : s.flag ≠ .unit2)
    (h : s.Closed f s.inputPos) {len : Nat} (hlen : len < 2 ^ 31) :
    (s.unmatched f len).Closed f (s.inputPos + len) := by
  obtain ⟨_, m, hm⟩ := h.words
  have hrec : (s.setLength2 len).record2 = ⟨litWord len⟩ := by
    rw [setLength2, hm, setLength_litWord]
  have hput := len_put (s := s.setLength2 len) h.len (s.setLength2 len).record2.toBytes
  have hout : (s.unmatched f len).output =
      s.output ++ (DeltaUnit2.toBytes ⟨litWord len⟩ ++ slice f.newBuf s.inputPos len) := by
    have h1 := output_put (s := s.setLength2 len) h.len (s.setLength2 len).record2.toBytes
    have h2 := output_put hput (slice f.newBuf s.inputPos len)
    rw [h1, List.append_assoc, hrec] at h2
    simp only [Enc.unmatched, if_neg hflag, hrec]
    exact h2
  refine ⟨?_, ?_, ?_⟩
  · simp only [Enc.unmatched, if_neg hflag]
    exact len_put hput _
  · simp only [Enc.unmatched, if_neg hflag]
    exact h.words.setLength2 len
  · rw [hout]
    exact h.spells.lit hlen

theorem trimmed_closed {f : Job} (hs : f.Small) (t : Htable DeltaRecord) :
    ((init f t).trimmed f).Closed f f.newSize := by
  have hdis := f.trimmed_spec.disjoint
  have hsn := hs.1
  obtain ⟨hc, hflag, hpos, _⟩ := head_closed hs t
  rw [Enc.trimmed]
  generalize (if f.begSize ≠ 0 then (init f t).copyUnit 0 f.begSize else init f t) = s at *
  refine Closed.putTail hs ?_
  split
  · have hm := Closed.unmatched_closed hflag (hpos ▸ hc)
      (show f.newSize - f.begSize - f.endSize < 2 ^ 31 by omega)
    rwa [hpos, show f.begSize + (f.newSize - f.begSize - f.endSize) = f.newEnd by
      rw [Job.newEnd]; omega] at hm
  · rwa [show f.newEnd = f.begSize by rw [Job.newEnd]; omega]

/-- The main loop starts behind the head. -/
theorem head_loopInv {f : Job} {t : Htable DeltaRecord} (hs : f.Small)
    (hsearch : f.begSize + f.endSize < f.baseSize) (ht : t.Clean) :
    (if f.begSize ≠ 0 then (init f t).copyUnit 0 f.begSize else init f t).LoopInv f := by
  have hdis := f.trimmed_spec.disjoint
  obtain ⟨hc, hflag, hpos, hcur, hcb, htab⟩ := head_closed hs t
  generalize (if f.begSize ≠ 0 then (init f t).copyUnit 0 f.begSize else init f t) = s at *
  refine ⟨Or.inl ⟨hflag, hpos ▸ hc⟩, ?_, by omega, ?_, htab ▸ ht.all _⟩
  · rw [hpos, Job.newEnd]
    omega
  · rw [hcb, Job.baseEnd]
    omega

theorem searched_closed {f : Job} {h : Heuristics} {t : Htable DeltaRecord} (hs : f.Small)
    (hsearch : f.begSize + f.endSize < f.baseSize) (ht : t.Clean) :
    ((init f t).searched f h).Closed f f.newSize := by
  have hinv := head_loopInv hs hsearch ht
  rw [Enc.searched]
  generalize (if f.begSize ≠ 0 then (init f t).copyUnit 0 f.begSize else init f t) = s at *
  obtain ⟨hloop, hend⟩ := hinv.mainLoop (h := h) hs
  refine Closed.putTail hs ?_
  rw [← hend]
  have hn := newEnd_le f
  have hsn := hs.1
  rcases hloop.written with ⟨hf, hclosed⟩ | ⟨hf, L, hopen⟩
  · rw [if_neg hf]
    exact hclosed
  · have := hopen.le_pos
    rw [if_pos hf]
    exact (hopen.patchHeader (by omega)).1

end Enc

/-! ## The round trip -/

/-- A delta that spells the whole new chunk decodes to it, over any memory
that holds the base. -/
theorem Spells.decode {f : Job} {delta : Bytes} (h : Spells f delta f.newSize)
    (hpos : 1 ≤ f.newSize) {deltaBuf baseBuf : Mem}
    (hd : slice deltaBuf 0 delta.length = delta)
    (hb : slice baseBuf 0 f.baseSize = slice f.baseBuf 0 f.baseSize) :
    eDeltaDecode deltaBuf delta.length baseBuf = ⟨slice f.newBuf 0 f.newSize, f.newSize⟩ := by
  obtain ⟨ops, hgood, -, rfl, htext⟩ := h
  have hne : ops ≠ [] := by
    rintro rfl
    have := congrArg List.length htext
    simp at this
    omega
  have hbase : applyOps baseBuf ops = slice f.newBuf 0 f.newSize := by
    rw [applyOps_congr hb fun op hop => (hgood op hop).2, htext]
  rw [eDeltaDecode_units hne (fun op hop => (hgood op hop).1) hd, hbase, length_slice]

theorem EcallFreqIndex.spells_eDeltaEncode {f : Job} (hs : f.Small) (h : Heuristics)
    (t : CleanTable) : Spells f (EcallFreqIndex.eDeltaEncode h t f).1 f.newSize := by
  simp only [EcallFreqIndex.eDeltaEncode]
  split
  · exact (Enc.trimmed_closed hs t.1).spells
  · exact (Enc.searched_closed hs (by omega) t.2).spells

theorem OFFLineBackward.spells_eDeltaEncode {f : Job} (hs : f.Small) (h : Heuristics)
    (t : Htable DeltaRecord) : Spells f (OFFLineBackward.eDeltaEncode h t f).1 f.newSize := by
  simp only [OFFLineBackward.eDeltaEncode]
  split
  · exact (Enc.trimmed_closed hs t).spells
  · exact (Enc.searched_closed hs (by omega) t.clean_resetTable).spells

theorem Job.small_of_le {f : Job} (hn : f.newSize ≤ MAX_CHUNK_SIZE)
    (hb : f.baseSize ≤ MAX_CHUNK_SIZE) : f.Small := by
  rw [MAX_CHUNK_SIZE] at hn hb
  exact ⟨by omega, by omega⟩

/-- What any of the three decoders makes of a delta: the whole new chunk,
and its size. -/
def DecodesTo (deltaBuf : Mem) (deltaSize : Nat) (baseBuf : Mem) (new : Bytes) : Prop :=
  EcallFreqIndex.eDeltaDecode deltaBuf deltaSize baseBuf = ⟨new, new.length⟩ ∧
    OFFLineBackward.eDeltaDecode deltaBuf deltaSize baseBuf = ⟨new, new.length⟩ ∧
    EcallRecvDecoder.eDeltaDecode deltaBuf deltaSize baseBuf = ⟨new, new.length⟩

/-- **EDelta decoding undoes EDelta encoding**, for both encoders and all
three decoders, whatever the weak hash and the pacing test answer. The
decoder may find the delta and the base in other buffers than the
encoder had them in. -/
theorem eDeltaDecode_eDeltaEncode (h : Heuristics) (f : Job) (t : CleanTable)
    (tOffline : Htable DeltaRecord) (hpos : 1 ≤ f.newSize) (hnew : f.newSize ≤ MAX_CHUNK_SIZE)
    (hbase : f.baseSize ≤ MAX_CHUNK_SIZE) (baseBuf : Mem)
    (hb : slice baseBuf 0 f.baseSize = slice f.baseBuf 0 f.baseSize) (deltaBuf : Mem)
    (delta : Bytes) (hd : slice deltaBuf 0 delta.length = delta)
    (henc : delta = (EcallFreqIndex.eDeltaEncode h t f).1 ∨
      delta = (OFFLineBackward.eDeltaEncode h tOffline f).1) :
    DecodesTo deltaBuf delta.length baseBuf (slice f.newBuf 0 f.newSize) := by
  have hs := Job.small_of_le hnew hbase
  have hsp : Spells f delta f.newSize := by
    rcases henc with rfl | rfl
    · exact EcallFreqIndex.spells_eDeltaEncode hs h t
    · exact OFFLineBackward.spells_eDeltaEncode hs h tOffline
  have hdec := hsp.decode hpos hd hb
  rw [DecodesTo, length_slice]
  exact ⟨hdec, hdec, hdec⟩

/-- Two chunks of 40 bytes that differ in their first byte. -/
def sampleJob : Job where
  newBuf := fun i => UInt8.ofNat (i + 1)
  newSize := 40
  baseBuf := fun i => if i = 0 then 0 else UInt8.ofNat (i + 1)
  baseSize := 40

def sampleDelta : Bytes :=
  (OFFLineBackward.eDeltaEncode ⟨fun _ => 0, fun _ _ _ _ => true⟩ (Htable.init 16384) sampleJob).1

theorem eDeltaDecode_sampleDelta :
    DecodesTo (memOf sampleDelta) sampleDelta.length sampleJob.baseBuf
      (slice sampleJob.newBuf 0 sampleJob.newSize) :=
  eDeltaDecode_eDeltaEncode ⟨fun _ => 0, fun _ _ _ _ => true⟩ sampleJob
    ⟨Htable.init 16384, Htable.clean_init 16384⟩ (Htable.init 16384) (by decide) (by decide)
    (by decide) sampleJob.baseBuf rfl (memOf sampleDelta) sampleDelta
    (slice_memOf_self sampleDelta) (Or.inr rfl)

end ShieldReduce.Edelta
