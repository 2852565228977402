import ShieldReduce.Edelta.Locals

/-!
# The buffer of the offline encoder

The offline pass encodes every chunk into one buffer of `MAX_CHUNK_SIZE`
bytes and compares the sizes afterwards. What an encoding touches of that
buffer is more than its delta: a literal that a later match shortens was
written in full, and a delta that is refused was written as well.

The main loop takes the chunk string by string (`StringOp`), and each
string moves the end of the output to its `writeEnd`. Headers are the
only overhead. A copy of at least `STRMIN` bytes makes up for its own
header and for the one of the literal before it, so the output is never
more than twelve bytes ahead of the input (`Ledger`), less what a common
head or tail of the two chunks saves. Only chunks of almost
`MAX_CHUNK_SIZE` bytes can leave the buffer (`HasRoom`).
-/

namespace ShieldReduce.Edelta

open ByteLib LoopLib

/-! ## The strings of an encoding -/

/-- A string of the input: the locals it is met with, its length, and what
the table holds for it. -/
structure StringOp where
  enc : Enc
  length : Nat
  found : Option DeltaRecord

namespace StringOp

def run (f : Job) (op : StringOp) : Enc :=
  match op.found with
  | some r => op.enc.matched f op.length r
  | none => op.enc.unmatched f op.length

/-- Where the write of a literal ends. -/
def literalEnd (s : Enc) (length : Nat) : Nat :=
  s.deltaLen + (if s.flag = .unit2 then 0 else sizeofDeltaUnit2) + length

/-- Where the write of a copy unit ends: the open literal has given back what
the copy was extended by, and its header if nothing is left of it. -/
def copyEnd (f : Job) (s : Enc) (r : DeltaRecord) : Nat :=
  if s.flag = .unit2 then
    let limit := getLength s.record2.flagLength
    let k := Enc.backward f r.nOffset s.inputPos limit
    s.deltaLen - k - (if 0 < k ∧ k = limit then sizeofDeltaUnit2 else 0) + sizeofDeltaUnit1
  else s.deltaLen + sizeofDeltaUnit1

/-- Where the writes of the string end. -/
def writeEnd (f : Job) (op : StringOp) : Nat :=
  match op.found with
  | some r =>
      if op.length = r.nLength ∧
          slice f.newBuf op.enc.inputPos op.length = slice f.baseBuf r.nOffset op.length then
        copyEnd f op.enc r
      else literalEnd op.enc op.length
  | none => literalEnd op.enc op.length

end StringOp

namespace Enc

/-- The probes before the one that is found. -/
def unmatchedOps (f : Job) : Enc → List InputString → List StringOp
  | _, [] => []
  | s, c :: cs => ⟨s, c.nLength, none⟩ :: unmatchedOps f (s.unmatched f c.nLength) cs

/-- The string of `nextString`. -/
def nextOp (f : Job) (h : Heuristics) (s : Enc) : StringOp :=
  let length := chunkGear (fun i => f.newBuf (s.inputPos + i)) (f.newEnd - s.inputPos)
  ⟨s, length, s.psHTable.lookup (h.weakHash (slice f.newBuf s.inputPos length))⟩

/-- The strings of one iteration of the main loop. -/
def stepOps (f : Job) (h : Heuristics) (s : Enc) : List StringOp :=
  if s.flagChunk && h.pace s.cursorInput f.newSize s.cursorBase f.baseSize then
    let link := inputLink f h INPUT_TRY s.cursorInput
    let rounds := chunkRounds f h link BASE_STEP BASE_BEGIN s.cursorBase s.psHTable
    let s := { s with
      psHTable := rounds.psHTable, cursorBase := rounds.cursorBase,
      flagChunk := rounds.flagChunk }
    match rounds.hit with
    | some hit =>
        s.unmatchedOps f hit.before ++
          [⟨hit.before.foldl (fun s c => s.unmatched f c.nLength) s, hit.probe.nLength,
            some hit.psDupSubCnk⟩]
    | none =>
        s.unmatchedOps f link ++ [(link.foldl (fun s c => s.unmatched f c.nLength) s).nextOp f h]
  else [s.nextOp f h]

/-- The strings of the main loop. -/
def loopOps (f : Job) (h : Heuristics) : (fuel : Nat) → Enc → List StringOp
  | 0, _ => []
  | fuel + 1, s =>
      if s.inputPos < f.newEnd then s.stepOps f h ++ loopOps f h fuel (s.step f h) else []

/-- The locals before the main loop. -/
def afterHead (f : Job) (s : Enc) : Enc :=
  if f.begSize ≠ 0 then s.copyUnit 0 f.begSize else s

end Enc

/-- The locals that an offline encoding ends with; `deltaBuf` is what it has
touched of the buffer. -/
def OFFLineBackward.encoded (h : Heuristics) (t : Htable DeltaRecord) (f : Job) : Enc :=
  if f.baseSize ≤ f.begSize + f.endSize then (Enc.init f t).trimmed f
  else (Enc.init f t.resetTable).searched f h

theorem OFFLineBackward.eDeltaEncode_fst (h : Heuristics) (t : Htable DeltaRecord) (f : Job) :
    (OFFLineBackward.eDeltaEncode h t f).1 = (OFFLineBackward.encoded h t f).output := by
  simp only [OFFLineBackward.eDeltaEncode, OFFLineBackward.encoded]
  split <;> rfl

/-! ## What one string writes -/

/-- What a copied head saves. -/
def Job.headSaving (f : Job) : Nat := f.begSize - sizeofDeltaUnit1

/-- The output and what the head saved are not longer than the input that they
cover, the header of an open literal apart. -/
def Enc.Ledger (f : Job) (s : Enc) : Prop :=
  s.deltaLen + f.headSaving ≤ s.inputPos + if s.flag = .unit2 then sizeofDeltaUnit2 else 0

/-- The invariant of the main loop on the length of the output: only a short
copy at the end of the loop breaks the ledger. -/
def Enc.Balanced (f : Job) (s : Enc) : Prop :=
  s.Ledger f ∨ s.inputPos = f.newEnd ∧
    s.deltaLen + f.headSaving ≤ f.newEnd + sizeofDeltaUnit2 + sizeofDeltaUnit1

namespace StringOp

/-- A string as the main loop meets it. Of those that are found only the last
one can be as short as `STRMIN`. -/
structure Good (f : Job) (op : StringOp) : Prop where
  inv : op.enc.LoopInv f
  ledger : op.enc.Ledger f
  within : op.enc.inputPos + op.length ≤ f.newEnd
  found : ∀ r, op.found = some r → Enc.InBase f r
  last : op.found ≠ none → op.length ≤ STRMIN → op.enc.inputPos + op.length = f.newEnd

end StringOp

namespace Enc

theorem Written.len {f : Job} {s : Enc} (h : s.Written f) : s.deltaLen ≤ s.deltaBuf.length := by
  rcases h with ⟨-, hc⟩ | ⟨-, L, ho⟩
  · exact hc.len
  · exact ho.len

theorem length_put {s : Enc} (h : s.deltaLen ≤ s.deltaBuf.length) (xs : Bytes) :
    (s.put xs).deltaBuf.length = max s.deltaBuf.length (s.deltaLen + xs.length) :=
  length_writeAt xs h

theorem unmatched_deltaLen (f : Job) (s : Enc) (length : Nat) :
    (s.unmatched f length).deltaLen = StringOp.literalEnd s length := by
  unfold unmatched StringOp.literalEnd
  split
  · simp only [put, setLength2, length_slice, Nat.add_zero]
  · simp only [put, setLength2, length_slice, DeltaUnit2.length_toBytes, sizeofDeltaUnit2]

theorem length_unmatched {f : Job} {s : Enc} (h : s.deltaLen ≤ s.deltaBuf.length) (length : Nat) :
    (s.unmatched f length).deltaBuf.length =
      max s.deltaBuf.length (StringOp.literalEnd s length) := by
  unfold unmatched StringOp.literalEnd
  split
  · have hput := length_put h (slice f.newBuf s.inputPos length)
    rw [length_slice] at hput
    rw [Nat.add_zero]
    exact hput
  · have hfirst := length_put (s := s.setLength2 length) h (s.setLength2 length).record2.toBytes
    have hput := length_put (len_put (s := s.setLength2 length) h (s.setLength2 length).record2.toBytes)
      (slice f.newBuf s.inputPos length)
    rw [length_slice, hfirst, DeltaUnit2.length_toBytes] at hput
    simp only [put, setLength2, DeltaUnit2.length_toBytes, sizeofDeltaUnit2] at hput ⊢
    rw [hput]
    omega

/-- An open literal is in the output with its header. -/
theorem Open.literal_le {f : Job} {s : Enc} {pos L : Nat} (h : s.Open f pos L) :
    sizeofDeltaUnit2 + L ≤ s.deltaLen := by
  obtain ⟨u, hdr, -, hhdr, hout⟩ := h.spells
  have hlen := congrArg List.length hout
  rw [length_output h.len, List.length_append, List.length_append, hhdr, length_slice] at hlen
  rw [sizeofDeltaUnit2]
  omega

theorem Open.length_patchHeader {f : Job} {s : Enc} {pos L : Nat} (h : s.Open f pos L)
    (hL : L < 2 ^ 31) : s.patchHeader.deltaBuf.length = s.deltaBuf.length := by
  have hlit := h.literal_le
  have hlen := h.len
  have hlen2 : getLength s.record2.flagLength = L := by rw [h.length2, getLength_litWord hL]
  have hstart : s.deltaLen - L - sizeofDeltaUnit2 ≤ s.deltaBuf.length := by omega
  unfold Enc.patchHeader
  rw [hlen2, length_writeAt _ hstart, DeltaUnit2.length_toBytes]
  rw [sizeofDeltaUnit2] at hlit ⊢
  omega

/-- What is given back is taken from the end of the output, and nothing is
written beyond it. -/
theorem Open.giveBack_size {f : Job} {s : Enc} {pos L k : Nat} (h : s.Open f pos L)
    (hL : L < 2 ^ 31) (hkL : k ≤ L) :
    (s.giveBack k).deltaLen =
        s.deltaLen - k - (if 0 < k ∧ k = L then sizeofDeltaUnit2 else 0) ∧
      (s.giveBack k).deltaBuf.length = s.deltaBuf.length := by
  have hlit := h.literal_le
  have hlen := h.len
  rw [sizeofDeltaUnit2] at hlit
  rw [Enc.giveBack]
  by_cases hk : 0 < k
  · rw [if_pos hk]
    have hword : setLength s.record2.flagLength (L - k) = litWord (L - k) := by
      rw [h.length2, setLength_litWord]
    have hlen2 : getLength (litWord (L - k)) = L - k := getLength_litWord (by omega)
    have hlen1 : getLength s.record2.flagLength = L := by
      rw [h.length2, getLength_litWord hL]
    simp only [Enc.shrinkLiteral, setLength2, setLength1, setOffset1, put, hword, hlen2, hlen1,
      sizeofDeltaUnit2]
    by_cases hrest : 0 < L - k
    · -- the literal keeps its first `L - k` bytes
      have hne : ¬ (0 < k ∧ k = L) := by omega
      have hstart : s.deltaLen - L - 4 ≤ s.deltaBuf.length := by omega
      rw [if_pos hrest, if_neg hne]
      dsimp only
      rw [length_writeAt _ hstart, DeltaUnit2.length_toBytes]
      omega
    · have heq : 0 < k ∧ k = L := by omega
      rw [if_neg hrest, if_pos heq]
      dsimp only
      omega
  · have hzero : ¬ (0 < k ∧ k = L) := fun hc => hk hc.1
    rw [if_neg hk, if_neg hzero]
    omega

/-- A copy ends at `copyEnd`, and nothing is written beyond it. -/
theorem Written.matchedCopy_size {f : Job} {s : Enc} {length : Nat} {r : DeltaRecord}
    (hs : f.Small) (hw : s.Written f) (hpos : s.inputPos + length ≤ f.newEnd) :
    (s.matchedCopy f length r).deltaLen = StringOp.copyEnd f s r ∧
      (s.matchedCopy f length r).deltaBuf.length =
        max s.deltaBuf.length (StringOp.copyEnd f s r) := by
  have hn := newEnd_le f
  have hsn := hs.1
  obtain ⟨-, hj⟩ := forward_spec f (r.nOffset + length) (s.inputPos + length)
  rcases hw with ⟨hflag, hc⟩ | ⟨hflag, L, ho⟩
  · unfold Enc.matchedCopy StringOp.copyEnd
    simp only [hflag, if_false, giveBack, Nat.lt_irrefl]
    exact ⟨rfl, length_put hc.len _⟩
  · have hle := ho.le_pos
    obtain ⟨hc, ho'⟩ := ho.patchHeader (by omega)
    have hpatch := ho.length_patchHeader (by omega)
    have hL : getLength s.record2.flagLength = L := by
      rw [ho.length2, getLength_litWord (by omega)]
    obtain ⟨-, hk, -⟩ := backward_spec f r.nOffset hle
    simp only [Enc.matchedCopy, StringOp.copyEnd, hflag, if_true, patchHeader_inputPos,
      patchHeader_record2, setLength1_inputPos, setLength1_record2, setOffset1_inputPos,
      setOffset1_record2, hL]
    generalize forward f (r.nOffset + length) (s.inputPos + length) = j at *
    generalize backward f r.nOffset s.inputPos L = k at *
    have hwords := hc.words.setLength1 (show s.inputPos + length + j - s.inputPos < 2 ^ 31 by omega)
    have hopen : ((s.patchHeader.setLength1 (s.inputPos + length + j - s.inputPos)).setOffset1
        r.nOffset).Open f s.inputPos L :=
      ⟨ho'.len, hwords, ho'.length2, ho'.le_pos, ho'.spells⟩
    have hlen := hopen.len
    have hsame : ((s.patchHeader.setLength1 (s.inputPos + length + j - s.inputPos)).setOffset1
        r.nOffset).deltaLen = s.deltaLen := rfl
    obtain ⟨hback, hbuf⟩ := hopen.giveBack_size (by omega) hk
    replace hbuf := hbuf.trans hpatch
    generalize (s.patchHeader.setLength1 (s.inputPos + length + j - s.inputPos)).setOffset1
      r.nOffset = t at *
    rw [hsame] at hback
    have hsub : s.deltaLen - k - (if 0 < k ∧ k = L then sizeofDeltaUnit2 else 0) ≤ s.deltaLen :=
      (Nat.sub_le _ _).trans (Nat.sub_le _ _)
    have hput := length_put (show (t.giveBack k).deltaLen ≤ (t.giveBack k).deltaBuf.length by
      rw [hback, hbuf]; exact hsub.trans ho.len) (t.giveBack k).record1.toBytes
    rw [hback, hbuf, DeltaUnit1.length_toBytes] at hput
    rw [sizeofDeltaUnit1, hput]
    refine ⟨?_, rfl⟩
    rw [← hback]
    rfl

theorem matched_size {f : Job} {s : Enc} {length : Nat} {r : DeltaRecord} (hs : f.Small)
    (hw : s.Written f) (hpos : s.inputPos + length ≤ f.newEnd) :
    (s.matched f length r).deltaLen = StringOp.writeEnd f ⟨s, length, some r⟩ ∧
      (s.matched f length r).deltaBuf.length =
        max s.deltaBuf.length (StringOp.writeEnd f ⟨s, length, some r⟩) := by
  unfold Enc.matched StringOp.writeEnd
  dsimp only
  split
  · exact hw.matchedCopy_size hs hpos
  · exact ⟨unmatched_deltaLen f s length, length_unmatched hw.len length⟩

end Enc

namespace StringOp

/-- A string moves the end of the output to its `writeEnd`. -/
theorem Good.size {f : Job} {op : StringOp} (hs : f.Small) (h : op.Good f) :
    (op.run f).deltaLen = op.writeEnd f ∧
      (op.run f).deltaBuf.length = max op.enc.deltaBuf.length (op.writeEnd f) := by
  obtain ⟨s, length, found⟩ := op
  cases found with
  | none =>
      exact ⟨Enc.unmatched_deltaLen f s length, Enc.length_unmatched h.inv.written.len length⟩
  | some r => exact Enc.matched_size hs h.inv.written h.within

theorem literalEnd_le {f : Job} {s : Enc} (h : s.Ledger f) (length : Nat) :
    literalEnd s length + f.headSaving ≤ s.inputPos + length + sizeofDeltaUnit2 := by
  unfold Enc.Ledger at h
  unfold literalEnd
  by_cases hflag : s.flag = .unit2
  · rw [if_pos hflag] at h ⊢
    omega
  · rw [if_neg hflag] at h ⊢
    omega

theorem copyEnd_le {f : Job} {s : Enc} (h : s.Ledger f) (r : DeltaRecord) :
    copyEnd f s r + f.headSaving ≤ s.inputPos + sizeofDeltaUnit2 + sizeofDeltaUnit1 := by
  unfold Enc.Ledger at h
  unfold copyEnd
  by_cases hflag : s.flag = .unit2
  · rw [if_pos hflag] at h ⊢
    dsimp only
    omega
  · rw [if_neg hflag] at h ⊢
    omega

/-- Copies and literals are at most two headers ahead of the input. -/
theorem Good.writeEnd_le {f : Job} {op : StringOp} (h : op.Good f) :
    op.writeEnd f + f.headSaving ≤
      op.enc.inputPos + op.length + sizeofDeltaUnit2 + sizeofDeltaUnit1 := by
  obtain ⟨s, length, found⟩ := op
  have hlit := literalEnd_le h.ledger length
  unfold writeEnd
  cases found with
  | none => exact hlit.trans (Nat.le_add_right _ _)
  | some r =>
      dsimp only
      split
      · have hcopy := copyEnd_le h.ledger r
        dsimp only at hcopy
        omega
      · exact hlit.trans (Nat.le_add_right _ _)

theorem unmatched_ledger {f : Job} {s : Enc} (h : s.Ledger f) (length : Nat) :
    (s.unmatched f length).Ledger f := by
  have hflag : (s.unmatched f length).flag = .unit2 := by
    unfold Enc.unmatched
    split
    · assumption
    · rfl
  rw [Enc.Ledger, if_pos hflag, Enc.unmatched_deltaLen]
  exact literalEnd_le h length

/-- A copy of at least `STRMIN` bytes pays for its header and the literal's. -/
theorem matched_ledger {f : Job} {s : Enc} {length : Nat} {r : DeltaRecord} (hs : f.Small)
    (h : s.Ledger f) (hw : s.Written f) (hpos : s.inputPos + length ≤ f.newEnd)
    (hadv : s.inputPos + length ≤ (s.matched f length r).inputPos) (hlong : STRMIN ≤ length) :
    (s.matched f length r).Ledger f := by
  have hsize := (hw.matchedCopy_size (r := r) hs hpos).1
  unfold Enc.matched at hadv ⊢
  split
  · rename_i heq
    rw [if_pos heq] at hadv
    have hcopy := copyEnd_le h r
    unfold Enc.Ledger
    rw [hsize]
    rw [STRMIN] at hlong
    rw [sizeofDeltaUnit1, sizeofDeltaUnit2] at hcopy
    omega
  · exact unmatched_ledger h length

/-- What a string leaves. -/
theorem Good.run {f : Job} {op : StringOp} (hs : f.Small) (h : op.Good f) :
    (op.run f).LoopInv f ∧ (op.run f).Balanced f := by
  have hsize := (h.size hs).1
  have hend := h.writeEnd_le
  obtain ⟨s, length, found⟩ := op
  have hwithin : s.inputPos + length ≤ f.newEnd := h.within
  cases found with
  | none => exact ⟨(h.inv.unmatched hs hwithin).1, Or.inl (unmatched_ledger h.ledger length)⟩
  | some r =>
      obtain ⟨hinv, hadv⟩ := h.inv.matched hs hwithin (h.last (by simp)) (h.found r rfl)
      refine ⟨hinv, ?_⟩
      by_cases hshort : length < STRMIN
      · have hlast : s.inputPos + length = f.newEnd := h.last (by simp) (Nat.le_of_lt hshort)
        have hle := hinv.pos_le
        refine Or.inr ⟨?_, ?_⟩
        · exact Nat.le_antisymm hle (hlast ▸ hadv)
        · rw [hsize]
          exact hlast ▸ hend
      · exact Or.inl (matched_ledger hs h.ledger h.inv.written hwithin hadv (Nat.le_of_not_lt hshort))

end StringOp

/-! ## Runs of strings -/

/-- The strings are met one after the other, from `s` to `s'`. -/
def Runs (f : Job) : Enc → List StringOp → Enc → Prop
  | s, [], s' => s' = s
  | s, op :: ops, s' => op.enc = s ∧ Runs f (op.run f) ops s'

theorem Runs.append {f : Job} {s s' s'' : Enc} {ops ops' : List StringOp} (h : Runs f s ops s')
    (h' : Runs f s' ops' s'') : Runs f s (ops ++ ops') s'' := by
  induction ops generalizing s with
  | nil =>
      obtain rfl : s' = s := h
      exact h'
  | cons op ops ih => exact ⟨h.1, ih h.2⟩

/-- A run touches what its strings write. -/
theorem Runs.touched {f : Job} {s s' : Enc} {ops : List StringOp} (hs : f.Small)
    (h : Runs f s ops s') (hgood : ∀ op ∈ ops, op.Good f) (m : Nat) :
    s'.deltaBuf.length ≤ m ↔ s.deltaBuf.length ≤ m ∧ ∀ op ∈ ops, op.writeEnd f ≤ m := by
  induction ops generalizing s with
  | nil =>
      obtain rfl : s' = s := h
      simp
  | cons op ops ih =>
      obtain ⟨rfl, hrun⟩ := h
      rw [ih hrun fun o ho => hgood o (List.mem_cons_of_mem _ ho),
        ((hgood op (List.mem_cons_self ..)).size hs).2, List.forall_mem_cons, Nat.max_le, and_assoc]

theorem Runs.balanced {f : Job} {s s' : Enc} {ops : List StringOp} (hs : f.Small)
    (h : Runs f s ops s') (hgood : ∀ op ∈ ops, op.Good f) (hne : ops ≠ []) : s'.Balanced f := by
  induction ops generalizing s with
  | nil => exact absurd rfl hne
  | cons op ops ih =>
      obtain ⟨rfl, hrun⟩ := h
      cases ops with
      | nil =>
          obtain rfl : s' = op.run f := hrun
          exact ((hgood op (List.mem_cons_self ..)).run hs).2
      | cons op' ops => exact ih hrun (fun o ho => hgood o (List.mem_cons_of_mem _ ho)) (by simp)

namespace Enc

/-- A state in which the main loop goes on. -/
structure Ready (f : Job) (s : Enc) : Prop where
  inv : s.LoopInv f
  ledger : s.Ledger f

theorem Ready.unmatchedOps {f : Job} (hs : f.Small) (xs : List InputString) {ys : List InputString}
    {s : Enc} (h : s.Ready f) (hp : Probes f s.inputPos (xs ++ ys)) :
    let s' := xs.foldl (fun s c => s.unmatched f c.nLength) s
    Runs f s (s.unmatchedOps f xs) s' ∧ (∀ op ∈ s.unmatchedOps f xs, op.Good f) ∧ s'.Ready f ∧
      Probes f s'.inputPos ys := by
  induction xs generalizing s with
  | nil => exact ⟨rfl, (fun op hop => by cases hop), h, hp⟩
  | cons c xs ih =>
      obtain ⟨hle, -, -, hp⟩ := hp
      obtain ⟨hinv, hpos⟩ := h.inv.unmatched hs hle
      have hgood : (⟨s, c.nLength, none⟩ : StringOp).Good f :=
        ⟨h.inv, h.ledger, hle, (fun r hr => by cases hr), fun hne => absurd rfl hne⟩
      rw [← hpos] at hp
      obtain ⟨hruns, hops, hrest⟩ :=
        ih ⟨hinv, StringOp.unmatched_ledger h.ledger c.nLength⟩ hp
      refine ⟨⟨rfl, hruns⟩, ?_, hrest⟩
      intro op hop
      rcases List.mem_cons.mp hop with rfl | hop'
      · exact hgood
      · exact hops op hop'

theorem nextOp_run (f : Job) (h : Heuristics) (s : Enc) :
    (s.nextOp f h).run f = s.nextString f h := rfl

theorem Ready.nextOp {f : Job} {s : Enc} (h : Heuristics) (hr : s.Ready f) :
    (s.nextOp f h).Good f := by
  have hb := chunkGear_bounds (fun i => f.newBuf (s.inputPos + i)) (f.newEnd - s.inputPos)
  have hpos := hr.inv.pos_le
  refine ⟨hr.inv, hr.ledger, ?_, fun r hfound => hr.inv.table.lookup hfound, fun _ hshort => ?_⟩
  · simp only [Enc.nextOp]
    omega
  · have hlast := chunkGear_last hshort
    simp only [Enc.nextOp] at hlast ⊢
    omega

/-- One iteration of the main loop is the run of its strings; the rounds of
chunking before it do not touch the output. -/
theorem Ready.stepOps {f : Job} {s : Enc} (hs : f.Small) (h : Heuristics) (hr : s.Ready f) :
    (∀ op ∈ s.stepOps f h, op.Good f) ∧
      ∃ s', s'.deltaBuf = s.deltaBuf ∧ Runs f s' (s.stepOps f h) (s.step f h) := by
  unfold Enc.stepOps Enc.step
  split
  · obtain ⟨hcb, ht, hhit⟩ := chunkRounds_spec f h (inputLink f h INPUT_TRY s.cursorInput)
      BASE_STEP BASE_BEGIN s.cursorBase s.psHTable hr.inv.base_le hr.inv.table
    have hcur : s.cursorInput ≤ f.newEnd := hr.inv.cursor ▸ hr.inv.pos_le
    have hp := probes_inputLink f h INPUT_TRY s.cursorInput hcur
    dsimp only
    generalize inputLink f h INPUT_TRY s.cursorInput = link at *
    generalize chunkRounds f h link BASE_STEP BASE_BEGIN s.cursorBase s.psHTable = rounds at *
    rw [hr.inv.cursor] at hp
    generalize hs' : ({ s with
      psHTable := rounds.psHTable, cursorBase := rounds.cursorBase,
      flagChunk := rounds.flagChunk } : Enc) = s'
    have hready : s'.Ready f := by
      subst hs'
      exact ⟨hr.inv.rounds rounds hcb ht, hr.ledger⟩
    have hpos : s'.inputPos = s.inputPos := by rw [← hs']
    have hbuf : s'.deltaBuf = s.deltaBuf := by rw [← hs']
    rw [← hpos] at hp
    cases heq : rounds.hit with
    | some hit =>
        obtain ⟨hbase, rest, hsplit⟩ := hhit hit heq
        rw [hsplit] at hp
        obtain ⟨hruns, hops, hready', hle, -, hlast, -⟩ := hready.unmatchedOps hs hit.before hp
        refine ⟨fun op hop => ?_, s', hbuf, hruns.append ⟨rfl, rfl⟩⟩
        rcases List.mem_append.mp hop with hop | hop
        · exact hops op hop
        · rw [List.mem_singleton.mp hop]
          refine ⟨hready'.inv, hready'.ledger, hle, fun r hfound => ?_, fun _ => hlast⟩
          rw [← Option.some.inj hfound]
          exact hbase
    | none =>
        rw [← List.append_nil link] at hp
        obtain ⟨hruns, hops, hready', -⟩ := hready.unmatchedOps hs link hp
        refine ⟨fun op hop => ?_, s', hbuf, hruns.append ⟨rfl, (nextOp_run f h _).symm⟩⟩
        rcases List.mem_append.mp hop with hop | hop
        · exact hops op hop
        · rw [List.mem_singleton.mp hop]
          exact hready'.nextOp h
  · refine ⟨fun op hop => ?_, s, rfl, rfl, ?_⟩
    · rw [List.mem_singleton.mp hop]
      exact hr.nextOp h
    · exact (nextOp_run f h s).symm

theorem stepOps_ne_nil (f : Job) (h : Heuristics) (s : Enc) : s.stepOps f h ≠ [] := by
  unfold Enc.stepOps
  split
  · dsimp only
    split <;> simp
  · simp

/-- Before the end of the loop only the ledger can be balanced. -/
theorem Balanced.ready {f : Job} {s : Enc} (hb : s.Balanced f) (hi : s.LoopInv f)
    (hlt : s.inputPos < f.newEnd) : s.Ready f := by
  refine ⟨hi, hb.resolve_right fun hend => ?_⟩
  rw [hend.1] at hlt
  exact Nat.lt_irrefl _ hlt

theorem Ready.balanced_step {f : Job} {s : Enc} (hs : f.Small) (h : Heuristics) (hr : s.Ready f) :
    (s.step f h).Balanced f := by
  obtain ⟨hgood, s₁, -, hruns⟩ := hr.stepOps hs h
  exact hruns.balanced hs hgood (stepOps_ne_nil f h s)

/-- The main loop is the run of its strings. -/
theorem loopOps_spec {f : Job} (hs : f.Small) (h : Heuristics) (fuel : Nat) {s : Enc}
    (hi : s.LoopInv f) (hb : s.Balanced f) :
    let s' := whileLoop (fun s => decide (s.inputPos < f.newEnd)) (Enc.step f h) fuel s
    (∀ op ∈ loopOps f h fuel s, op.Good f) ∧ s'.Balanced f ∧
      ∀ m, s'.deltaBuf.length ≤ m ↔
        s.deltaBuf.length ≤ m ∧ ∀ op ∈ loopOps f h fuel s, op.writeEnd f ≤ m := by
  induction fuel generalizing s with
  | zero => exact ⟨(fun op hop => by cases hop), hb, fun m => by simp [whileLoop, loopOps]⟩
  | succ fuel ih =>
      unfold whileLoop loopOps
      by_cases hlt : s.inputPos < f.newEnd
      · have hready := hb.ready hi hlt
        obtain ⟨hgood, s₁, hbuf, hruns⟩ := hready.stepOps hs h
        have htouch := hruns.touched hs hgood
        rw [hbuf] at htouch
        obtain ⟨hgood', hb', htouch'⟩ := ih (hi.step (h := h) hs hlt).1 (hready.balanced_step hs h)
        rw [if_pos (decide_eq_true hlt), if_pos hlt]
        refine ⟨fun op hop => ?_, hb', fun m => ?_⟩
        · rcases List.mem_append.mp hop with hop | hop
          · exact hgood op hop
          · exact hgood' op hop
        · rw [htouch' m, htouch m, List.forall_mem_append, and_assoc]
      · rw [if_neg (by simpa using hlt), if_neg hlt]
        exact ⟨(fun op hop => by cases hop), hb, fun m => by simp⟩

end Enc

/-! ## Head and tail -/

namespace Enc

theorem Balanced.deltaLen_le {f : Job} {s : Enc} (h : s.Balanced f) (hend : s.inputPos = f.newEnd) :
    s.deltaLen + f.headSaving ≤ f.newEnd + sizeofDeltaUnit2 + sizeofDeltaUnit1 := by
  rcases h with h | h
  · rw [Ledger, hend] at h
    split at h <;> omega
  · exact h.2

theorem length_copyUnit {s : Enc} (h : s.deltaLen ≤ s.deltaBuf.length) (offset length : Nat) :
    (s.copyUnit offset length).deltaLen = s.deltaLen + sizeofDeltaUnit1 ∧
      (s.copyUnit offset length).deltaBuf.length =
        max s.deltaBuf.length (s.deltaLen + sizeofDeltaUnit1) :=
  ⟨rfl, length_put h _⟩

/-- The head leaves the output as long as the buffer was touched. -/
theorem afterHead_touched (f : Job) (t : Htable DeltaRecord) :
    ((init f t).afterHead f).deltaLen = (if f.begSize ≠ 0 then sizeofDeltaUnit1 else 0) ∧
      ((init f t).afterHead f).deltaBuf.length = if f.begSize ≠ 0 then sizeofDeltaUnit1 else 0 := by
  unfold afterHead
  split
  · obtain ⟨hlen, hbuf⟩ := length_copyUnit (s := init f t) (Nat.le_refl 0) 0 f.begSize
    exact ⟨hlen.trans (Nat.zero_add _), hbuf.trans (by rfl)⟩
  · exact ⟨rfl, rfl⟩

/-- A head is longer than its header. -/
theorem afterHead_ledger {f : Job} (hs : f.Small) (t : Htable DeltaRecord) :
    ((init f t).afterHead f).Ledger f := by
  have hpos : ((init f t).afterHead f).inputPos = f.begSize := (head_closed hs t).2.2.1
  have hbeg := f.begSize_large
  have hflag : ((init f t).afterHead f).flag ≠ .unit2 := (head_closed hs t).2.1
  rw [Ledger, Job.headSaving, (afterHead_touched f t).1, hpos, if_neg hflag, sizeofDeltaUnit1]
  split <;> omega

/-- The tail is one more copy. -/
theorem putTail_touched {f : Job} {s : Enc} (h : s.deltaLen ≤ s.deltaBuf.length) (m : Nat) :
    (s.putTail f).deltaBuf.length ≤ m ↔
      s.deltaBuf.length ≤ m ∧ (f.endSize ≠ 0 → s.deltaLen + sizeofDeltaUnit1 ≤ m) := by
  unfold putTail
  split
  · rename_i hend
    rw [(length_copyUnit h _ _).2, Nat.max_le]
    simp only [hend, ne_eq, not_false_eq_true, forall_const]
  · rename_i hend
    simp only [hend, false_implies, and_true]

/-- A literal in a buffer that was not touched beyond the output. -/
theorem unmatched_touched {f : Job} {s : Enc} (h : s.deltaBuf.length = s.deltaLen)
    (hflag : s.flag ≠ .unit2) (length : Nat) :
    (s.unmatched f length).deltaLen = s.deltaLen + sizeofDeltaUnit2 + length ∧
      (s.unmatched f length).deltaBuf.length = s.deltaLen + sizeofDeltaUnit2 + length := by
  have hend : StringOp.literalEnd s length = s.deltaLen + sizeofDeltaUnit2 + length := by
    rw [StringOp.literalEnd, if_neg hflag]
  rw [unmatched_deltaLen, length_unmatched (Nat.le_of_eq h.symm), hend, h]
  exact ⟨rfl, Nat.max_eq_right (by omega)⟩

theorem afterHead_flag (f : Job) (t : Htable DeltaRecord) :
    ((init f t).afterHead f).flag ≠ .unit2 := by
  unfold afterHead
  split <;> simp [copyUnit, init]

/-- What is touched when head and tail cover the base: too much only if there
is no base at all, since a head or a tail saves more than its header. -/
theorem trimmed_touched {f : Job} (t : Htable DeltaRecord) (hn : f.newSize ≤ MAX_CHUNK_SIZE)
    (hcover : f.baseSize ≤ f.begSize + f.endSize) :
    ((init f t).trimmed f).deltaBuf.length ≤ MAX_CHUNK_SIZE ↔
      (f.baseSize = 0 → 0 < f.newSize → f.newSize + sizeofDeltaUnit2 ≤ MAX_CHUNK_SIZE) := by
  obtain ⟨hlen, hbuf⟩ := afterHead_touched f t
  have hflag := afterHead_flag f t
  have htrim := f.trimmed_spec
  have hbeg := f.begSize_large
  have hend := f.endSize_large
  have hhead := htrim.head_le
  have htail := htrim.tail_le
  have hdis := htrim.disjoint
  change (((if 0 < f.newSize - f.begSize - f.endSize then
    ((init f t).afterHead f).unmatched f (f.newSize - f.begSize - f.endSize)
    else (init f t).afterHead f)).putTail f).deltaBuf.length ≤ _ ↔ _
  generalize (init f t).afterHead f = s at *
  rw [MAX_CHUNK_SIZE] at *
  rw [sizeofDeltaUnit1] at hlen hbuf
  by_cases hmid : 0 < f.newSize - f.begSize - f.endSize
  · obtain ⟨hlen', hbuf'⟩ := unmatched_touched (hbuf.trans hlen.symm) hflag
      (f.newSize - f.begSize - f.endSize) (f := f)
    rw [if_pos hmid, putTail_touched (by omega), hlen', hbuf', hlen, sizeofDeltaUnit1, sizeofDeltaUnit2]
    split_ifs <;> omega
  · rw [if_neg hmid, putTail_touched (by omega), hbuf, hlen, sizeofDeltaUnit1, sizeofDeltaUnit2]
    split_ifs <;> omega

/-- The locals after the main loop. -/
def afterLoop (f : Job) (h : Heuristics) (t : Htable DeltaRecord) : Enc :=
  ((init f t).afterHead f).mainLoop f h

/-- The strings of an encoding. -/
def strings (f : Job) (h : Heuristics) (t : Htable DeltaRecord) : List StringOp :=
  loopOps f h (f.newSize + 1) ((init f t).afterHead f)

/-- What is touched otherwise: strings and tail. -/
theorem searched_touched {f : Job} {h : Heuristics} {t : Htable DeltaRecord} (hs : f.Small)
    (hsearch : f.begSize + f.endSize < f.baseSize) (ht : t.Clean) :
    (∀ op ∈ strings f h t, op.Good f) ∧ (afterLoop f h t).Balanced f ∧
      (afterLoop f h t).inputPos = f.newEnd ∧
      (((init f t).searched f h).deltaBuf.length ≤ MAX_CHUNK_SIZE ↔
        (∀ op ∈ strings f h t, op.writeEnd f ≤ MAX_CHUNK_SIZE) ∧
          (f.endSize ≠ 0 → (afterLoop f h t).deltaLen + sizeofDeltaUnit1 ≤ MAX_CHUNK_SIZE)) := by
  have hinv : ((init f t).afterHead f).LoopInv f := head_loopInv hs hsearch ht
  obtain ⟨hlen, hbuf⟩ := afterHead_touched f t
  have hnewEnd := newEnd_le f
  have hsn := hs.1
  obtain ⟨hgood, hbal, htouch⟩ := loopOps_spec hs h (f.newSize + 1) hinv (Or.inl (afterHead_ledger hs t))
  obtain ⟨hloop, hend⟩ := hinv.mainLoop (h := h) hs
  refine ⟨hgood, hbal, hend, ?_⟩
  have hm := htouch MAX_CHUNK_SIZE
  change (afterLoop f h t).deltaBuf.length ≤ _ ↔ _ at hm
  have hhead : ((init f t).afterHead f).deltaBuf.length ≤ MAX_CHUNK_SIZE := by
    rw [hbuf, MAX_CHUNK_SIZE, sizeofDeltaUnit1]
    split <;> omega
  rw [and_iff_right hhead] at hm
  change ((if (afterLoop f h t).flag = .unit2 then (afterLoop f h t).patchHeader
    else afterLoop f h t).putTail f).deltaBuf.length ≤ _ ↔ _
  replace hloop : (afterLoop f h t).LoopInv f := hloop
  rcases hloop.written with ⟨hflag, hc⟩ | ⟨hflag, L, ho⟩
  · rw [if_neg hflag, putTail_touched hc.len, hm]
    rfl
  · have hle := ho.le_pos
    have hpos := hloop.pos_le
    have hL : L < 2 ^ 31 := by omega
    rw [if_pos hflag, putTail_touched (ho.patchHeader hL).1.len, ho.length_patchHeader hL, hm]
    rfl

end Enc

/-! ## An incompressible chunk -/

/-- Copies of nothing and literals: the headers come on top of the text. -/
theorem length_unitsBytes_of_disjoint {base : Mem} {n : Nat} {ops : List DeltaOp}
    (hin : ∀ op ∈ ops, op.Within n) (hne : ∀ b ∈ applyOps base ops, ∀ i < n, base i ≠ b) :
    (applyOps base ops).length + sizeofDeltaUnit2 * ops.length ≤ (unitsBytes ops).length := by
  induction ops with
  | nil => exact Nat.le_refl _
  | cons op ops ih =>
      have hrest := ih (fun o ho => hin o (List.mem_cons_of_mem _ ho)) fun b hb =>
        hne b (by rw [applyOps_cons]; exact List.mem_append_right _ hb)
      have hop := hin op (List.mem_cons_self ..)
      rw [applyOps_cons, unitsBytes_cons, List.length_append, List.length_append, List.length_cons]
      rw [sizeofDeltaUnit2] at hrest ⊢
      cases op with
      | copy off len =>
          have hzero : len = 0 := by
            by_contra hlen
            have hmem : base off ∈ slice base off len := by
              rw [slice, List.mem_map]
              exact ⟨0, List.mem_range.mpr (Nat.pos_of_ne_zero hlen), rfl⟩
            refine hne (base off) ?_ off ?_ rfl
            · rw [applyOps_cons]
              exact List.mem_append_left _ hmem
            · change off + len ≤ n at hop
              omega
          subst hzero
          simp only [DeltaOp.text, length_slice, unitBytes, DeltaUnit1.length_toBytes]
          omega
      | lit bs =>
          simp only [DeltaOp.text, unitBytes, List.length_append, DeltaUnit2.length_toBytes]
          omega

/-- The delta of a chunk that has no byte of its base is longer than the chunk. -/
theorem Spells.length_of_disjoint {f : Job} {out : Bytes} (h : Spells f out f.newSize)
    (hpos : 0 < f.newSize)
    (hne : ∀ b ∈ slice f.newBuf 0 f.newSize, ∀ i < f.baseSize, f.baseBuf i ≠ b) :
    f.newSize + sizeofDeltaUnit2 ≤ out.length := by
  obtain ⟨ops, hgood, -, rfl, htext⟩ := h
  have hlen := length_unitsBytes_of_disjoint (fun op hop => (hgood op hop).2) (htext ▸ hne)
  have hops : ops ≠ [] := by
    rintro rfl
    have hzero := congrArg List.length htext
    rw [length_slice] at hzero
    exact absurd hzero (Nat.ne_of_lt hpos)
  have hone : 0 < ops.length := List.length_pos_iff.mpr hops
  rw [htext, length_slice] at hlen
  rw [sizeofDeltaUnit2] at hlen ⊢
  omega

/-- So it is written beyond its own size. -/
theorem OFFLineBackward.touched_of_disjoint (h : Heuristics) (t : Htable DeltaRecord) {f : Job}
    (hnew : f.newSize ≤ MAX_CHUNK_SIZE) (hbase : f.baseSize ≤ MAX_CHUNK_SIZE) (hpos : 0 < f.newSize)
    (hne : ∀ b ∈ slice f.newBuf 0 f.newSize, ∀ i < f.baseSize, f.baseBuf i ≠ b) :
    f.newSize + sizeofDeltaUnit2 ≤ (OFFLineBackward.encoded h t f).deltaBuf.length := by
  have hspells := OFFLineBackward.spells_eDeltaEncode (Job.small_of_le hnew hbase) h t
  rw [OFFLineBackward.eDeltaEncode_fst] at hspells
  have hlen := hspells.length_of_disjoint hpos hne
  have hout := List.length_take_le' (OFFLineBackward.encoded h t f).deltaLen
    (OFFLineBackward.encoded h t f).deltaBuf
  exact hlen.trans hout

/-! ## Room for the headers -/

/-- The header of a copied head or tail. -/
def copyHeader (n : Nat) : Nat := if n ≠ 0 then sizeofDeltaUnit1 else 0

/-- No byte of the chunk is in the base. -/
def Unshared (new base : Bytes) : Prop := ∀ b ∈ new, b ∉ base

instance (new base : Bytes) : Decidable (Unshared new base) :=
  List.decidableBAll (fun b => b ∉ base) new

/-- The chunk leaves room for the headers. If head and tail cover the base they pay
for themselves; a chunk that has nothing of its base is one literal; any other
takes a literal and a copy more, less what its head and tail save. -/
@[irreducible] def HasRoom (new base : Bytes) : Prop :=
  if base.length ≤ commonHead new base + commonTail new base then
    base = [] → new ≠ [] → new.length + sizeofDeltaUnit2 ≤ MAX_CHUNK_SIZE
  else if Unshared new base then new.length + sizeofDeltaUnit2 ≤ MAX_CHUNK_SIZE
  else
    new.length + sizeofDeltaUnit2 + sizeofDeltaUnit1 + copyHeader (commonHead new base) +
        copyHeader (commonTail new base) ≤
      MAX_CHUNK_SIZE + commonHead new base + commonTail new base

instance (new base : Bytes) : Decidable (HasRoom new base) := by
  unfold HasRoom
  infer_instance

/-- What the two have in common is empty. -/
theorem Unshared.length_eq_zero {new base : Bytes} (h : Unshared new base) {off pos len : Nat}
    (hoff : off + len ≤ base.length) (hpos : pos + len ≤ new.length)
    (heq : slice (memOf base) off len = slice (memOf new) pos len) : len = 0 := by
  by_contra hlen
  have hb : off < base.length := by omega
  have hn : pos < new.length := by omega
  have hbyte := slice_eq_iff.mp heq 0 (Nat.pos_of_ne_zero hlen)
  rw [Nat.add_zero, Nat.add_zero, memOf_eq_getElem hb, memOf_eq_getElem hn] at hbyte
  exact h _ (List.getElem_mem hn) (hbyte ▸ List.getElem_mem hb)

theorem Unshared.head_tail {new base : Bytes} (h : Unshared new base) :
    (Job.of new base).begSize = 0 ∧ (Job.of new base).endSize = 0 := by
  have htrim := (Job.of new base).trimmed_spec
  have hhead := htrim.head_le
  have htail := htrim.tail_le
  have hdis := htrim.disjoint
  refine ⟨h.length_eq_zero (by rw [Nat.zero_add]; exact hhead) ?_ htrim.head,
    h.length_eq_zero ?_ ?_ htrim.tail⟩ <;> simp only [Job.of] at * <;> omega

/-- A chunk of at most 16372 bytes has room. -/
theorem hasRoom_of_le {new base : Bytes}
    (h : new.length + sizeofDeltaUnit2 + sizeofDeltaUnit1 ≤ MAX_CHUNK_SIZE) : HasRoom new base := by
  unfold HasRoom copyHeader
  have hhead := (Job.of new base).begSize_large
  have htail := (Job.of new base).endSize_large
  rw [begSize_of] at hhead
  rw [endSize_of] at htail
  rw [sizeofDeltaUnit1, sizeofDeltaUnit2] at *
  split_ifs <;> omega

/-- So has every chunk with a head or tail of 20 bytes of its base. -/
theorem hasRoom_of_common {new base : Bytes} (hnew : new.length ≤ MAX_CHUNK_SIZE)
    (h : 20 ≤ commonHead new base ∨ 20 ≤ commonTail new base) : HasRoom new base := by
  have hhead := (Job.of new base).begSize_large
  have htail := (Job.of new base).endSize_large
  have htrim := (Job.of new base).trimmed_spec
  have hhead' := htrim.head_le
  have htail' := htrim.tail_le
  have hsize : (Job.of new base).baseSize = base.length := rfl
  have hshared := @Unshared.head_tail new base
  rw [hsize] at hhead' htail'
  rw [begSize_of] at hhead hhead' hshared
  rw [endSize_of] at htail htail' hshared
  unfold HasRoom copyHeader
  rw [sizeofDeltaUnit1, sizeofDeltaUnit2]
  split_ifs with hcover hunshared
  · rintro rfl
    rw [List.length_nil] at hhead' htail'
    omega
  · have hzero := hshared hunshared
    omega
  all_goals omega

/-- The chunk is written string by string as one literal. -/
theorem Unshared.writeEnd_le {new base : Bytes} (h : Unshared new base) {op : StringOp}
    (hgood : op.Good (Job.of new base)) :
    op.writeEnd (Job.of new base) ≤ new.length + sizeofDeltaUnit2 := by
  obtain ⟨s, length, found⟩ := op
  have hlit := StringOp.literalEnd_le hgood.ledger length
  have hwithin : s.inputPos + length ≤ (Job.of new base).newEnd := hgood.within
  have hend : (Job.of new base).newEnd ≤ new.length := Enc.newEnd_le (Job.of new base)
  dsimp only at hlit
  unfold StringOp.writeEnd
  cases found with
  | none => dsimp only; omega
  | some r =>
      dsimp only
      split
      · rename_i heq
        obtain ⟨hpos, hin⟩ := hgood.found r rfl
        have hbase : (Job.of new base).baseEnd ≤ base.length := Nat.sub_le _ _
        have hzero := h.length_eq_zero (by omega) (by omega) heq.2.symm
        omega
      · omega

/-- A literal and a copy more than the chunk, less what head and tail save. -/
theorem searched_le_of_room {new base : Bytes} {ops : List StringOp} {s : Enc}
    (hroom : new.length + sizeofDeltaUnit2 + sizeofDeltaUnit1 + copyHeader (commonHead new base) +
        copyHeader (commonTail new base) ≤
      MAX_CHUNK_SIZE + commonHead new base + commonTail new base)
    (hgood : ∀ op ∈ ops, op.Good (Job.of new base))
    (hlen : s.deltaLen + (Job.of new base).headSaving ≤
      (Job.of new base).newEnd + sizeofDeltaUnit2 + sizeofDeltaUnit1) :
    (∀ op ∈ ops, op.writeEnd (Job.of new base) ≤ MAX_CHUNK_SIZE) ∧
      ((Job.of new base).endSize ≠ 0 → s.deltaLen + sizeofDeltaUnit1 ≤ MAX_CHUNK_SIZE) := by
  have hhead := (Job.of new base).begSize_large
  have htail := (Job.of new base).endSize_large
  have hdis := (Job.of new base).trimmed_spec.disjoint
  have hend : (Job.of new base).newEnd + (Job.of new base).endSize = new.length := by
    rw [Job.newEnd]
    exact Nat.sub_add_cancel (by omega)
  rw [← begSize_of, ← endSize_of] at hroom
  rw [Job.headSaving] at hlen
  unfold copyHeader at hroom
  rw [sizeofDeltaUnit1, sizeofDeltaUnit2] at *
  refine ⟨fun op hop => ?_, fun hne => ?_⟩
  · have hwrite := (hgood op hop).writeEnd_le
    have hwithin := (hgood op hop).within
    rw [Job.headSaving, sizeofDeltaUnit1, sizeofDeltaUnit2] at hwrite
    split_ifs at hroom <;> omega
  · split_ifs at hroom <;> omega

/-- A chunk as long as the buffer, and a base that starts with 20 of its bytes. -/
def uniformChunk : Bytes := List.replicate MAX_CHUNK_SIZE 1

def similarBase : Bytes := List.replicate 20 1 ++ [2]

theorem length_uniformChunk : uniformChunk.length = MAX_CHUNK_SIZE := List.length_replicate ..

/-- A chunk of `MAX_CHUNK_SIZE` bytes, and a base without its byte. -/
def incompressibleJob : Job where
  newBuf := fun _ => 0
  newSize := MAX_CHUNK_SIZE
  baseBuf := fun _ => 1
  baseSize := 40

end ShieldReduce.Edelta
