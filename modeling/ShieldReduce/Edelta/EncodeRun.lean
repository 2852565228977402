import ShieldReduce.Edelta.EncodeBuffer

/-!
# Runs of the inline encoder

`EDeltaEncode` of `ecallFreqIndex.cc` once more, for what it does while it
runs: its loops have no result before their condition fails (`fuel` bounds
the rounds of each of them, and too little of it leaves the whole run
without a result), every `memcpy` into `deltaBuf` and every `set_length`
is noted when it is made, and `flag_handle_probe`, `InputLink` and the
probe that was found stay what they are from one iteration to the next,
with the flag 0 before the first.

`Enc` says what the encoder computes. `EcallFreqIndex.encode_inside` says
that a run ends and computes the same; on the way each write is put into
the bytes that `StringOp.writeEnd` allows the string it belongs to.
-/

namespace ShieldReduce.Edelta

open ByteLib LoopLib

/-! ## Accesses -/

/-- What an encoding does to `deltaBuf`, and to the words of its records. -/
inductive Access where
  /-- `memcpy` of `size` bytes to `deltaBuf + pos`. -/
  | write (pos : Int) (size : Nat)
  /-- `set_length` of a record whose word is `w`. -/
  | setLength (w : UInt32) (length : Nat)

/-- The write stays in a buffer of `n` bytes; the length leaves the flag
alone and is read back as it was stored. -/
def Access.Inside (n : Nat) : Access → Prop
  | .write pos size => 0 ≤ pos ∧ pos + size ≤ n
  | .setLength w length => length < 2 ^ 31 ∧
      getLength (Edelta.setLength w length) = length ∧
      getFlag (Edelta.setLength w length) = getFlag w

/-! ## Loops that may not end -/

/-- `Edelta.commonRun`, if both loops end. -/
def commonRun? (fuel : Nat) (inside : Nat → Bool) (same : Nat → Nat → Bool) : Option Nat := do
  let j ← whileRun (fun j => inside (j + 7) && same j 8) (fun j => some (j + 8)) fuel 0
  whileRun (fun j => inside j && same j 1) (fun j => some (j + 1)) fuel j

/-- The loop of `chunk_gear` at index `i`. -/
def chunkGearLoop? (p : Mem) (n : Nat) : (fuel : Nat) → (i : Nat) → UInt32 → Option Nat
  | 0, _, _ => none
  | fuel + 1, i, fingerprint =>
      if i ≤ n then
        let fingerprint := gearStep fingerprint (p i)
        if i ≤ STRMAX then
          if fingerprint &&& STRAVG = 0 then some i
          else chunkGearLoop? p n fuel (i + 1) fingerprint
        else some i
      else some i

def chunkGear? (fuel : Nat) (p : Mem) (n : Nat) : Option Nat :=
  if n ≤ STRMAX then some n else chunkGearLoop? p n fuel (STRMIN + 1) 0

/-- The loop of `rolling_gear_v3`. -/
def rollingGearLoop? (p : Mem) (n : Nat) :
    (fuel num : Nat) → (last i : Nat) → UInt32 → Option (List Nat)
  | 0, _, _, _, _ => none
  | _ + 1, 0, _, _, _ => some []
  | fuel + 1, num + 1, last, i, fingerprint =>
      if i < n then
        let fingerprint := gearStep fingerprint (p i)
        if i ≤ last + STRMAX ∧ fingerprint &&& STRAVG ≠ 0 then
          rollingGearLoop? p n fuel (num + 1) last (i + 1) fingerprint
        else (rollingGearLoop? p n fuel num i (i + STRMIN + 1) 0).map (i :: ·)
      else some (List.replicate (num + 1) n)

def chunkingV3? (fuel : Nat) (weakHash : Bytes → UInt64) (data : Mem) (len num : Nat) :
    Option (List DeltaRecord × Nat) := do
  let cut ← rollingGearLoop? data len fuel num 0 (STRMIN + 1) 0
  return (cutRecords weakHash data 0 cut, cut.getLastD 0)

/-! ## The locals and their accesses -/

/-- A job whose head and tail are known. -/
structure TrimmedJob extends Job where
  begSize : Nat
  endSize : Nat

namespace TrimmedJob

def newEnd (f : TrimmedJob) : Nat := f.newSize - f.endSize

def baseEnd (f : TrimmedJob) : Nat := f.baseSize - f.endSize

end TrimmedJob

/-- The locals of a run, and what it has accessed so far. -/
structure Traced where
  enc : Enc
  flagHandleProbe : Bool
  inputLink : List InputString
  hit : Option ProbeHit
  accesses : List Access

namespace Traced

/-- A change of locals that accesses nothing. -/
def update (s : Traced) (g : Enc → Enc) : Traced := { s with enc := g s.enc }

def put (s : Traced) (xs : Bytes) : Traced :=
  { s with
    enc := s.enc.put xs
    accesses := s.accesses ++ [.write s.enc.deltaLen xs.length] }

def patchHeader (s : Traced) : Traced :=
  { s with
    enc := s.enc.patchHeader
    accesses := s.accesses ++ [.write
      ((s.enc.deltaLen : Int) - getLength s.enc.record2.flagLength - sizeofDeltaUnit2)
      sizeofDeltaUnit2] }

def setLength1 (s : Traced) (length : Nat) : Traced :=
  { s with
    enc := s.enc.setLength1 length
    accesses := s.accesses ++ [.setLength s.enc.record1.flagLength length] }

def setLength2 (s : Traced) (length : Nat) : Traced :=
  { s with
    enc := s.enc.setLength2 length
    accesses := s.accesses ++ [.setLength s.enc.record2.flagLength length] }

def setOffset1 (s : Traced) (offset : Nat) : Traced := s.update (·.setOffset1 offset)

def unmatched (newBuf : Mem) (s : Traced) (length : Nat) : Traced :=
  let text := slice newBuf s.enc.inputPos length
  let s' :=
    if s.enc.flag = .unit2 then
      (s.put text).setLength2 (getLength s.enc.record2.flagLength + length)
    else
      let s := s.setLength2 length
      ((s.put s.enc.record2.toBytes).put text).update fun e => { e with flag := .unit2 }
  s'.update fun e => { e with
    cursorInput := s.enc.inputPos + length, inputPos := s.enc.inputPos + length }

/-- The output ends before the open literal. -/
def dropLiteral (s : Traced) : Traced :=
  s.update fun e => { e with
    deltaLen := e.deltaLen - getLength e.record2.flagLength - sizeofDeltaUnit2 }

def shrinkLiteral (s : Traced) (k : Nat) : Traced :=
  let s := s.dropLiteral
  let s := s.setLength2 (getLength s.enc.record2.flagLength - k)
  if 0 < getLength s.enc.record2.flagLength then
    (s.put s.enc.record2.toBytes).update fun e => { e with
      deltaLen := e.deltaLen + getLength e.record2.flagLength }
  else s

def giveBack (s : Traced) (k : Nat) : Traced :=
  if 0 < k then
    let s := s.shrinkLiteral k
    let s := s.setLength1 (getLength s.enc.record1.flagLength + k)
    s.setOffset1 (s.enc.record1.nOffset.toNat - k)
  else s

def copyUnit (s : Traced) (offset length : Nat) : Traced :=
  let s := (s.setOffset1 offset).setLength1 length
  (s.put s.enc.record1.toBytes).update fun e => { e with flag := .unit1 }

/-- The copy of a string that was extended by `j` bytes forwards and by `k`
bytes backwards. -/
def extendedCopy (s : Traced) (length : Nat) (r : DeltaRecord) (j k : Nat) : Traced :=
  let cursorInput := s.enc.inputPos + length + j
  let cursorBase := max s.enc.cursorBase (r.nOffset + length + j)
  let s := (s.setLength1 (cursorInput - s.enc.inputPos)).setOffset1 r.nOffset
  let s := s.giveBack k
  (s.put s.enc.record1.toBytes).update fun e => { e with
    flag := .unit1, cursorBase := cursorBase, cursorInput := cursorInput, inputPos := cursorInput }

/-! ## The main loop -/

section

variable (fuel : Nat) (f : TrimmedJob) (h : Heuristics)

def forward? (bpos npos : Nat) : Option Nat :=
  commonRun? fuel (fun j => bpos + j < f.baseEnd && npos + j < f.newEnd)
    (fun j w => slice f.baseBuf (bpos + j) w == slice f.newBuf (npos + j) w)

def backward? (bpos npos limit : Nat) : Option Nat :=
  whileRun (fun k => (decide (k + 1 ≤ bpos) && decide (k + 1 ≤ limit)) &&
    f.baseBuf (bpos - (k + 1)) == f.newBuf (npos - (k + 1))) (fun k => some (k + 1)) fuel 0

def matchedCopy? (s : Traced) (length : Nat) (r : DeltaRecord) : Option Traced := do
  let wasUnit2 := s.enc.flag = .unit2
  let s := if wasUnit2 then s.patchHeader else s
  let j ← forward? fuel f (r.nOffset + length) (s.enc.inputPos + length)
  let k ← if wasUnit2 then
      backward? fuel f r.nOffset s.enc.inputPos (getLength s.enc.record2.flagLength)
    else some 0
  return s.extendedCopy length r j k

def matched? (s : Traced) (length : Nat) (r : DeltaRecord) : Option Traced :=
  if length = r.nLength ∧
      slice f.newBuf s.enc.inputPos length = slice f.baseBuf r.nOffset length then
    matchedCopy? fuel f s length r
  else some (s.unmatched f.newBuf length)

def nextString? (s : Traced) : Option Traced := do
  let length ← chunkGear? fuel (fun i => f.newBuf (s.enc.inputPos + i)) (f.newEnd - s.enc.inputPos)
  match s.enc.psHTable.lookup (h.weakHash (slice f.newBuf s.enc.inputPos length)) with
  | some psDupSubCnk => matched? fuel f s length psDupSubCnk
  | none => some (s.unmatched f.newBuf length)

/-- As `Edelta.inputLink`, this cuts all the strings that a round looks up. -/
def inputLink? : (n cursor : Nat) → Option (List InputString)
  | 0, _ => some []
  | n + 1, cursor => do
      let length ← chunkGear? fuel (fun i => f.newBuf (cursor + i)) (f.newEnd - cursor)
      let link ← inputLink? n (cursor + length)
      return { nLength := length, nHash := h.weakHash (slice f.newBuf cursor length) } :: link

def chunkRounds? (link : List InputString) :
    (n chunkNumber cursorBase : Nat) → Htable DeltaRecord → Option Rounds
  | 0, _, cursorBase, t => some ⟨t, cursorBase, true, none⟩
  | n + 1, chunkNumber, cursorBase, t => do
      let (recs, numBytes) ← chunkingV3? fuel h.weakHash (fun i => f.baseBuf (cursorBase + i))
        (f.baseEnd - cursorBase) chunkNumber
      let (t, flagChunk) := insertBase cursorBase recs t
      let cursorBase := cursorBase + numBytes
      match findProbe t link with
      | some hit => some ⟨t, cursorBase, flagChunk, some hit⟩
      | none =>
          if flagChunk then chunkRounds? link n (chunkNumber * BASE_EXPAND) cursorBase t
          else some ⟨t, cursorBase, false, none⟩

/-- The block behind the pacing test. -/
def pacing? (s : Traced) : Option Traced :=
  if s.enc.flagChunk && h.pace s.enc.cursorInput f.newSize s.enc.cursorBase f.baseSize then do
    let link ← inputLink? fuel f h INPUT_TRY s.enc.cursorInput
    let rounds ← chunkRounds? fuel f h link BASE_STEP BASE_BEGIN s.enc.cursorBase s.enc.psHTable
    return { s with
      enc := { s.enc with
        psHTable := rounds.psHTable, cursorBase := rounds.cursorBase,
        flagChunk := rounds.flagChunk }
      flagHandleProbe := true
      inputLink := link
      hit := rounds.hit }
  else some s

/-- One iteration of the main loop. -/
def step? (s : Traced) : Option Traced := do
  let s ← pacing? fuel f h s
  if s.flagHandleProbe then
    let t := { s with flagHandleProbe := false }
    match s.hit with
    | some hit =>
        matched? fuel f (hit.before.foldl (fun s c => s.unmatched f.newBuf c.nLength) t)
          hit.probe.nLength hit.psDupSubCnk
    | none =>
        nextString? fuel f h
          (s.inputLink.foldl (fun s c => s.unmatched f.newBuf c.nLength) t)
  else nextString? fuel f h s

def mainLoop? (s : Traced) : Option Traced :=
  whileRun (fun s => decide (s.enc.inputPos < f.newEnd)) (step? fuel f h) fuel s

/-! ## Whole runs -/

/-- The declarations, with `flag_handle_probe` 0. -/
def init (t : Htable DeltaRecord) : Traced where
  enc := {
    deltaBuf := []
    deltaLen := 0
    flag := .none
    record1 := ⟨setFlag 0 false, 0⟩
    record2 := ⟨setFlag 0 true⟩
    cursorBase := f.begSize
    cursorInput := f.begSize
    inputPos := f.begSize
    flagChunk := true
    psHTable := t }
  flagHandleProbe := false
  inputLink := []
  hit := none
  accesses := []

def putHead (s : Traced) : Traced := if f.begSize ≠ 0 then s.copyUnit 0 f.begSize else s

def putTail (s : Traced) : Traced :=
  if f.endSize ≠ 0 then s.copyUnit (f.baseSize - f.endSize) f.endSize else s

/-- What is between head and tail, where they cover the base. -/
def putMiddle (s : Traced) : Traced :=
  if 0 < f.newSize - f.begSize - f.endSize then
    s.unmatched f.newBuf (f.newSize - f.begSize - f.endSize)
  else s

def trimmed (s : Traced) : Traced := putTail f (putMiddle f (putHead f s))

def searched? (s : Traced) : Option Traced := do
  let s ← mainLoop? fuel f h (putHead f s)
  let s := if s.enc.flag = .unit2 then s.patchHeader else s
  return putTail f s

end

end Traced

/-- The loops at the start, and the sizes they leave. -/
def Job.trim? (fuel : Nat) (f : Job) : Option TrimmedJob := do
  let headRun ← commonRun? fuel (fun j => j < f.baseSize && j < f.newSize)
    (fun j w => slice f.baseBuf j w == slice f.newBuf j w)
  let begSize := if 16 < headRun then headRun else 0
  let tailRun ← commonRun? fuel (fun j => j < f.baseSize && j < f.newSize)
    (fun j w => slice f.baseBuf (f.baseSize - j - w) w == slice f.newBuf (f.newSize - j - w) w)
  let endSize := if f.newSize < begSize + tailRun then f.newSize - begSize else tailRun
  return { f with begSize := begSize, endSize := if 16 < endSize then endSize else 0 }

/-- A run of `EcallFreqIndex::EDeltaEncode`, with the locals that it ends with. -/
def EcallFreqIndex.encode? (fuel : Nat) (h : Heuristics) (t : Htable DeltaRecord) (f : Job) :
    Option Traced := do
  let f ← f.trim? fuel
  if f.baseSize ≤ f.begSize + f.endSize then return (Traced.init f t).trimmed f
  else (Traced.init f t).searched? fuel f h

/-! ## The loops end -/

theorem commonRun?_eq {limit fuel : Nat} {inside : Nat → Bool} {same : Nat → Nat → Bool}
    (hlimit : ∀ k, inside k = true → k < limit) (hfuel : limit < fuel) :
    commonRun? fuel inside same = some (commonRun limit inside same) := by
  have hseven : ∀ k, (inside (k + 7) && same k 8) = true → k < limit := fun k hk => by
    have := hlimit (k + 7) (Bool.and_eq_true_iff.mp hk).1
    omega
  have hfirst : whileRun (fun j => inside (j + 7) && same j 8) (fun j => some (j + 8)) fuel 0 =
      some (whileLoop (fun j => inside (j + 7) && same j 8) (· + 8) limit 0) :=
    whileRun_of_exit 0 hfuel
      (whileLoop_add_exit (by decide) hseven limit 0 (Nat.le_add_left _ _))
  rw [commonRun?, hfirst]
  exact whileRun_of_exit _ hfuel (whileLoop_add_exit Nat.one_pos
    (fun k hk => hlimit k (Bool.and_eq_true_iff.mp hk).1) limit _ (Nat.le_add_left _ _))

theorem chunkGearLoop?_eq {p : Mem} {n : Nat} : ∀ (fuel fuel' i : Nat) (fp : UInt32),
    i ≤ STRMAX + 1 → STRMAX + 1 < i + fuel → STRMAX + 1 < i + fuel' →
      chunkGearLoop? p n fuel i fp = some (chunkGearLoop p n fuel' i fp)
  | 0, _, _, _, hi, hlt, _ => absurd hlt (by omega)
  | _ + 1, 0, _, _, hi, _, hlt => absurd hlt (by omega)
  | fuel + 1, fuel' + 1, i, fp, hi, hlt, hlt' => by
      rw [chunkGearLoop?, chunkGearLoop]
      dsimp only
      split_ifs with h1 h2 h3
      · rfl
      · exact chunkGearLoop?_eq fuel fuel' (i + 1) _ (by omega) (by omega) (by omega)
      · rfl
      · rfl

theorem chunkGear?_eq {fuel : Nat} (hfuel : STRMAX < fuel) (p : Mem) (n : Nat) :
    chunkGear? fuel p n = some (chunkGear p n) := by
  rw [chunkGear?, chunkGear]
  split
  · rfl
  · rename_i hn
    exact chunkGearLoop?_eq fuel n (STRMIN + 1) 0 (by decide) (by rw [STRMIN]; omega)
      (by rw [STRMIN]; omega)

theorem rollingGearLoop?_eq {p : Mem} {n : Nat} : ∀ (fuel fuel' num last i : Nat) (fp : UInt32),
    n - i < fuel → n - i < fuel' →
      rollingGearLoop? p n fuel num last i fp = some (rollingGearLoop p n fuel' num last i fp)
  | 0, _, _, _, _, _, hlt, _ => absurd hlt (Nat.not_lt_zero _)
  | _ + 1, 0, _, _, _, _, _, hlt => absurd hlt (Nat.not_lt_zero _)
  | _ + 1, _ + 1, 0, _, _, _, _, _ => rfl
  | fuel + 1, fuel' + 1, num + 1, last, i, fp, hlt, hlt' => by
      rw [rollingGearLoop?, rollingGearLoop]
      dsimp only
      split_ifs with h1 h2
      · exact rollingGearLoop?_eq fuel fuel' (num + 1) last (i + 1) _ (by omega) (by omega)
      · rw [rollingGearLoop?_eq fuel fuel' num i (i + STRMIN + 1) 0 (by omega) (by omega)]
        rfl
      · rfl

theorem chunkingV3?_eq {fuel len : Nat} (hfuel : len < fuel) (weakHash : Bytes → UInt64)
    (data : Mem) (num : Nat) :
    chunkingV3? fuel weakHash data len num = some (chunkingV3 weakHash data len num) := by
  rw [chunkingV3?, rollingGearLoop?_eq fuel (len + 1) num 0 (STRMIN + 1) 0 (by omega) (by omega)]
  rfl

/-- The job with the sizes of its head and tail. -/
def Job.trimmed (f : Job) : TrimmedJob := { f with begSize := f.begSize, endSize := f.endSize }

namespace Job

@[simp] theorem trimmed_newBuf (f : Job) : f.trimmed.newBuf = f.newBuf := rfl

@[simp] theorem trimmed_newSize (f : Job) : f.trimmed.newSize = f.newSize := rfl

@[simp] theorem trimmed_baseBuf (f : Job) : f.trimmed.baseBuf = f.baseBuf := rfl

@[simp] theorem trimmed_baseSize (f : Job) : f.trimmed.baseSize = f.baseSize := rfl

@[simp] theorem trimmed_begSize (f : Job) : f.trimmed.begSize = f.begSize := rfl

@[simp] theorem trimmed_endSize (f : Job) : f.trimmed.endSize = f.endSize := rfl

@[simp] theorem trimmed_newEnd (f : Job) : f.trimmed.newEnd = f.newEnd := rfl

@[simp] theorem trimmed_baseEnd (f : Job) : f.trimmed.baseEnd = f.baseEnd := rfl

end Job

theorem Job.trim?_eq {fuel : Nat} {f : Job} (hfuel : f.newSize < fuel) :
    f.trim? fuel = some f.trimmed := by
  have hinside : ∀ k, (decide (k < f.baseSize) && decide (k < f.newSize)) = true → k < f.newSize :=
    fun k hk => of_decide_eq_true (Bool.and_eq_true_iff.mp hk).2
  rw [Job.trim?, commonRun?_eq hinside hfuel, commonRun?_eq hinside hfuel]
  rfl

namespace Traced

section

variable {fuel : Nat} {f : Job} {h : Heuristics}

theorem forward?_eq (hfuel : f.newSize < fuel) (bpos npos : Nat) :
    forward? fuel f.trimmed bpos npos = some (Enc.forward f bpos npos) := by
  have hend := Enc.newEnd_le f
  refine commonRun?_eq (fun k hk => ?_) hfuel
  have hnew : npos + k < f.newEnd := of_decide_eq_true (Bool.and_eq_true_iff.mp hk).2
  omega

theorem backward?_eq {limit : Nat} (hfuel : limit + 1 < fuel) (bpos npos : Nat) :
    backward? fuel f.trimmed bpos npos limit = some (Enc.backward f bpos npos limit) := by
  have hlimit : ∀ k, ((decide (k + 1 ≤ bpos) && decide (k + 1 ≤ limit)) &&
      f.baseBuf (bpos - (k + 1)) == f.newBuf (npos - (k + 1))) = true → k < limit := by
    intro k hk
    obtain ⟨hin, -⟩ := Bool.and_eq_true_iff.mp hk
    exact of_decide_eq_true (Bool.and_eq_true_iff.mp hin).2
  exact whileRun_of_exit 0 hfuel
    (whileLoop_add_exit Nat.one_pos hlimit (limit + 1) 0 (by omega))

theorem inputLink?_eq (hfuel : STRMAX < fuel) : ∀ (n cursor : Nat),
    inputLink? fuel f.trimmed h n cursor = some (Edelta.inputLink f h n cursor)
  | 0, _ => rfl
  | n + 1, cursor => by
      rw [inputLink?, chunkGear?_eq hfuel]
      dsimp only [Option.bind_eq_bind, Option.bind_some]
      rw [inputLink?_eq hfuel n]
      rfl

theorem chunkRounds?_eq (hfuel : f.baseSize < fuel) (link : List InputString) :
    ∀ (n chunkNumber cursorBase : Nat) (t : Htable DeltaRecord),
      chunkRounds? fuel f.trimmed h link n chunkNumber cursorBase t =
        some (chunkRounds f h link n chunkNumber cursorBase t)
  | 0, _, _, _ => rfl
  | n + 1, chunkNumber, cursorBase, t => by
      have hbase : f.baseEnd - cursorBase < fuel := by
        have := Enc.baseEnd_le f
        omega
      simp only [chunkRounds?, chunkRounds, Job.trimmed_baseBuf, Job.trimmed_baseEnd,
        chunkingV3?_eq hbase, Option.bind_eq_bind, Option.bind_some]
      generalize chunkingV3 h.weakHash (fun i => f.baseBuf (cursorBase + i))
        (f.baseEnd - cursorBase) chunkNumber = chunked
      generalize insertBase cursorBase chunked.1 t = inserted
      cases findProbe inserted.1 link with
      | some hit => rfl
      | none =>
          dsimp only
          split
          · exact chunkRounds?_eq hfuel link n _ _ _
          · rfl

end

/-! ## What the locals become -/

@[simp] theorem enc_update (s : Traced) (g : Enc → Enc) : (s.update g).enc = g s.enc := rfl

@[simp] theorem enc_put (s : Traced) (xs : Bytes) : (s.put xs).enc = s.enc.put xs := rfl

@[simp] theorem enc_patchHeader (s : Traced) : s.patchHeader.enc = s.enc.patchHeader := rfl

@[simp] theorem enc_setLength1 (s : Traced) (n : Nat) :
    (s.setLength1 n).enc = s.enc.setLength1 n := rfl

@[simp] theorem enc_setLength2 (s : Traced) (n : Nat) :
    (s.setLength2 n).enc = s.enc.setLength2 n := rfl

@[simp] theorem enc_setOffset1 (s : Traced) (n : Nat) :
    (s.setOffset1 n).enc = s.enc.setOffset1 n := rfl

@[simp] theorem enc_copyUnit (s : Traced) (offset length : Nat) :
    (s.copyUnit offset length).enc = s.enc.copyUnit offset length := rfl

@[simp] theorem enc_unmatched (f : Job) (s : Traced) (length : Nat) :
    (s.unmatched f.newBuf length).enc = s.enc.unmatched f length := by
  unfold unmatched Enc.unmatched
  by_cases hflag : s.enc.flag = .unit2
  · simp only [if_pos hflag]
    rfl
  · simp only [if_neg hflag]
    rfl

@[simp] theorem enc_shrinkLiteral (s : Traced) (k : Nat) :
    (s.shrinkLiteral k).enc = s.enc.shrinkLiteral k := by
  unfold shrinkLiteral Enc.shrinkLiteral
  dsimp only
  rw [apply_ite Traced.enc]
  rfl

@[simp] theorem enc_giveBack (s : Traced) (k : Nat) : (s.giveBack k).enc = s.enc.giveBack k := by
  unfold giveBack Enc.giveBack
  split
  · simp only [enc_setOffset1, enc_setLength1, enc_shrinkLiteral]
  · rfl

@[simp] theorem flagHandleProbe_unmatched (newBuf : Mem) (s : Traced) (length : Nat) :
    (s.unmatched newBuf length).flagHandleProbe = s.flagHandleProbe := by
  unfold unmatched
  dsimp only
  split <;> rfl

@[simp] theorem flagHandleProbe_giveBack (s : Traced) (k : Nat) :
    (s.giveBack k).flagHandleProbe = s.flagHandleProbe := by
  unfold giveBack shrinkLiteral
  dsimp only
  split_ifs <;> rfl

/-! ## Where the accesses are -/

/-- All accesses so far stayed inside a buffer of `n` bytes. -/
def Inside (n : Nat) (s : Traced) : Prop := ∀ a ∈ s.accesses, a.Inside n

variable {n : Nat} {s : Traced}

theorem Inside.snoc (hs : s.Inside n) {a : Access} (ha : a.Inside n) :
    ∀ b ∈ s.accesses ++ [a], b.Inside n := by
  intro b hb
  rcases List.mem_append.mp hb with hb | hb
  · exact hs b hb
  · rw [List.mem_singleton.mp hb]
    exact ha

theorem inside_setLength (w : UInt32) {length : Nat} (hlt : length < 2 ^ 31) :
    (Access.setLength w length).Inside n :=
  ⟨hlt, getLength_setLength w hlt, getFlag_setLength w hlt⟩

theorem Inside.update (hs : s.Inside n) (g : Enc → Enc) : (s.update g).Inside n := hs

theorem Inside.setOffset1 (hs : s.Inside n) (offset : Nat) : (s.setOffset1 offset).Inside n := hs

theorem Inside.put (hs : s.Inside n) {xs : Bytes} (hend : s.enc.deltaLen + xs.length ≤ n) :
    (s.put xs).Inside n :=
  hs.snoc ⟨Int.natCast_nonneg _, by exact_mod_cast hend⟩

theorem Inside.setLength1 (hs : s.Inside n) {length : Nat} (hlt : length < 2 ^ 31) :
    (s.setLength1 length).Inside n := hs.snoc (inside_setLength _ hlt)

theorem Inside.setLength2 (hs : s.Inside n) {length : Nat} (hlt : length < 2 ^ 31) :
    (s.setLength2 length).Inside n := hs.snoc (inside_setLength _ hlt)

theorem Inside.patchHeader (hs : s.Inside n)
    (hlit : sizeofDeltaUnit2 + getLength s.enc.record2.flagLength ≤ s.enc.deltaLen)
    (hlen : s.enc.deltaLen ≤ n) : s.patchHeader.Inside n := by
  refine hs.snoc ⟨?_, ?_⟩ <;> omega

theorem Inside.copyUnit (hs : s.Inside n) {offset length : Nat} (hlt : length < 2 ^ 31)
    (hend : s.enc.deltaLen + sizeofDeltaUnit1 ≤ n) : (s.copyUnit offset length).Inside n :=
  Inside.put (s := (s.setOffset1 offset).setLength1 length)
    (Inside.setLength1 (hs.setOffset1 offset) hlt) hend

/-- A literal that is opened. -/
theorem Inside.unmatched_new (hs : s.Inside n) (hflag : s.enc.flag ≠ .unit2) (newBuf : Mem)
    {length : Nat} (hlt : length < 2 ^ 31)
    (hend : s.enc.deltaLen + sizeofDeltaUnit2 + length ≤ n) :
    (s.unmatched newBuf length).Inside n := by
  unfold unmatched
  simp only [if_neg hflag]
  have hset := hs.setLength2 hlt
  have hheader : (s.setLength2 length).enc.deltaLen +
      (s.setLength2 length).enc.record2.toBytes.length ≤ n := by
    change s.enc.deltaLen + 4 ≤ n
    rw [sizeofDeltaUnit2] at hend
    omega
  refine Inside.update (Inside.update (Inside.put (hset.put hheader) ?_) _) _
  rw [length_slice]
  exact hend

theorem Inside.unmatched (f : Job) (hs : s.Inside n) (hsmall : f.Small) (hready : s.enc.Ready f)
    {length : Nat} (hwithin : s.enc.inputPos + length ≤ f.newEnd)
    (hn : f.newSize + 20 ≤ n) : (s.unmatched f.newBuf length).Inside n := by
  have hend := StringOp.literalEnd_le hready.ledger length
  have hnew := Enc.newEnd_le f
  have hsn := hsmall.1
  rw [StringOp.literalEnd] at hend
  rw [sizeofDeltaUnit2] at hend
  rcases hready.inv.written with ⟨hflag, -⟩ | ⟨hflag, L, ho⟩
  · rw [if_neg hflag] at hend
    exact hs.unmatched_new hflag f.newBuf (by omega) (by rw [sizeofDeltaUnit2]; omega)
  · have hle := ho.le_pos
    have hL : getLength s.enc.record2.flagLength = L := by
      rw [ho.length2, getLength_litWord (by omega)]
    rw [if_pos hflag] at hend
    unfold Traced.unmatched
    simp only [if_pos hflag]
    refine Inside.update (Inside.setLength2 (hs.put ?_) ?_) _
    · rw [length_slice]
      omega
    · omega

/-- What is given back: the header of what is left of the literal, and two
lengths. -/
theorem Inside.giveBack {f : Job} {pos L k : Nat} (hs : s.Inside n) (ho : s.enc.Open f pos L)
    (hL : L < 2 ^ 31) (hlen : s.enc.deltaLen ≤ n)
    (hlt : getLength s.enc.record1.flagLength + k < 2 ^ 31) : (s.giveBack k).Inside n := by
  have hlit := ho.literal_le
  have hL2 : getLength s.enc.record2.flagLength = L := by rw [ho.length2, getLength_litWord hL]
  rw [sizeofDeltaUnit2] at hlit
  unfold Traced.giveBack
  split
  · refine Inside.setOffset1 (Inside.setLength1 ?_ ?_) _
    · have hset : (s.dropLiteral.setLength2 (getLength s.enc.record2.flagLength - k)).Inside n :=
        Inside.setLength2 hs (by omega)
      unfold shrinkLiteral
      dsimp only
      split
      · refine Inside.update (hset.put ?_) _
        change s.enc.deltaLen - getLength s.enc.record2.flagLength - sizeofDeltaUnit2 + 4 ≤ n
        rw [sizeofDeltaUnit2]
        omega
      · exact hset
    · rw [enc_shrinkLiteral, Enc.shrinkLiteral_record1]
      exact hlt
  · exact hs

/-! ## Strings -/

/-- A part of a run that begins in `s` ends with the locals `e`, leaves
`flag_handle_probe` alone and stays inside the buffer. -/
def EndsWith (n : Nat) (s : Traced) (e : Enc) (r : Option Traced) : Prop :=
  ∃ s', r = some s' ∧ s'.enc = e ∧ s'.flagHandleProbe = s.flagHandleProbe ∧
    (s.Inside n → s'.Inside n)

variable {fuel : Nat} {f : Job} {h : Heuristics}

theorem endsWith_unmatched (hs : f.Small) (hready : s.enc.Ready f) {length : Nat}
    (hwithin : s.enc.inputPos + length ≤ f.newEnd) (hn : f.newSize + 20 ≤ n) :
    EndsWith n s (s.enc.unmatched f length) (some (s.unmatched f.newBuf length)) :=
  ⟨_, rfl, enc_unmatched f s length, flagHandleProbe_unmatched _ s length,
    fun hin => hin.unmatched f hs hready hwithin hn⟩

theorem flagHandleProbe_extendedCopy (s : Traced) (length : Nat) (r : DeltaRecord) (j k : Nat) :
    (s.extendedCopy length r j k).flagHandleProbe = s.flagHandleProbe :=
  flagHandleProbe_giveBack ((s.setLength1 _).setOffset1 r.nOffset) k

/-- Without an open literal there is nothing to give back. -/
theorem enc_extendedCopy_zero (f : Job) {s : Traced} (hflag : s.enc.flag ≠ .unit2) (length : Nat)
    (r : DeltaRecord) : (s.extendedCopy length r
      (Enc.forward f (r.nOffset + length) (s.enc.inputPos + length)) 0).enc =
        s.enc.matchedCopy f length r := by
  simp only [Enc.matchedCopy, hflag, if_false]
  rfl

theorem enc_extendedCopy_patch (f : Job) {s : Traced} (hflag : s.enc.flag = .unit2) (length : Nat)
    (r : DeltaRecord) : (s.patchHeader.extendedCopy length r
      (Enc.forward f (r.nOffset + length) (s.enc.inputPos + length))
      (Enc.backward f r.nOffset s.enc.inputPos (getLength s.enc.record2.flagLength))).enc =
        s.enc.matchedCopy f length r := by
  simp only [Enc.matchedCopy, hflag, if_true]
  unfold extendedCopy
  dsimp only [enc_update, enc_put]
  rw [enc_giveBack]
  rfl

theorem Inside.extendedCopy_zero (hs : s.Inside n) {length : Nat} {r : DeltaRecord} {j : Nat}
    (hlt : length + j < 2 ^ 31) (hend : s.enc.deltaLen + sizeofDeltaUnit1 ≤ n) :
    (s.extendedCopy length r j 0).Inside n := by
  refine Inside.update (Inside.put (Inside.setOffset1 (hs.setLength1 ?_) _) ?_) _
  · omega
  · exact hend

theorem Inside.extendedCopy {L k : Nat} (hs : s.Inside n)
    (ho : s.enc.Open f s.enc.inputPos L) (hL : L < 2 ^ 31) {length j : Nat} {r : DeltaRecord}
    (hkL : k ≤ L) (hlt : length + j + k < 2 ^ 31) (hend : s.enc.deltaLen + sizeofDeltaUnit1 ≤ n) :
    (s.extendedCopy length r j k).Inside n := by
  have hlen : s.enc.inputPos + length + j - s.enc.inputPos = length + j := by omega
  unfold Traced.extendedCopy
  dsimp only
  rw [hlen]
  have hlength : length + j < 2 ^ 31 := by omega
  have hset := Inside.setOffset1 (hs.setLength1 hlength) r.nOffset
  have hword := getLength_setLength s.enc.record1.flagLength (n := length + j) hlength
  have hopen : ((s.setLength1 (length + j)).setOffset1 r.nOffset).enc.Open f s.enc.inputPos L :=
    ⟨ho.len, ho.words.setLength1 (by omega), ho.length2, ho.le_pos, ho.spells⟩
  have hback := hset.giveBack hopen hL (show s.enc.deltaLen ≤ n by omega) (k := k) (by
    change getLength (setLength s.enc.record1.flagLength (length + j)) + k < 2 ^ 31
    rw [hword]
    exact hlt)
  refine Inside.update (hback.put ?_) _
  rw [enc_giveBack, (hopen.giveBack_size hL hkL).1, DeltaUnit1.length_toBytes]
  change s.enc.deltaLen - k - _ + 8 ≤ n
  rw [sizeofDeltaUnit1] at hend
  omega

theorem endsWith_matchedCopy (hs : f.Small) (hfuel : f.newSize + 1 < fuel)
    (hready : s.enc.Ready f) {length : Nat} (r : DeltaRecord)
    (hwithin : s.enc.inputPos + length ≤ f.newEnd) (hn : f.newSize + 20 ≤ n) :
    EndsWith n s (s.enc.matchedCopy f length r) (matchedCopy? fuel f.trimmed s length r) := by
  have hnew := Enc.newEnd_le f
  have hsn := hs.1
  have hledger := hready.ledger
  obtain ⟨-, hj⟩ := Enc.forward_spec f (r.nOffset + length) (s.enc.inputPos + length)
  have hrounds : f.newSize < fuel := by omega
  have hforward := forward?_eq hrounds (r.nOffset + length) (s.enc.inputPos + length)
  rw [Enc.Ledger] at hledger
  rcases hready.inv.written with ⟨hflag, -⟩ | ⟨hflag, L, ho⟩
  · rw [if_neg hflag] at hledger
    refine ⟨_, ?_, enc_extendedCopy_zero f hflag length r, flagHandleProbe_extendedCopy .., ?_⟩
    · simp only [matchedCopy?, hflag, if_false, hforward, Option.bind_eq_bind, Option.bind_some]
      rfl
    · intro hin
      exact hin.extendedCopy_zero (by omega) (by rw [sizeofDeltaUnit1]; omega)
  · have hle := ho.le_pos
    have hL : getLength s.enc.record2.flagLength = L := by
      rw [ho.length2, getLength_litWord (by omega)]
    obtain ⟨-, hk, -⟩ := Enc.backward_spec f r.nOffset hle
    have hlimit : L + 1 < fuel := by omega
    have hbackward := backward?_eq (f := f) hlimit r.nOffset s.enc.inputPos
    have hlit := ho.literal_le
    rw [if_pos hflag, sizeofDeltaUnit2] at hledger
    rw [sizeofDeltaUnit2] at hlit
    refine ⟨_, ?_, enc_extendedCopy_patch f hflag length r, flagHandleProbe_extendedCopy .., ?_⟩
    · simp only [matchedCopy?, hflag, if_true, enc_patchHeader, Enc.patchHeader_inputPos,
        Enc.patchHeader_record2, hforward, hL, hbackward, Option.bind_eq_bind, Option.bind_some]
      rfl
    · intro hin
      have hpatch := hin.patchHeader (by rw [hL, sizeofDeltaUnit2]; omega) (by omega)
      rw [hL]
      exact hpatch.extendedCopy (ho.patchHeader (by omega)).2 (by omega) hk (by omega)
        (by change s.enc.deltaLen + 8 ≤ n; omega)

theorem endsWith_matched (hs : f.Small) (hfuel : f.newSize + 1 < fuel) (hready : s.enc.Ready f)
    {length : Nat} (r : DeltaRecord) (hwithin : s.enc.inputPos + length ≤ f.newEnd)
    (hn : f.newSize + 20 ≤ n) :
    EndsWith n s (s.enc.matched f length r) (matched? fuel f.trimmed s length r) := by
  rw [Enc.matched]
  by_cases heq : length = r.nLength ∧
      slice f.newBuf s.enc.inputPos length = slice f.baseBuf r.nOffset length
  · rw [if_pos heq, show matched? fuel f.trimmed s length r =
      matchedCopy? fuel f.trimmed s length r from if_pos heq]
    exact endsWith_matchedCopy hs hfuel hready r hwithin hn
  · rw [if_neg heq, show matched? fuel f.trimmed s length r =
      some (s.unmatched f.newBuf length) from if_neg heq]
    exact endsWith_unmatched hs hready hwithin hn

theorem endsWith_nextString (hs : f.Small) (hfuel : f.newSize + 1 < fuel) (hmax : STRMAX < fuel)
    (hready : s.enc.Ready f) (hn : f.newSize + 20 ≤ n) :
    EndsWith n s (s.enc.nextString f h) (nextString? fuel f.trimmed h s) := by
  have hb := chunkGear_bounds (fun i => f.newBuf (s.enc.inputPos + i)) (f.newEnd - s.enc.inputPos)
  have hpos := hready.inv.pos_le
  simp only [nextString?, Enc.nextString, Job.trimmed_newBuf, Job.trimmed_newEnd,
    chunkGear?_eq hmax, Option.bind_eq_bind, Option.bind_some]
  generalize chunkGear (fun i => f.newBuf (s.enc.inputPos + i)) (f.newEnd - s.enc.inputPos) = length
    at hb ⊢
  cases s.enc.psHTable.lookup (h.weakHash (slice f.newBuf s.enc.inputPos length)) with
  | some r => exact endsWith_matched hs hfuel hready r (by omega) hn
  | none => exact endsWith_unmatched hs hready (by omega) hn

/-- The probes before the one that is found. -/
theorem foldl_unmatched (hs : f.Small) (hn : f.newSize + 20 ≤ n) :
    ∀ (xs : List InputString) {ys : List InputString} {s : Traced}, s.enc.Ready f →
      Probes f s.enc.inputPos (xs ++ ys) →
      let s' := xs.foldl (fun s c => s.unmatched f.newBuf c.nLength) s
      s'.enc = xs.foldl (fun s c => s.unmatched f c.nLength) s.enc ∧
        s'.flagHandleProbe = s.flagHandleProbe ∧ s'.enc.Ready f ∧
        Probes f s'.enc.inputPos ys ∧ (s.Inside n → s'.Inside n)
  | [], _, _, hready, hp => ⟨rfl, rfl, hready, hp, id⟩
  | c :: xs, ys, s, hready, ⟨hle, _, _, hp⟩ => by
      obtain ⟨hinv, hpos⟩ := hready.inv.unmatched hs hle
      have hnext : (s.unmatched f.newBuf c.nLength).enc.Ready f := by
        rw [enc_unmatched]
        exact ⟨hinv, StringOp.unmatched_ledger hready.ledger c.nLength⟩
      rw [← hpos, ← enc_unmatched] at hp
      obtain ⟨henc, hflag, hready', hp', hin⟩ := foldl_unmatched hs hn xs hnext hp
      rw [enc_unmatched] at henc
      refine ⟨henc, hflag.trans (flagHandleProbe_unmatched ..), hready', hp', fun hi => ?_⟩
      exact hin (hi.unmatched f hs hready hle hn)

theorem EndsWith.after {t : Traced} {e : Enc} {r : Option Traced} (h : EndsWith n t e r)
    (hflag : t.flagHandleProbe = s.flagHandleProbe) (hin : s.Inside n → t.Inside n) :
    EndsWith n s e r := by
  obtain ⟨s', hrun, henc, hflag', hin'⟩ := h
  exact ⟨s', hrun, henc, hflag'.trans hflag, fun hi => hin' (hin hi)⟩

theorem pacing?_eq (hbase : f.baseSize < fuel) (hmax : STRMAX < fuel)
    (hpace : (s.enc.flagChunk &&
      h.pace s.enc.cursorInput f.newSize s.enc.cursorBase f.baseSize) = true) :
    pacing? fuel f.trimmed h s =
      let link := Edelta.inputLink f h INPUT_TRY s.enc.cursorInput
      let rounds := chunkRounds f h link BASE_STEP BASE_BEGIN s.enc.cursorBase s.enc.psHTable
      some { s with
        enc := { s.enc with
          psHTable := rounds.psHTable, cursorBase := rounds.cursorBase,
          flagChunk := rounds.flagChunk }
        flagHandleProbe := true
        inputLink := link
        hit := rounds.hit } := by
  refine (if_pos hpace).trans ?_
  simp only [inputLink?_eq hmax, chunkRounds?_eq hbase, Option.bind_eq_bind, Option.bind_some]
  rfl

theorem pacing?_eq_self
    (hpace : ¬ (s.enc.flagChunk &&
      h.pace s.enc.cursorInput f.newSize s.enc.cursorBase f.baseSize) = true) :
    pacing? fuel f.trimmed h s = some s := if_neg hpace

/-- An iteration that begins with `flag_handle_probe` 0 ends, leaves it 0 and does
what `Enc.step` does. -/
theorem endsWith_step (hs : f.Small) (hfuel : f.newSize + 1 < fuel) (hbase : f.baseSize < fuel)
    (hmax : STRMAX < fuel) (hready : s.enc.Ready f) (hflag : s.flagHandleProbe = false)
    (hn : f.newSize + 20 ≤ n) :
    EndsWith n s (s.enc.step f h) (step? fuel f.trimmed h s) := by
  rw [step?, Enc.step]
  by_cases hpace : (s.enc.flagChunk &&
      h.pace s.enc.cursorInput f.newSize s.enc.cursorBase f.baseSize) = true
  · obtain ⟨hcb, ht, hhit⟩ := chunkRounds_spec f h
      (Edelta.inputLink f h INPUT_TRY s.enc.cursorInput) BASE_STEP BASE_BEGIN s.enc.cursorBase
      s.enc.psHTable hready.inv.base_le hready.inv.table
    have hcur : s.enc.cursorInput ≤ f.newEnd := hready.inv.cursor ▸ hready.inv.pos_le
    have hp := probes_inputLink f h INPUT_TRY s.enc.cursorInput hcur
    rw [if_pos hpace, pacing?_eq hbase hmax hpace]
    dsimp only [Option.bind_eq_bind, Option.bind_some]
    rw [if_pos rfl]
    generalize Edelta.inputLink f h INPUT_TRY s.enc.cursorInput = link at *
    generalize chunkRounds f h link BASE_STEP BASE_BEGIN s.enc.cursorBase s.enc.psHTable = rounds
      at *
    rw [hready.inv.cursor] at hp
    generalize he : ({ s.enc with
      psHTable := rounds.psHTable, cursorBase := rounds.cursorBase,
      flagChunk := rounds.flagChunk } : Enc) = e
    have hready' : e.Ready f := by
      subst he
      exact ⟨hready.inv.rounds rounds hcb ht, hready.ledger⟩
    rw [show s.enc.inputPos = e.inputPos by rw [← he]] at hp
    generalize hu : ({ s with
      enc := e, flagHandleProbe := false, inputLink := link, hit := rounds.hit } : Traced) = u
    have henc : u.enc = e := by rw [← hu]
    have hkeep : u.flagHandleProbe = s.flagHandleProbe := by rw [← hu, hflag]
    have hin : s.Inside n → u.Inside n := fun hi => by rw [← hu]; exact hi
    rw [← henc] at hready' hp ⊢
    cases heq : rounds.hit with
    | some hit =>
        obtain ⟨-, rest, hsplit⟩ := hhit hit heq
        rw [hsplit] at hp
        obtain ⟨hv, hvflag, hvready, ⟨hle, -, -⟩, hvin⟩ :=
          foldl_unmatched hs hn hit.before hready' hp
        have hend := endsWith_matched hs hfuel hvready hit.psDupSubCnk hle hn
        rw [hv] at hend
        exact hend.after (hvflag.trans hkeep) fun hi => hvin (hin hi)
    | none =>
        rw [← List.append_nil link] at hp
        obtain ⟨hv, hvflag, hvready, -, hvin⟩ := foldl_unmatched hs hn link hready' hp
        have hend := endsWith_nextString (h := h) hs hfuel hmax hvready hn
        rw [hv] at hend
        exact hend.after (hvflag.trans hkeep) fun hi => hvin (hin hi)
  · rw [if_neg hpace, pacing?_eq_self hpace]
    simp only [Option.bind_eq_bind, Option.bind_some, hflag, Bool.false_eq_true, if_false]
    exact endsWith_nextString hs hfuel hmax hready hn

/-! ## Whole runs -/

/-- The main loop ends. -/
theorem mainLoop?_spec (hs : f.Small) (hfuel : f.newSize + 1 < fuel) (hbase : f.baseSize < fuel)
    (hmax : STRMAX < fuel) (hn : f.newSize + 20 ≤ n) (hinv : s.enc.LoopInv f)
    (hbal : s.enc.Balanced f) (hflag : s.flagHandleProbe = false) (hin : s.Inside n) :
    ∃ s', mainLoop? fuel f.trimmed h s = some s' ∧ s'.enc = s.enc.mainLoop f h ∧
      s'.enc.LoopInv f ∧ s'.enc.Balanced f ∧ s'.Inside n := by
  have hexit := (hinv.mainLoop (h := h) hs).2
  have hstep : ∀ t : Traced, (t.enc.LoopInv f ∧ t.enc.Balanced f ∧ t.flagHandleProbe = false ∧
        t.Inside n) → decide (t.enc.inputPos < f.trimmed.newEnd) = true →
      ∃ t', step? fuel f.trimmed h t = some t' ∧ t'.enc = t.enc.step f h ∧ t'.enc.LoopInv f ∧
        t'.enc.Balanced f ∧ t'.flagHandleProbe = false ∧ t'.Inside n := by
    rintro t ⟨hinv, hbal, hflag, hin⟩ hc
    have hlt := of_decide_eq_true hc
    have hready := hbal.ready hinv hlt
    obtain ⟨t', hrun, henc, hflag', hin'⟩ := endsWith_step hs hfuel hbase hmax hready hflag hn
    refine ⟨t', hrun, henc, ?_, ?_, hflag'.trans hflag, hin' hin⟩
    · rw [henc]
      exact (hinv.step hs hlt).1
    · rw [henc]
      exact hready.balanced_step hs h
  obtain ⟨s', hrun, henc, hinv', hbal', -, hin'⟩ :=
    whileRun_sim Traced.enc (fun e => decide (e.inputPos < f.newEnd)) (fun _ => rfl)
      hstep s ⟨hinv, hbal, hflag, hin⟩ hfuel (decide_eq_false (by
        change ¬ (s.enc.mainLoop f h).inputPos < f.newEnd
        omega))
  exact ⟨s', hrun, henc, hinv', hbal', hin'⟩

theorem inside_init (f : TrimmedJob) (t : Htable DeltaRecord) : (init f t).Inside n :=
  fun _ ha => absurd ha List.not_mem_nil

@[simp] theorem enc_putHead (f : Job) (t : Htable DeltaRecord) :
    (putHead f.trimmed (init f.trimmed t)).enc = (Enc.init f t).afterHead f := by
  unfold putHead Enc.afterHead
  rw [apply_ite Traced.enc]
  rfl

theorem flagHandleProbe_putHead (f : Job) (t : Htable DeltaRecord) :
    (putHead f.trimmed (init f.trimmed t)).flagHandleProbe = false := by
  unfold putHead
  split <;> rfl

theorem inside_putHead (hs : f.Small) (t : Htable DeltaRecord) (hn : f.newSize + 20 ≤ n) :
    (putHead f.trimmed (init f.trimmed t)).Inside n := by
  have hbeg := f.begSize_spec.2.2
  have hsn := hs.1
  unfold putHead
  split
  · exact (inside_init f.trimmed t).copyUnit (by rw [Job.trimmed_begSize]; omega)
      (by change 0 + 8 ≤ n; omega)
  · exact inside_init f.trimmed t

@[simp] theorem enc_putTail (f : Job) (s : Traced) :
    (putTail f.trimmed s).enc = s.enc.putTail f := by
  unfold putTail Enc.putTail
  rw [apply_ite Traced.enc]
  rfl

theorem Inside.putTail (hin : s.Inside n) (hs : f.Small)
    (hend : s.enc.deltaLen + sizeofDeltaUnit1 ≤ n) : (Traced.putTail f.trimmed s).Inside n := by
  have htail := f.trimmed_spec.disjoint
  have hsn := hs.1
  unfold Traced.putTail
  split
  · exact hin.copyUnit (by rw [Job.trimmed_endSize]; omega) hend
  · exact hin

@[simp] theorem enc_putMiddle (f : Job) (s : Traced) :
    (putMiddle f.trimmed s).enc = if 0 < f.newSize - f.begSize - f.endSize then
      s.enc.unmatched f (f.newSize - f.begSize - f.endSize) else s.enc := by
  unfold putMiddle
  rw [apply_ite Traced.enc, Job.trimmed_newBuf, enc_unmatched]
  rfl

/-- Head, middle and tail, where the first two cover the base. -/
theorem enc_trimmed (f : Job) (t : Htable DeltaRecord) :
    ((init f.trimmed t).trimmed f.trimmed).enc = (Enc.init f t).trimmed f := by
  rw [trimmed, enc_putTail, enc_putMiddle, enc_putHead]
  rfl

theorem inside_trimmed (hs : f.Small) (t : Htable DeltaRecord) (hn : f.newSize + 20 ≤ n) :
    ((init f.trimmed t).trimmed f.trimmed).Inside n := by
  obtain ⟨hlen, hbuf⟩ := Enc.afterHead_touched f t
  have hflag := Enc.afterHead_flag f t
  have hin := inside_putHead hs t hn
  have hsn := hs.1
  have hhead : ((Enc.init f t).afterHead f).deltaLen ≤ 8 := by
    rw [hlen, sizeofDeltaUnit1]
    split <;> omega
  have htouched := (Enc.unmatched_touched (hbuf.trans hlen.symm) hflag
    (f.newSize - f.begSize - f.endSize) (f := f)).1
  rw [← enc_putHead] at hflag hhead htouched
  rw [trimmed]
  generalize putHead f.trimmed (init f.trimmed t) = s at *
  rw [sizeofDeltaUnit2] at htouched
  have hend : (putMiddle f.trimmed s).enc.deltaLen + sizeofDeltaUnit1 ≤ n := by
    rw [enc_putMiddle, sizeofDeltaUnit1]
    split
    · rw [htouched]
      omega
    · omega
  refine Inside.putTail ?_ hs hend
  unfold putMiddle
  split
  · refine hin.unmatched_new hflag _ ?_ ?_
    · simp only [Job.trimmed_newSize]
      omega
    · simp only [Job.trimmed_newSize, Job.trimmed_begSize, Job.trimmed_endSize, sizeofDeltaUnit2]
      omega
  · exact hin

/-- The run through the main loop. -/
theorem searched?_spec (hs : f.Small) (hfuel : f.newSize + 1 < fuel) (hbase : f.baseSize < fuel)
    (hmax : STRMAX < fuel) (hn : f.newSize + 20 ≤ n) {t : Htable DeltaRecord} (ht : t.Clean)
    (hsearch : f.begSize + f.endSize < f.baseSize) :
    ∃ s', (init f.trimmed t).searched? fuel f.trimmed h = some s' ∧
      s'.enc = (Enc.init f t).searched f h ∧ s'.Inside n := by
  have hinv : ((Enc.init f t).afterHead f).LoopInv f := Enc.head_loopInv hs hsearch ht
  have hnew := Enc.newEnd_le f
  have hsn := hs.1
  have hend := (hinv.mainLoop (h := h) hs).2
  obtain ⟨s', hrun, henc, hinv', hbal', hin'⟩ := mainLoop?_spec (h := h) hs hfuel hbase hmax hn
    (s := putHead f.trimmed (init f.trimmed t)) (by rw [enc_putHead]; exact hinv)
    (by rw [enc_putHead]; exact Or.inl (Enc.afterHead_ledger hs t))
    (flagHandleProbe_putHead f t) (inside_putHead hs t hn)
  rw [enc_putHead] at henc
  have hlen := hbal'.deltaLen_le (by rw [henc]; exact hend)
  rw [sizeofDeltaUnit1, sizeofDeltaUnit2] at hlen
  refine ⟨putTail f.trimmed (if s'.enc.flag = .unit2 then s'.patchHeader else s'), ?_, ?_, ?_⟩
  · rw [searched?, hrun]
    rfl
  · rw [enc_putTail, apply_ite Traced.enc, enc_patchHeader, henc]
    rfl
  · rcases hinv'.written with ⟨hflag, -⟩ | ⟨hflag, L, ho⟩
    · rw [if_neg hflag]
      exact hin'.putTail hs (by rw [sizeofDeltaUnit1]; omega)
    · have hle := ho.le_pos
      have hpos := hinv'.pos_le
      have hL : getLength s'.enc.record2.flagLength = L := by
        rw [ho.length2, getLength_litWord (by omega)]
      rw [if_pos hflag]
      have hpatch := hin'.patchHeader (by rw [hL]; exact ho.literal_le) (by omega)
      exact hpatch.putTail hs (by change s'.enc.deltaLen + 8 ≤ n; omega)

end Traced

/-- **The inline encoder ends, and stays inside its buffer.** For chunks of at most
`MAX_CHUNK_SIZE` bytes and any pacing test, no loop takes more than
`MAX_CHUNK_SIZE + 1` rounds; the run writes the delta of `eDeltaEncode`; all
its writes are below `2 * MAX_CHUNK_SIZE`, the size of `deltaBuffer_`; and each
length that it stores is below `2 ^ 31`, so that it is read back as it was
stored and the flag stays what it was. -/
theorem EcallFreqIndex.encode_inside (h : Heuristics) (t : CleanTable) (f : Job)
    (hnew : f.newSize ≤ MAX_CHUNK_SIZE) (hbase : f.baseSize ≤ MAX_CHUNK_SIZE) (fuel : Nat)
    (hfuel : MAX_CHUNK_SIZE + 1 < fuel) :
    ∃ s, EcallFreqIndex.encode? fuel h t.1 f = some s ∧
      s.enc.output = (EcallFreqIndex.eDeltaEncode h t f).1 ∧
      ∀ a ∈ s.accesses, a.Inside (2 * MAX_CHUNK_SIZE) := by
  have hs := Job.small_of_le hnew hbase
  have hmax : STRMAX < fuel := by rw [MAX_CHUNK_SIZE] at hfuel; rw [STRMAX]; omega
  have hn : f.newSize + 20 ≤ 2 * MAX_CHUNK_SIZE := by rw [MAX_CHUNK_SIZE] at hnew ⊢; omega
  have hrounds : f.newSize < fuel := by omega
  have htrim := Job.trim?_eq hrounds
  unfold EcallFreqIndex.encode? EcallFreqIndex.eDeltaEncode
  rw [htrim]
  by_cases hcover : f.baseSize ≤ f.begSize + f.endSize
  · rw [if_pos hcover]
    exact ⟨_, if_pos hcover, congrArg Enc.output (Traced.enc_trimmed f t.1),
      Traced.inside_trimmed hs t.1 hn⟩
  · obtain ⟨s, hrun, henc, hin⟩ := Traced.searched?_spec (h := h) hs (by omega) (by omega)
      hmax hn t.2 (Nat.lt_of_not_le hcover)
    rw [if_neg hcover]
    exact ⟨s, (if_neg hcover).trans hrun, congrArg Enc.output henc, hin⟩

theorem EcallFreqIndex.encode_inside_sample :
    sampleJob.newSize ≤ MAX_CHUNK_SIZE ∧ sampleJob.baseSize ≤ MAX_CHUNK_SIZE ∧
      ∃ s, EcallFreqIndex.encode? (MAX_CHUNK_SIZE + 2) ⟨fun _ => 0, fun _ _ _ _ => true⟩
          (Htable.init 16384) sampleJob = some s ∧
        s.enc.output = (EcallFreqIndex.eDeltaEncode ⟨fun _ => 0, fun _ _ _ _ => true⟩
          ⟨Htable.init 16384, Htable.clean_init 16384⟩ sampleJob).1 ∧
        ∀ a ∈ s.accesses, a.Inside (2 * MAX_CHUNK_SIZE) :=
  ⟨by decide, by decide,
    EcallFreqIndex.encode_inside ⟨fun _ => 0, fun _ _ _ _ => true⟩
      ⟨Htable.init 16384, Htable.clean_init 16384⟩ sampleJob (by decide) (by decide)
      (MAX_CHUNK_SIZE + 2) (by decide)⟩

end ShieldReduce.Edelta
