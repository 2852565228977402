import ShieldReduce.ConstVar
import ShieldReduce.Lib.Loop
import ShieldReduce.Edelta.Gear
import ShieldReduce.Edelta.Htable
import ShieldReduce.Edelta.Units

/-!
# The EDelta encoder

`EDeltaEncode` of `ecallFreqIndex.cc`, and its twin of `ecallOffline.cc`.
The common head and tail of the two chunks are trimmed first. The rest
of the new chunk is cut into strings that are looked up in a table of
the base's strings; the base is cut lazily, a few strings at a time,
whenever the pacing test says that the input has caught up, and the
first strings of the input after such a round are *probes* that decide
how much of the base one round cuts. A string that is found and equal is
extended in both directions and becomes a copy unit; the others are
gathered in one literal unit whose header is patched when the literal
ends.

The floating-point pacing test and `weakHash` are parameters: nothing
depends on what they answer. Positions and sizes are natural numbers,
since both chunks are far below the range of the source's 32-bit words;
the words of the delta units are 32-bit words.
-/

namespace ShieldReduce.Edelta

open ByteLib LoopLib

def BASE_BEGIN : Nat := 5

def BASE_EXPAND : Nat := 3

def BASE_STEP : Nat := 3

def INPUT_TRY : Nat := 5

/-- The hash of a string, and `(cursor_input / (float)newSize) + 0.5 >=
(cursor_base / (float)baseSize)` of its four numbers. -/
structure Heuristics where
  weakHash : Bytes → UInt64
  pace : (cursorInput newSize cursorBase baseSize : Nat) → Bool

/-- The arguments of one encoding. -/
structure Job where
  newBuf : Mem
  newSize : Nat
  baseBuf : Mem
  baseSize : Nat

/-! ## Head and tail of the two chunks -/

/-- Length of a common run, first by eight bytes and then by one. The
length stays at most `fuel`, which bounds the rounds of both loops. -/
def commonRun (fuel : Nat) (inside : Nat → Bool) (same : Nat → Nat → Bool) : Nat :=
  let j := whileLoop (fun j => inside (j + 7) && same j 8) (· + 8) fuel 0
  whileLoop (fun j => inside j && same j 1) (· + 1) fuel j

namespace Job

/-- The head match: `baseBuf[begSize..]` against `newBuf[begSize..]`. -/
def headRun (f : Job) : Nat :=
  commonRun f.newSize (fun j => j < f.baseSize && j < f.newSize)
    (fun j w => slice f.baseBuf j w == slice f.newBuf j w)

/-- The tail match, read backwards from both ends. -/
def tailRun (f : Job) : Nat :=
  commonRun f.newSize (fun j => j < f.baseSize && j < f.newSize)
    (fun j w => slice f.baseBuf (f.baseSize - j - w) w == slice f.newBuf (f.newSize - j - w) w)

/-- `begSize` after the threshold; `beg` is `begSize ≠ 0`. -/
def begSize (f : Job) : Nat := if 16 < f.headRun then f.headRun else 0

/-- `endSize` after it was cut down to what the head left and after the
threshold; `end` is `endSize ≠ 0`. -/
def endSize (f : Job) : Nat :=
  let endSize := if f.newSize < f.begSize + f.tailRun then f.newSize - f.begSize else f.tailRun
  if 16 < endSize then endSize else 0

/-- `newSize - endSize`, where the main loop stops. -/
def newEnd (f : Job) : Nat := f.newSize - f.endSize

/-- `baseSize - endSize`, what the base is chunked up to. -/
def baseEnd (f : Job) : Nat := f.baseSize - f.endSize

end Job

/-! ## The locals of the main loop -/

/-- The last unit in `deltaBuf`: `flag` of the source, 0, 1 or 2. -/
inductive LastUnit where
  | none
  | unit1
  | unit2
deriving DecidableEq

/-- The encoder's locals. `deltaBuf` is the output buffer as far as it
was ever written; `deltaLen` may move back behind that point. -/
structure Enc where
  deltaBuf : Bytes
  deltaLen : Nat
  flag : LastUnit
  record1 : DeltaUnit1
  record2 : DeltaUnit2
  cursorBase : Nat
  cursorInput : Nat
  inputPos : Nat
  flagChunk : Bool
  psHTable : Htable DeltaRecord

namespace Enc

/-- `memcpy(deltaBuf + deltaLen, xs, |xs|); deltaLen += |xs|`. -/
def put (s : Enc) (xs : Bytes) : Enc :=
  { s with deltaBuf := writeAt s.deltaBuf s.deltaLen xs, deltaLen := s.deltaLen + xs.length }

/-- The header of the open literal, overwritten with the length it has
grown to. -/
def patchHeader (s : Enc) : Enc :=
  { s with
    deltaBuf := writeAt s.deltaBuf
      (s.deltaLen - getLength s.record2.flagLength - sizeofDeltaUnit2) s.record2.toBytes }

def setLength1 (s : Enc) (length : Nat) : Enc :=
  { s with record1 := { s.record1 with flagLength := setLength s.record1.flagLength length } }

def setOffset1 (s : Enc) (offset : Nat) : Enc :=
  { s with record1 := { s.record1 with nOffset := UInt32.ofNat offset } }

def setLength2 (s : Enc) (length : Nat) : Enc :=
  { s with record2 := { flagLength := setLength s.record2.flagLength length } }

/-- A string that is not in the base: it extends the open literal, or
opens one. -/
def unmatched (f : Job) (s : Enc) (length : Nat) : Enc :=
  let text := slice f.newBuf s.inputPos length
  let s' :=
    if s.flag = .unit2 then
      (s.put text).setLength2 (getLength s.record2.flagLength + length)
    else
      let s := s.setLength2 length
      { (s.put s.record2.toBytes).put text with flag := .unit2 }
  { s' with cursorInput := s.inputPos + length, inputPos := s.inputPos + length }

/-- How far the strings at `nOffset` and `inputPos` agree beyond their end. -/
def forward (f : Job) (bpos npos : Nat) : Nat :=
  commonRun f.newSize (fun j => bpos + j < f.baseEnd && npos + j < f.newEnd)
    (fun j w => slice f.baseBuf (bpos + j) w == slice f.newBuf (npos + j) w)

/-- How far they agree before their start, at most `limit` bytes. -/
def backward (f : Job) (bpos npos limit : Nat) : Nat :=
  whileLoop (fun k => (decide (k + 1 ≤ bpos) && decide (k + 1 ≤ limit)) &&
    f.baseBuf (bpos - (k + 1)) == f.newBuf (npos - (k + 1))) (· + 1) (limit + 1) 0

/-- The last `k` bytes of the open literal are given back. A literal that
is left empty is dropped with its header. -/
def shrinkLiteral (s : Enc) (k : Nat) : Enc :=
  let s := { s with
    deltaLen := s.deltaLen - getLength s.record2.flagLength - sizeofDeltaUnit2 }
  let s := s.setLength2 (getLength s.record2.flagLength - k)
  if 0 < getLength s.record2.flagLength then
    let s := s.put s.record2.toBytes
    { s with deltaLen := s.deltaLen + getLength s.record2.flagLength }
  else s

/-- What the backward extension found becomes part of the copy. -/
def giveBack (s : Enc) (k : Nat) : Enc :=
  if 0 < k then
    let s := s.shrinkLiteral k
    let s := s.setLength1 (getLength s.record1.flagLength + k)
    s.setOffset1 (s.record1.nOffset.toNat - k)
  else s

/-- The string of `length` bytes at `inputPos` equals the base's string
`r`: close the literal, extend both ways and write the copy unit. -/
def matchedCopy (f : Job) (s : Enc) (length : Nat) (r : DeltaRecord) : Enc :=
  let wasUnit2 := s.flag = .unit2
  let s := if wasUnit2 then s.patchHeader else s
  let j := forward f (r.nOffset + length) (s.inputPos + length)
  let cursorInput := s.inputPos + length + j
  let cursorBase := max s.cursorBase (r.nOffset + length + j)
  let s := (s.setLength1 (cursorInput - s.inputPos)).setOffset1 r.nOffset
  let k := if wasUnit2 then
      backward f r.nOffset s.inputPos (getLength s.record2.flagLength) else 0
  let s := s.giveBack k
  { s.put s.record1.toBytes with
    flag := .unit1, cursorBase := cursorBase, cursorInput := cursorInput,
    inputPos := cursorInput }

/-- The code at the label `match`: a hit may still be a hash collision. -/
def matched (f : Job) (s : Enc) (length : Nat) (r : DeltaRecord) : Enc :=
  if length = r.nLength ∧
      slice f.newBuf s.inputPos length = slice f.baseBuf r.nOffset length then
    s.matchedCopy f length r
  else s.unmatched f length

/-- The next string of the input, looked up in the table. -/
def nextString (f : Job) (h : Heuristics) (s : Enc) : Enc :=
  let length := chunkGear (fun i => f.newBuf (s.inputPos + i)) (f.newEnd - s.inputPos)
  match s.psHTable.lookup (h.weakHash (slice f.newBuf s.inputPos length)) with
  | some psDupSubCnk => s.matched f length psDupSubCnk
  | none => s.unmatched f length

end Enc

/-! ## Chunking the base, and the probes -/

/-- A string of the input: an entry of `InputLink`. -/
structure InputString where
  nLength : Nat
  nHash : UInt64

/-- `InputLink`, the next `n` strings of the input from `cursor`. The
source stops filling it at the first string it finds; what would follow
is never read. -/
def inputLink (f : Job) (h : Heuristics) : Nat → (cursor : Nat) → List InputString
  | 0, _ => []
  | n + 1, cursor =>
      let length := chunkGear (fun i => f.newBuf (cursor + i)) (f.newEnd - cursor)
      { nLength := length, nHash := h.weakHash (slice f.newBuf cursor length) } ::
        inputLink f h n (cursor + length)

/-- The first probe found in the table: `before` are the probes
`InputLink[0 .. probe_match - 1]`. -/
structure ProbeHit where
  before : List InputString
  probe : InputString
  psDupSubCnk : DeltaRecord

def findProbe (t : Htable DeltaRecord) : List InputString → Option ProbeHit
  | [] => none
  | c :: cs =>
      match t.lookup c.nHash with
      | some r => some { before := [], probe := c, psDupSubCnk := r }
      | none => (findProbe t cs).map fun p => { p with before := c :: p.before }

/-- Inserts the strings of one chunking into the table, up to the first
empty one, which says that the base has been chunked to its end. -/
def insertBase (cursorBase : Nat) :
    List DeltaRecord → Htable DeltaRecord → Htable DeltaRecord × Bool
  | [], t => (t, true)
  | r :: rs, t =>
      if r.nLength = 0 then (t, false)
      else insertBase cursorBase rs
        (t.insert r.nHash { r with nOffset := r.nOffset + cursorBase })

/-- What a series of chunking rounds leaves. -/
structure Rounds where
  psHTable : Htable DeltaRecord
  cursorBase : Nat
  flagChunk : Bool
  hit : Option ProbeHit

/-- The `for (i < BASE_STEP)` loop: each round cuts `BASE_EXPAND` times as
many strings of the base as the one before, until a probe is found or
the base is exhausted. -/
def chunkRounds (f : Job) (h : Heuristics) (link : List InputString) :
    Nat → (chunkNumber cursorBase : Nat) → Htable DeltaRecord → Rounds
  | 0, _, cursorBase, t => ⟨t, cursorBase, true, none⟩
  | n + 1, chunkNumber, cursorBase, t =>
      let (recs, numBytes) := chunkingV3 h.weakHash (fun i => f.baseBuf (cursorBase + i))
        (f.baseEnd - cursorBase) chunkNumber
      let (t, flagChunk) := insertBase cursorBase recs t
      let cursorBase := cursorBase + numBytes
      match findProbe t link with
      | some hit => ⟨t, cursorBase, flagChunk, some hit⟩
      | none =>
          if flagChunk then chunkRounds f h link n (chunkNumber * BASE_EXPAND) cursorBase t
          else ⟨t, cursorBase, false, none⟩

namespace Enc

/-- One iteration of the main loop. -/
def step (f : Job) (h : Heuristics) (s : Enc) : Enc :=
  if s.flagChunk && h.pace s.cursorInput f.newSize s.cursorBase f.baseSize then
    let link := inputLink f h INPUT_TRY s.cursorInput
    let rounds := chunkRounds f h link BASE_STEP BASE_BEGIN s.cursorBase s.psHTable
    let s := { s with
      psHTable := rounds.psHTable, cursorBase := rounds.cursorBase,
      flagChunk := rounds.flagChunk }
    match rounds.hit with
    | some hit =>
        let s := hit.before.foldl (fun s c => s.unmatched f c.nLength) s
        s.matched f hit.probe.nLength hit.psDupSubCnk
    | none =>
        (link.foldl (fun s c => s.unmatched f c.nLength) s).nextString f h
  else s.nextString f h

/-- `while (inputPos < newSize - endSize)`; every iteration consumes input. -/
def mainLoop (f : Job) (h : Heuristics) (s : Enc) : Enc :=
  whileLoop (fun s => decide (s.inputPos < f.newEnd)) (step f h) (f.newSize + 1) s

/-- A copy unit of known offset and length, through `record1`. -/
def copyUnit (s : Enc) (offset length : Nat) : Enc :=
  let s := (s.setOffset1 offset).setLength1 length
  { s.put s.record1.toBytes with flag := .unit1 }

/-- The locals as the declarations leave them: `record1` with flag 0,
`record2` with flag 1. -/
def init (f : Job) (t : Htable DeltaRecord) : Enc where
  deltaBuf := []
  deltaLen := 0
  flag := .none
  record1 := ⟨setFlag 0 false, 0⟩
  record2 := ⟨setFlag 0 true⟩
  cursorBase := f.begSize
  cursorInput := f.begSize
  inputPos := f.begSize
  flagChunk := true
  psHTable := t

/-- The copy of the tail that ends every delta of a chunk with one. -/
def putTail (f : Job) (s : Enc) : Enc :=
  if f.endSize ≠ 0 then s.copyUnit (f.baseSize - f.endSize) f.endSize else s

/-- Head and tail cover the whole base: what is between them in the new
chunk is one literal. -/
def trimmed (f : Job) (s : Enc) : Enc :=
  let s := if f.begSize ≠ 0 then s.copyUnit 0 f.begSize else s
  let s := if 0 < f.newSize - f.begSize - f.endSize then
      s.unmatched f (f.newSize - f.begSize - f.endSize) else s
  s.putTail f

/-- Head, main loop and tail. -/
def searched (f : Job) (h : Heuristics) (s : Enc) : Enc :=
  let s := if f.begSize ≠ 0 then s.copyUnit 0 f.begSize else s
  let s := s.mainLoop f h
  let s := if s.flag = .unit2 then s.patchHeader else s
  s.putTail f

/-- The delta an encoding has written. -/
def output (s : Enc) : Bytes := s.deltaBuf.take s.deltaLen

end Enc

/-! ## The two encoders -/

/-- A table between two encodings. -/
abbrev CleanTable := { t : Htable DeltaRecord // t.Clean }

/-- `EcallFreqIndex::EDeltaEncode`. The table is the member `psHTable2_`,
which is handed on clean: the early return does not touch it, and the
other one resets it. -/
def EcallFreqIndex.eDeltaEncode (h : Heuristics) (t : CleanTable) (f : Job) :
    Bytes × CleanTable :=
  let s := Enc.init f t.1
  if f.baseSize ≤ f.begSize + f.endSize then ((s.trimmed f).output, t)
  else
    let s := s.searched f h
    (s.output, ⟨s.psHTable.resetTable, s.psHTable.clean_resetTable⟩)

/-- `OFFLineBackward::EDeltaEncode` is the same code, except that it also
resets the table before it fills it. -/
def OFFLineBackward.eDeltaEncode (h : Heuristics) (t : Htable DeltaRecord) (f : Job) :
    Bytes × Htable DeltaRecord :=
  if f.baseSize ≤ f.begSize + f.endSize then (((Enc.init f t).trimmed f).output, t)
  else
    let s := (Enc.init f t.resetTable).searched f h
    (s.output, s.psHTable.resetTable)

end ShieldReduce.Edelta
