import ShieldReduce.Lib.Words
import ShieldReduce.Lz4.Decompress

/-!
# `LZ4_compress_fast`

The encoder of `ecallLz4.cc`, for the directives it is called with
(`notLimited` or `limitedOutput`, `byU16` or `byU32`, `noDict`,
`noDictIssue`) and a freshly initialised state, on a little-endian
machine of 64 bits. Each round of the main loop either looks for a match
and writes the literals in front of it, or writes the match it has and
looks at the next position.

Positions count from the start of their buffer. Every access to one of
the buffers is noted; `Access` is that of the decoder.
-/

namespace ShieldReduce.Lz4

open ByteLib

def LZ4_MAX_INPUT_SIZE : Nat := 0x7E000000
def LZ4_HASHLOG : Nat := 12
def LZ4_DISTANCE_MAX : Nat := 65535
def LZ4_64Klimit : Nat := 64 * 2 ^ 10 + (MFLIMIT - 1)
def LZ4_skipTrigger : Nat := 6
def LZ4_minLength : Nat := MFLIMIT + 1
def LZ4_ACCELERATION_DEFAULT : Int := 1
def LZ4_ACCELERATION_MAX : Int := 65537
def STEPSIZE : Nat := 8

/-- `LZ4_compressBound` -/
def compressBound (isize : Nat) : Nat :=
  if LZ4_MAX_INPUT_SIZE < isize then 0 else isize + isize / 255 + 16

inductive TableType where
  | byU32
  | byU16
deriving DecidableEq

def TableType.hashLog : TableType → Nat
  | .byU32 => LZ4_HASHLOG
  | .byU16 => LZ4_HASHLOG + 1

/-- `LZ4_hash4` -/
def hash4 (sequence : Nat) (tableType : TableType) : Nat :=
  sequence * 2654435761 % 2 ^ 32 / 2 ^ (MINMATCH * 8 - tableType.hashLog)

/-- `LZ4_hash5` -/
def hash5 (sequence : Nat) (tableType : TableType) : Nat :=
  sequence * 2 ^ 24 % 2 ^ 64 * 889523592379 % 2 ^ 64 / 2 ^ (64 - tableType.hashLog)

structure Encoder where
  ip : Nat
  anchor : Nat
  op : Nat
  hashTable : Nat → Nat
  dst : Mem
  accesses : List Access

/-- What a call keeps the same. `olimit` is `none` for `notLimited`. -/
structure Job where
  src : Mem
  inputSize : Nat
  olimit : Option Nat
  tableType : TableType
  acceleration : Nat

/-- Where a round leads to: out of the function with 0, to `_last_literals`, to
`_next_match`, or to the top of the main loop. -/
inductive Round where
  | full (e : Encoder)
  | lastLiterals (e : Encoder)
  | nextMatch (token mtch : Nat) (e : Encoder)
  | search (forwardH : Nat) (e : Encoder)

namespace Encoder

def log (e : Encoder) (l : List Access) : Encoder := { e with accesses := l ++ e.accesses }

/-- A write behind which the output goes on where it did. -/
def store (e : Encoder) (pos : Nat) (xs : Bytes) : Encoder :=
  { e with dst := e.dst.write pos xs, accesses := .dst pos xs.length :: e.accesses }

/-- A write at the end of the output. -/
def put (e : Encoder) (xs : Bytes) : Encoder := { e.store e.op xs with op := e.op + xs.length }

/-- `for (; len >= 255; len -= 255) *op++ = 255; *op++ = (BYTE)len;` -/
def putLength : (fuel len : Nat) → Encoder → Encoder
  | 0, _, e => e
  | fuel + 1, len, e =>
      if 255 ≤ len then putLength fuel (len - 255) (e.put [255])
      else e.put [UInt8.ofNat len]

/-- The length of a match, four bytes at a time. -/
def putMatchLength : (fuel matchCode : Nat) → Encoder → Encoder
  | 0, _, e => e
  | fuel + 1, matchCode, e =>
      let e := e.store e.op [255, 255, 255, 255]
      if 4 * 255 ≤ matchCode then
        putMatchLength fuel (matchCode - 4 * 255) { e with op := e.op + 4 }
      else
        let e := { e with op := e.op + matchCode / 255 }
        e.put [UInt8.ofNat (matchCode % 255)]

/-- `LZ4_wildCopy8` from the input. -/
def wildCopy8 (src : Mem) (e : Encoder) (op ip dstEnd : Nat) : Encoder :=
  wildCopy (fun pos e => (e.store pos (slice src (ip + (pos - op)) 8)).log
    [.src (ip + (pos - op)) 8]) 8 dstEnd (dstEnd + 1) op e

/-- `LZ4_putIndexOnHash` -/
def putIndexOnHash (tableType : TableType) (e : Encoder) (idx h : Nat) : Encoder :=
  { e with hashTable := Function.update e.hashTable h (match tableType with
      | .byU32 => idx % 2 ^ 32
      | .byU16 => idx % 2 ^ 16) }

end Encoder

/-! ## Matches -/

/-- `LZ4_NbCommonBytes` -/
def nbCommonBytes (val : Nat) : Nat := ctz 64 val / 8

/-- The loop of `LZ4_count` over words, of which the source writes the first round
apart: where it ends, whether with a difference, and what it reads. -/
def countWords (src : Mem) (pInLimit : Nat) :
    (fuel pIn pMatch : Nat) → List Access → Nat × Bool × List Access
  | 0, pIn, _, l => (pIn, true, l)
  | fuel + 1, pIn, pMatch, l =>
      if pIn + (STEPSIZE - 1) < pInLimit then
        let l := .src pIn STEPSIZE :: .src pMatch STEPSIZE :: l
        let diff := readLE src pMatch STEPSIZE ^^^ readLE src pIn STEPSIZE
        if diff = 0 then countWords src pInLimit fuel (pIn + STEPSIZE) (pMatch + STEPSIZE) l
        else (pIn + nbCommonBytes diff, true, l)
      else (pIn, false, l)

/-- The steps of four, two and one bytes that `LZ4_count` ends with. -/
def countTail (src : Mem) (pInLimit : Nat) :
    (sizes : List Nat) → (pIn pMatch : Nat) → List Access → Nat × List Access
  | [], pIn, _, l => (pIn, l)
  | n :: sizes, pIn, pMatch, l =>
      if pIn + (n - 1) < pInLimit then
        let l := .src pIn n :: .src pMatch n :: l
        if readLE src pMatch n = readLE src pIn n then
          countTail src pInLimit sizes (pIn + n) (pMatch + n) l
        else countTail src pInLimit sizes pIn pMatch l
      else countTail src pInLimit sizes pIn pMatch l

/-- `LZ4_count` -/
def count (src : Mem) (pIn pMatch pInLimit : Nat) : Nat × List Access :=
  let w := countWords src pInLimit (pInLimit + 1) pIn pMatch []
  if w.2.1 then (w.1 - pIn, w.2.2)
  else
    let r := countTail src pInLimit [4, 2, 1] w.1 (pMatch + (w.1 - pIn)) w.2.2
    (r.1 - pIn, r.2)

/-- `while ((ip > anchor) & (match > lowLimit) && ip[-1] == match[-1])` -/
def catchUp (src : Mem) (anchor : Nat) : (ip mtch : Nat) → List Access → Nat × Nat × List Access
  | ip, 0, l => (ip, 0, l)
  | ip, m + 1, l =>
      if anchor < ip then
        let l := .src (ip - 1) 1 :: .src m 1 :: l
        if src (ip - 1) = src m then catchUp src anchor (ip - 1) m l else (ip, m + 1, l)
      else (ip, m + 1, l)

namespace Job

variable (j : Job)

def mflimitPlusOne : Nat := j.inputSize - MFLIMIT + 1
def matchlimit : Nat := j.inputSize - LASTLITERALS

/-- `LZ4_hashPosition` -/
def hashPosition (p : Nat) : Nat :=
  if j.tableType = .byU16 then hash4 (readLE j.src p 4) j.tableType
  else hash5 (readLE j.src p 8) j.tableType

def hashRead (p : Nat) : Access := .src p (if j.tableType = .byU16 then 4 else 8)

/-- `LZ4_putPosition` -/
def putPosition (e : Encoder) (p : Nat) : Encoder :=
  (e.log [j.hashRead p]).putIndexOnHash j.tableType p (j.hashPosition p)

/-- Whether a write that ends at `pos` is too much for a limited output. -/
def overflows (pos : Nat) : Bool :=
  match j.olimit with
  | none => false
  | some olimit => olimit < pos

/-- The loop that looks for a match, from `forwardIp` on: no match in front of
`mflimitPlusOne`, or where it begins. -/
def findMatch : (fuel forwardH forwardIp step searchMatchNb : Nat) → Encoder →
    Option (Option Nat × Encoder)
  | 0, _, _, _, _, _ => none
  | fuel + 1, h, forwardIp, step, searchMatchNb, e =>
      let current := forwardIp
      let matchIndex := e.hashTable h
      let e := { e with ip := forwardIp }
      let forwardIp := forwardIp + step
      let step := searchMatchNb / 2 ^ LZ4_skipTrigger
      if j.mflimitPlusOne < forwardIp then some (none, e)
      else
        let forwardH := j.hashPosition forwardIp
        let e := (e.log [j.hashRead forwardIp]).putIndexOnHash j.tableType current h
        if j.tableType ≠ .byU16 ∧ matchIndex + LZ4_DISTANCE_MAX < current then
          findMatch fuel forwardH forwardIp step (searchMatchNb + 1) e
        else
          let e := e.log [.src matchIndex 4, .src e.ip 4]
          if readLE j.src matchIndex 4 = readLE j.src e.ip 4 then some (some matchIndex, e)
          else findMatch fuel forwardH forwardIp step (searchMatchNb + 1) e

/-- The token and the literals in front of a match. -/
def encodeLiterals (mtch : Nat) (e : Encoder) : Round :=
  let litLength := e.ip - e.anchor
  let token := e.op
  if j.overflows (e.op + 1 + litLength + (2 + 1 + LASTLITERALS) + litLength / 255) then .full e
  else
    let e :=
      if RUN_MASK ≤ litLength then
        (e.put [UInt8.ofNat (16 * RUN_MASK)]).putLength (litLength + 1) (litLength - RUN_MASK)
      else e.put [UInt8.ofNat (16 * litLength)]
    let e' := e.wildCopy8 j.src e.op e.anchor (e.op + litLength)
    .nextMatch token mtch { e' with op := e.op + litLength }

/-- A round from the top of the main loop. -/
def searchRound (forwardH : Nat) (e : Encoder) : Option Round :=
  match j.findMatch (j.inputSize + 1) forwardH e.ip 1 (j.acceleration * 2 ^ LZ4_skipTrigger) e with
  | none => none
  | some (none, e) => some (.lastLiterals e)
  | some (some mtch, e) =>
      let r := catchUp j.src e.anchor e.ip mtch []
      some (j.encodeLiterals r.2.1 ({ e with ip := r.1 }.log r.2.2))

/-- Back to the top of the main loop. -/
def prepareNextLoop (e : Encoder) : Round :=
  let e := { e with ip := e.ip + 1 }
  .search (j.hashPosition e.ip) (e.log [j.hashRead e.ip])

/-- A match that begins where the last one ends, or the main loop. -/
def testNextPosition (e : Encoder) : Round :=
  let h := j.hashPosition e.ip
  let matchIndex := e.hashTable h
  let e := (e.log [j.hashRead e.ip]).putIndexOnHash j.tableType e.ip h
  if j.tableType ≠ .byU16 ∧ matchIndex + LZ4_DISTANCE_MAX < e.ip then j.prepareNextLoop e
  else
    let e := e.log [.src matchIndex 4, .src e.ip 4]
    if readLE j.src matchIndex 4 = readLE j.src e.ip 4 then
      .nextMatch e.op matchIndex (e.put [0])
    else j.prepareNextLoop e

/-- Behind a match, which may be the end of the chunk. -/
def nextPosition (e : Encoder) : Round :=
  let e := { e with anchor := e.ip }
  if j.mflimitPlusOne ≤ e.ip then .lastLiterals e
  else j.testNextPosition (j.putPosition e (e.ip - 2))

/-- From `_next_match` on. -/
def encodeMatch (token mtch : Nat) (e : Encoder) : Round :=
  let e := e.put (le16 (e.ip - mtch))
  let c := count j.src (e.ip + MINMATCH) (mtch + MINMATCH) j.matchlimit
  let matchCode := c.1
  let e := { e with ip := e.ip + (matchCode + MINMATCH) }.log c.2
  if j.overflows (e.op + (1 + LASTLITERALS) + (matchCode + 240) / 255) then .full e
  else if ML_MASK ≤ matchCode then
    let e := e.store token [e.dst token + UInt8.ofNat ML_MASK]
    j.nextPosition (e.putMatchLength (matchCode + 1) (matchCode - ML_MASK))
  else j.nextPosition (e.store token [e.dst token + UInt8.ofNat matchCode])

/-- From `_last_literals` on. -/
def encodeLastLiterals (e : Encoder) : Nat × Encoder :=
  let lastRun := j.inputSize - e.anchor
  if j.overflows (e.op + lastRun + 1 + (lastRun + 255 - RUN_MASK) / 255) then (0, e)
  else
    let e :=
      if RUN_MASK ≤ lastRun then
        (e.put [UInt8.ofNat (16 * RUN_MASK)]).putLength (lastRun + 1) (lastRun - RUN_MASK)
      else e.put [UInt8.ofNat (16 * lastRun)]
    let e := (e.put (slice j.src e.anchor lastRun)).log [.src e.anchor lastRun]
    (e.op, { e with ip := e.anchor + lastRun })

/-- The main loop, and what it is left for. -/
def rounds : (fuel : Nat) → Round → Option (Nat × Encoder)
  | 0, _ => none
  | _ + 1, .full e => some (0, e)
  | _ + 1, .lastLiterals e => some (j.encodeLastLiterals e)
  | fuel + 1, .nextMatch token mtch e => rounds fuel (j.encodeMatch token mtch e)
  | fuel + 1, .search forwardH e => (j.searchRound forwardH e).bind (rounds fuel)

/-- `LZ4_compress_generic_validated` -/
def compressGenericValidated (dst : Mem) : Option (Nat × Encoder) :=
  let e : Encoder := ⟨0, 0, 0, fun _ => 0, dst, []⟩
  if j.tableType = .byU16 ∧ LZ4_64Klimit ≤ j.inputSize then some (0, e)
  else if j.inputSize < LZ4_minLength then some (j.encodeLastLiterals e)
  else
    let e := j.putPosition e e.ip
    let e := { e with ip := e.ip + 1 }
    j.rounds (2 * j.inputSize + 2) (.search (j.hashPosition e.ip) (e.log [j.hashRead e.ip]))

/-- `LZ4_compress_generic` -/
def compressGeneric (dst : Mem) : Option (Nat × Encoder) :=
  let e : Encoder := ⟨0, 0, 0, fun _ => 0, dst, []⟩
  if LZ4_MAX_INPUT_SIZE < j.inputSize then some (0, e)
  else if j.inputSize = 0 then
    if j.overflows 1 then some (0, e)
    else some (1, e.store 0 [0])
  else j.compressGenericValidated dst

end Job

/-- `LZ4_compress_fast`, with what `LZ4_compress_fast_extState` makes of its arguments. -/
def compressFast (source : Mem) (dest : Mem) (inputSize maxOutputSize : Nat) (acceleration : Int) :
    Option (Nat × Encoder) :=
  let acceleration := if acceleration < 1 then LZ4_ACCELERATION_DEFAULT else acceleration
  let acceleration :=
    if LZ4_ACCELERATION_MAX < acceleration then LZ4_ACCELERATION_MAX else acceleration
  let tableType := if inputSize < LZ4_64Klimit then .byU16 else .byU32
  if compressBound inputSize ≤ maxOutputSize then
    Job.compressGeneric ⟨source, inputSize, none, tableType, acceleration.toNat⟩ dest
  else
    Job.compressGeneric ⟨source, inputSize, some maxOutputSize, tableType, acceleration.toNat⟩ dest

end ShieldReduce.Lz4
