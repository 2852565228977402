import ShieldReduce.Lz4.Format

/-!
# `LZ4_decompress_safe`

The decoder of `ecallLz4.cc`, for the directives it is called with
(`endOnInputSize`, `decode_full_block`, `noDict`) and with
`LZ4_FAST_DEC_LOOP`: a fast loop as long as 64 bytes of output are left,
and a careful loop behind it. Each round of either decodes a sequence.
The jumps from the fast loop into the middle of the careful one are calls
of what stands there.

Positions count from the start of their buffer. A match may point below
the start of the output until that is checked, so that it is an `Int`.
Every access to one of the buffers is noted.

Two checks for the wrap-around of a pointer are left out: a length is
below 2^32.
-/

namespace ShieldReduce.Lz4

open ByteLib

/-- What the decoder touches. -/
inductive Access where
  /-- A read of the input. -/
  | src (pos len : Nat)
  /-- A read of the output. -/
  | back (pos : Int) (len : Nat)
  /-- A write to the output. -/
  | dst (pos len : Nat)

/-- Inside an input of `iend` bytes and an output of `oend`. -/
def Access.Inside (iend oend : Nat) : Access → Prop
  | .src pos len => pos + len ≤ iend
  | .back pos len => 0 ≤ pos ∧ pos + len ≤ oend
  | .dst pos len => pos + len ≤ oend

structure Decoder where
  ip : Nat
  op : Nat
  dst : Mem
  accesses : List Access

/-- How a round ends: with an error, with the block, or with a sequence,
after which the fast or the careful loop goes on. -/
inductive Outcome where
  | error (d : Decoder)
  | done (d : Decoder)
  | next (fast : Bool) (d : Decoder)

def FASTLOOP_SAFE_DISTANCE : Nat := 64
def MATCH_SAFEGUARD_DISTANCE : Nat := 12
def WILDCOPYLENGTH : Nat := 8

def inc32table : List Int := [0, 1, 2, 1, 0, 4, 4, 4]
def dec64table : List Int := [0, 0, 0, -1, -4, 1, 2, 3]

namespace Decoder

/-! ## Copies -/

/-- A write of bytes that are in registers. -/
def store (d : Decoder) (pos : Nat) (xs : Bytes) : Decoder :=
  { d with dst := d.dst.write pos xs, accesses := .dst pos xs.length :: d.accesses }

/-- `memcpy` from the input. -/
def copySrc (src : Mem) (d : Decoder) (pos ip n : Nat) : Decoder :=
  { d with
    dst := d.dst.write pos (slice src ip n)
    accesses := .dst pos n :: .src ip n :: d.accesses }

/-- `memcpy` inside the output. -/
def copyDst (d : Decoder) (pos : Nat) (m : Int) (n : Nat) : Decoder :=
  { d with
    dst := d.dst.copy pos m.toNat n
    accesses := .dst pos n :: .back m n :: d.accesses }

/-- `LZ4_wildCopy8` from the input. -/
def wildCopy8Src (src : Mem) (d : Decoder) (op ip dstEnd : Nat) : Decoder :=
  wildCopy (fun pos d => d.copySrc src pos (ip + (pos - op)) 8) 8 dstEnd (dstEnd + 1) op d

/-- `LZ4_wildCopy32` from the input. -/
def wildCopy32Src (src : Mem) (d : Decoder) (op ip dstEnd : Nat) : Decoder :=
  wildCopy (fun pos d => (d.copySrc src pos (ip + (pos - op)) 16).copySrc src (pos + 16)
    (ip + (pos - op) + 16) 16) 32 dstEnd (dstEnd + 1) op d

/-- `LZ4_wildCopy8` inside the output. -/
def wildCopy8 (d : Decoder) (op : Nat) (m : Int) (dstEnd : Nat) : Decoder :=
  wildCopy (fun pos d => d.copyDst pos (m + (pos - op : Nat)) 8) 8 dstEnd (dstEnd + 1) op d

/-- `LZ4_wildCopy32` inside the output. -/
def wildCopy32 (d : Decoder) (op : Nat) (m : Int) (dstEnd : Nat) : Decoder :=
  wildCopy (fun pos d => (d.copyDst pos (m + (pos - op : Nat)) 16).copyDst (pos + 16)
    (m + (pos - op : Nat) + 16) 16) 32 dstEnd (dstEnd + 1) op d

/-- The first eight bytes of a match, and from where its next are copied. Behind
an offset below 8 they come four at a time, and the tables move the
match to a distance of at least 8. -/
def copyEight (d : Decoder) (m : Int) (offset : Nat) : Decoder × Int :=
  if offset < 8 then
    let d := d.store d.op [0, 0, 0, 0]
    let d := d.copyDst d.op m 1
    let d := d.copyDst (d.op + 1) (m + 1) 1
    let d := d.copyDst (d.op + 2) (m + 2) 1
    let d := d.copyDst (d.op + 3) (m + 3) 1
    let m := m + inc32table.getD offset 0
    (d.copyDst (d.op + 4) m 4, m - dec64table.getD offset 0)
  else (d.copyDst d.op m 8, m + 8)

/-- `LZ4_memcpy_using_offset_base` -/
def memcpyUsingOffsetBase (d : Decoder) (m : Int) (dstEnd offset : Nat) : Decoder :=
  (d.copyEight m offset).1.wildCopy8 (d.op + 8) (d.copyEight m offset).2 dstEnd

/-- `LZ4_memcpy_using_offset`: behind an offset that divides 8 the match is eight
bytes again and again. -/
def memcpyUsingOffset (d : Decoder) (m : Int) (dstEnd offset : Nat) : Decoder :=
  if offset = 1 ∨ offset = 2 ∨ offset = 4 then
    let v := (List.range 8).map fun i => d.dst (m.toNat + i % offset)
    wildCopy (fun pos d => d.store pos v) 8 dstEnd (dstEnd + 1) d.op
      { d with accesses := .back m offset :: d.accesses }
  else d.memcpyUsingOffsetBase m dstEnd offset

/-! ## Reading the input -/

/-- `*ip++` -/
def next (d : Decoder) : Decoder :=
  { d with ip := d.ip + 1, accesses := .src d.ip 1 :: d.accesses }

/-- The loop of `read_variable_length`, with `lencheck` at `iend - slack`: the
length, whether it was left with `loop_error`, and what is behind it. -/
def readVariableLength (src : Mem) (iend slack : Nat) :
    (fuel : Nat) → (length : Nat) → Decoder → Nat × Bool × Decoder
  | 0, length, d => (length, true, d)
  | fuel + 1, length, d =>
      let s := src d.ip
      let length := (length + s.toNat) % 2 ^ 32
      let d := d.next
      if iend ≤ d.ip + slack then (length, true, d)
      else if s = 255 then readVariableLength src iend slack fuel length d
      else (length, false, d)

/-- `LZ4_readLE16(ip); ip += 2;` -/
def readOffset (src : Mem) (d : Decoder) : Nat × Decoder :=
  (ofLe16 (src d.ip) (src (d.ip + 1)),
    { d with ip := d.ip + 2, accesses := .src d.ip 2 :: d.accesses })

/-! ## The careful loop -/

variable (src : Mem) (iend oend : Nat)

/-- From `safe_match_copy` on. -/
def safeMatchCopy (d : Decoder) (offset length : Nat) : Outcome :=
  let m : Int := d.op - offset
  if m < 0 then .error d
  else
    let cpy := d.op + length
    let op := d.op + 8
    let d' := (d.copyEight m offset).1
    let m := (d.copyEight m offset).2
    if oend < cpy + MATCH_SAFEGUARD_DISTANCE then
      let oCopyLimit := oend - (WILDCOPYLENGTH - 1)
      if oend < cpy + LASTLITERALS then .error d'
      else if op < oCopyLimit then
        let d' := d'.wildCopy8 op m oCopyLimit
        let d' := (List.range (cpy - oCopyLimit)).foldl
          (fun d i => d.copyDst (oCopyLimit + i) (m + (oCopyLimit - op : Nat) + i) 1) d'
        .next false { d' with op := cpy }
      else
        let d' := (List.range (cpy - op)).foldl (fun d i => d.copyDst (op + i) (m + i) 1) d'
        .next false { d' with op := cpy }
    else
      let d' := d'.copyDst op m 8
      let d' := if 16 < length then d'.wildCopy8 (op + 8) (m + 8) cpy else d'
      .next false { d' with op := cpy }

/-- From `_copy_match` on. -/
def copyMatch (d : Decoder) (offset matchCode : Nat) : Outcome :=
  if matchCode = ML_MASK then
    let r := readVariableLength src iend (LASTLITERALS - 1) iend 0 d
    if r.2.1 then .error r.2.2
    else r.2.2.safeMatchCopy oend offset (matchCode + r.1 + MINMATCH)
  else d.safeMatchCopy oend offset (matchCode + MINMATCH)

/-- From `safe_literal_copy` on. -/
def safeLiteralCopy (d : Decoder) (token : UInt8) (length : Nat) : Outcome :=
  let cpy := d.op + length
  if oend < cpy + MFLIMIT ∨ iend < d.ip + length + (2 + 1 + LASTLITERALS) then
    if d.ip + length ≠ iend ∨ oend < cpy then .error d
    else
      let d := d.copySrc src d.op d.ip length
      .done { d with ip := d.ip + length, op := cpy }
  else
    let d := d.wildCopy8Src src d.op d.ip cpy
    let d := { d with ip := d.ip + length, op := cpy }
    let r := d.readOffset src
    r.2.copyMatch src iend oend r.1 (token.toNat % 16)

/-- A round of the careful loop. -/
def safeStep (d : Decoder) : Outcome :=
  let token := src d.ip
  let d := d.next
  let length := token.toNat / 16
  if length ≠ RUN_MASK ∧ d.ip + 14 + 2 < iend ∧ d.op + 14 + 18 ≤ oend then
    -- the shortcut: literals and match in copies of fixed size
    let d := d.copySrc src d.op d.ip 16
    let d := { d with ip := d.ip + length, op := d.op + length }
    let r := d.readOffset src
    let d := r.2
    let matchCode := token.toNat % 16
    let m : Int := d.op - r.1
    if matchCode ≠ ML_MASK ∧ 8 ≤ r.1 ∧ 0 ≤ m then
      let d := d.copyDst d.op m 8
      let d := d.copyDst (d.op + 8) (m + 8) 8
      let d := d.copyDst (d.op + 16) (m + 16) 2
      .next false { d with op := d.op + (matchCode + MINMATCH) }
    else d.copyMatch src iend oend r.1 matchCode
  else if length = RUN_MASK then
    if iend ≤ d.ip + RUN_MASK then .error d
    else
      let r := readVariableLength src iend RUN_MASK iend 0 d
      r.2.2.safeLiteralCopy src iend oend token (length + r.1)
  else d.safeLiteralCopy src iend oend token length

/-! ## The fast loop -/

/-- The fast loop behind the literals. -/
def fastMatch (d : Decoder) (token : UInt8) : Outcome :=
  let r := d.readOffset src
  let d := r.2
  let offset := r.1
  let matchCode := token.toNat % 16
  let m : Int := d.op - offset
  if matchCode = ML_MASK then
    if m < 0 then .error d
    else
      let r := readVariableLength src iend (LASTLITERALS - 1) iend 0 d
      let d := r.2.2
      let length := matchCode + r.1 + MINMATCH
      if r.2.1 then .error d
      else if oend ≤ d.op + length + FASTLOOP_SAFE_DISTANCE then d.safeMatchCopy oend offset length
      else if offset < 16 then
        .next true { d.memcpyUsingOffset m (d.op + length) offset with op := d.op + length }
      else .next true { d.wildCopy32 d.op m (d.op + length) with op := d.op + length }
  else
    let length := matchCode + MINMATCH
    if oend ≤ d.op + length + FASTLOOP_SAFE_DISTANCE then d.safeMatchCopy oend offset length
    else if 0 ≤ m ∧ 8 ≤ offset then
      let d := d.copyDst d.op m 8
      let d := d.copyDst (d.op + 8) (m + 8) 8
      let d := d.copyDst (d.op + 16) (m + 16) 2
      .next true { d with op := d.op + length }
    else if m < 0 then .error d
    else if offset < 16 then
      .next true { d.memcpyUsingOffset m (d.op + length) offset with op := d.op + length }
    else .next true { d.wildCopy32 d.op m (d.op + length) with op := d.op + length }

/-- A round of the fast loop. -/
def fastStep (d : Decoder) : Outcome :=
  let token := src d.ip
  let d := d.next
  let length := token.toNat / 16
  if length = RUN_MASK then
    if iend ≤ d.ip + RUN_MASK then .error d
    else
      let r := readVariableLength src iend RUN_MASK iend 0 d
      let d := r.2.2
      let length := length + r.1
      let cpy := d.op + length
      if oend < cpy + 32 ∨ iend < d.ip + length + 32 then
        d.safeLiteralCopy src iend oend token length
      else
        let d' := d.wildCopy32Src src d.op d.ip cpy
        fastMatch src iend oend { d' with ip := d.ip + length, op := cpy } token
  else if iend < d.ip + (16 + 1) then d.safeLiteralCopy src iend oend token length
  else
    let d := d.copySrc src d.op d.ip 16
    fastMatch src iend oend { d with ip := d.ip + length, op := d.op + length } token

/-! ## The whole decoder -/

def step (fast : Bool) (d : Decoder) : Outcome :=
  if fast then d.fastStep src iend oend else d.safeStep src iend oend

/-- Both loops. The result is what the function returns, and the decoder behind it. -/
def loop : (fuel : Nat) → (fast : Bool) → Decoder → Option (Int × Decoder)
  | 0, _, _ => none
  | fuel + 1, fast, d =>
      match d.step src iend oend fast with
      | .error d => some (-(d.ip : Int) - 1, d)
      | .done d => some (d.op, d)
      | .next fast d => loop fuel fast d

end Decoder

/-- `LZ4_decompress_generic`, for `srcSize` bytes of `src` into `outputSize` bytes. -/
def decompressGeneric (src : Mem) (srcSize outputSize : Nat) (dst : Mem) : Option (Int × Decoder) :=
  let d : Decoder := ⟨0, 0, dst, []⟩
  if outputSize = 0 then
    if srcSize = 1 then some (if src 0 = 0 then 0 else -1, { d with accesses := [.src 0 1] })
    else some (-1, d)
  else if srcSize = 0 then some (-1, d)
  else d.loop src srcSize outputSize (srcSize + 1) (FASTLOOP_SAFE_DISTANCE ≤ outputSize)

/-- `LZ4_decompress_safe` -/
def decompressSafe (source : Mem) (compressedSize maxDecompressedSize : Nat) (dest : Mem) :
    Option (Int × Decoder) :=
  decompressGeneric source compressedSize maxDecompressedSize dest

end ShieldReduce.Lz4
