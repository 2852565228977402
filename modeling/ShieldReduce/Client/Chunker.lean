import ShieldReduce.Lib.Loop
import ShieldReduce.Enclave.Env

/-!
# The chunker of a client

`FastCDC` reads the file into a buffer of `readSize_` bytes, cuts chunks
off it while a whole `maxChunkSize_` bytes follow (to the end, once the file
has none left), and goes back in the file to the first byte it has not cut
off. `CutPoint` looks for the end of one chunk in the bytes it is given; a
gear fingerprint decides, with one mask up to `normalSize_` and another one
after it. Lengths go to `CutPoint` as 32-bit words.
-/

namespace ShieldReduce

open ByteLib LoopLib

/-! ## The input file -/

/-- `chunkingFile_`: a read that comes short sets `eofbit` and `failbit`. -/
structure InputFile where
  content : Bytes
  pos : Nat
  eofbit : Bool
  failbit : Bool
  gcount : Nat

namespace InputFile

def openFile (content : Bytes) : InputFile := ⟨content, 0, false, false, 0⟩

/-- `read(buf, n)`, with the `n` bytes of the buffer after it. -/
def read (f : InputFile) (buf : Bytes) : Bytes × InputFile :=
  if f.eofbit || f.failbit then (buf, { f with failbit := true, gcount := 0 })
  else
    let got := (f.content.drop f.pos).take buf.length
    (got ++ buf.drop got.length,
      { f with
        pos := f.pos + got.length
        eofbit := decide (got.length < buf.length)
        failbit := decide (got.length < buf.length)
        gcount := got.length })

/-- `seekg(off, beg)`. -/
def seekg (f : InputFile) (off : Nat) : InputFile :=
  let f := { f with eofbit := false }
  if f.failbit then f else { f with pos := off }

end InputFile

/-! ## Cut points -/

/-- The conversion to `uint32_t`. -/
def toUint32 (n : Nat) : Nat := n % 2 ^ 32

def divCeil (a b : Nat) : Nat :=
  let tmp := a / b
  if a % b = 0 then tmp else tmp + 1

def calNormalSize (min av max : Nat) : Nat :=
  let off := toUint32 (min + divCeil min 2)
  let off := if off > av then av else off
  let diff := av - off
  if diff > max then max else diff

/-- What `CutPoint` depends on. -/
structure CutRule where
  avgChunkSize : Nat
  minChunkSize : Nat
  maxChunkSize : Nat
  maskS : UInt32
  maskL : UInt32
  gear : UInt8 → UInt32

namespace CutRule

variable (r : CutRule)

def normalSize : Nat :=
  calNormalSize (toUint32 r.minChunkSize) (toUint32 r.avgChunkSize) (toUint32 r.maxChunkSize)

/-- A loop of `CutPoint` with `n - i` bytes to look at: the length of the
chunk if one of them ends it, the fingerprint otherwise. -/
def rollTo (mask : UInt32) (src : Bytes) : Nat → (i : Nat) → (fp : UInt32) → Nat ⊕ UInt32
  | 0, _, fp => .inr fp
  | left + 1, i, fp =>
      let fp := (fp >>> 1) + r.gear (src.getD i 0)
      if fp &&& mask = 0 then .inl (i + 1) else rollTo mask src left (i + 1) fp

def cutPoint (src : Bytes) (len : Nat) : Nat :=
  let i := min len (toUint32 r.minChunkSize)
  let n := min r.normalSize len
  match r.rollTo r.maskS src (n - i) i 0 with
  | .inl cp => cp
  | .inr fp =>
      let i := max i n
      let n := min (toUint32 r.maxChunkSize) len
      match r.rollTo r.maskL src (n - i) i fp with
      | .inl cp => cp
      | .inr _ => max i n

end CutRule

/-! ## What a cut point depends on -/

theorem toUint32_of_lt {n : Nat} (h : n < 2 ^ 32) : toUint32 n = n := Nat.mod_eq_of_lt h

theorem calNormalSize_le (min av max : Nat) : calNormalSize min av max ≤ max := by
  simp only [calNormalSize]
  split_ifs <;> omega

namespace CutRule

variable {r : CutRule}

theorem rollTo_congr {mask : UInt32} (src src' : Bytes) :
    ∀ (left i : Nat) (fp : UInt32), (∀ k, i ≤ k → k < i + left → src.getD k 0 = src'.getD k 0) →
      r.rollTo mask src left i fp = r.rollTo mask src' left i fp
  | 0, _, _, _ => rfl
  | left + 1, i, fp, h => by
      rw [rollTo, rollTo, h i (Nat.le_refl i) (by omega),
        rollTo_congr src src' left (i + 1) _ fun k hk hlt => h k (by omega) (by omega)]

theorem rollTo_bounds {mask : UInt32} {src : Bytes} {cp : Nat} :
    ∀ (left i : Nat) (fp : UInt32), r.rollTo mask src left i fp = .inl cp → i < cp ∧ cp ≤ i + left
  | 0, _, _, h => by cases h
  | left + 1, i, fp, h => by
      simp only [rollTo] at h
      split at h
      · obtain rfl := Sum.inl.inj h
        omega
      · have hrest := rollTo_bounds left (i + 1) _ h
        omega

/-- The sizes that the loops use are those of the settings. -/
structure Sized (r : CutRule) : Prop where
  pos : 1 ≤ r.minChunkSize
  le : r.minChunkSize ≤ r.maxChunkSize
  fits : r.maxChunkSize < 2 ^ 32

theorem normalSize_le (r : CutRule) : r.normalSize ≤ r.maxChunkSize :=
  (calNormalSize_le _ _ _).trans (Nat.mod_le _ _)

theorem Sized.cutPoint_eq (h : Sized r) (src : Bytes) (len : Nat) :
    r.cutPoint src len =
      let i := min len r.minChunkSize
      let n := min r.normalSize len
      match r.rollTo r.maskS src (n - i) i 0 with
      | .inl cp => cp
      | .inr fp =>
          match r.rollTo r.maskL src (min r.maxChunkSize len - max i n) (max i n) fp with
          | .inl cp => cp
          | .inr _ => min r.maxChunkSize len := by
  have hle := h.le
  have hnormal := r.normalSize_le
  have hlast : max (max (min len r.minChunkSize) (min r.normalSize len)) (min r.maxChunkSize len) =
      min r.maxChunkSize len := by omega
  rw [cutPoint, toUint32_of_lt h.fits, toUint32_of_lt (h.le.trans_lt h.fits)]
  simp only [hlast]

/-- A chunk has between `minChunkSize` and `maxChunkSize` bytes, if there
are so many. -/
theorem Sized.cutPoint_bounds (h : Sized r) (src : Bytes) (len : Nat) :
    min len r.minChunkSize ≤ r.cutPoint src len ∧ r.cutPoint src len ≤ min r.maxChunkSize len := by
  have hle := h.le
  have hnormal := r.normalSize_le
  rw [h.cutPoint_eq]
  dsimp only
  split
  · rename_i cp hfirst
    have hb := rollTo_bounds _ _ _ hfirst
    omega
  · split
    · rename_i cp hsecond
      have hb := rollTo_bounds _ _ _ hsecond
      omega
    · exact ⟨Nat.le_min.mpr ⟨(Nat.min_le_right ..).trans hle, Nat.min_le_left ..⟩, Nat.le_refl _⟩

/-- `CutPoint` looks at the first `maxChunkSize` bytes only, and at the
length only up to there. -/
theorem Sized.cutPoint_congr (h : Sized r) {src src' : Bytes} {len len' : Nat}
    (hlen : min r.maxChunkSize len = min r.maxChunkSize len')
    (hsrc : ∀ k < min r.maxChunkSize len, src.getD k 0 = src'.getD k 0) :
    r.cutPoint src len = r.cutPoint src' len' := by
  have hle := h.le
  have hnormal := r.normalSize_le
  have hmin : min len r.minChunkSize = min len' r.minChunkSize := by omega
  have hn : min r.normalSize len = min r.normalSize len' := by omega
  rw [h.cutPoint_eq, h.cutPoint_eq]
  dsimp only
  rw [← hmin, ← hn, ← hlen, rollTo_congr src src' _ _ _ fun k _ hk => hsrc k (by omega)]
  split
  · rfl
  · rw [rollTo_congr src src' _ _ _ fun k _ hk => hsrc k (by omega)]

end CutRule

/-! ## The loops -/

structure FileRecipeHead where
  fileSize : Nat
  totalChunkNum : Nat

/-- The first `chunkSize` bytes of the array of a `Chunk_t`. -/
abbrev ChunkData := { data : Bytes // data.length ≤ MAX_CHUNK_SIZE }

/-- `Data_t`. -/
inductive Data where
  | dataChunk (chunk : ChunkData)
  | recipeEnd (recipeHead : FileRecipeHead)

/-- `memcpy` into the array; there is no result if it is too small. -/
def ChunkData.copy (src : Bytes) (cp : Nat) : Option ChunkData :=
  if h : (src.take cp).length ≤ MAX_CHUNK_SIZE then some ⟨src.take cp, h⟩ else none

/-- The variables of the inner loop. -/
structure Cutting where
  localOffset : Nat
  fileSize : Nat
  chunkIDCnt : Nat
  outputMQ : List Data

/-- The variables of the outer loop. -/
structure Chunking where
  chunkingFile : InputFile
  totalOffset : Nat
  atEnd : Bool
  stop : Bool
  fileSize : Nat
  chunkIDCnt : Nat
  outputMQ : List Data

structure Chunker extends CutRule where
  readSize : Nat

namespace Chunker

variable (c : Chunker)

/-- The condition of the inner loop; `localOffset` never passes `len`. -/
def more (len : Nat) (atEnd : Bool) (s : Cutting) : Bool :=
  decide (len - s.localOffset ≥ c.maxChunkSize) || (atEnd && decide (s.localOffset < len))

def cutOne (waitingForChunkingBuffer : Bytes) (len : Nat) (s : Cutting) : Option Cutting := do
  let src := waitingForChunkingBuffer.drop s.localOffset
  let cp := c.cutPoint src (toUint32 (len - s.localOffset))
  let tempChunk ← ChunkData.copy src cp
  return {
    localOffset := s.localOffset + cp
    fileSize := s.fileSize + cp
    chunkIDCnt := s.chunkIDCnt + 1
    outputMQ := s.outputMQ ++ [.dataChunk tempChunk] }

/-- A round of the outer loop, with `fuel` for the inner one. -/
def readRound (fuel : Nat) (s : Chunking) : Option Chunking := do
  let (waitingForChunkingBuffer, file) := s.chunkingFile.read (List.replicate c.readSize 0)
  let atEnd := file.eofbit
  let len := file.gcount
  if len = 0 then
    return { s with chunkingFile := file, atEnd := atEnd, stop := true }
  else
    let t ← whileRun (c.more len atEnd) (c.cutOne waitingForChunkingBuffer len) fuel
      ⟨0, s.fileSize, s.chunkIDCnt, s.outputMQ⟩
    let totalOffset := s.totalOffset + t.localOffset
    return {
      chunkingFile := file.seekg totalOffset
      totalOffset := totalOffset
      atEnd := atEnd
      stop := false
      fileSize := t.fileSize
      chunkIDCnt := t.chunkIDCnt
      outputMQ := t.outputMQ }

/-- `FastCDC` on a file that was just opened: what it pushes. There is no
result while the loops have not ended within `fuel` rounds. -/
def fastCDC (fuel : Nat) (file : Bytes) : Option (List Data) := do
  let s ← whileRun (fun s => !s.atEnd && !s.stop) (c.readRound fuel) fuel
    ⟨.openFile file, 0, false, false, 0, 0, []⟩
  return s.outputMQ ++ [.recipeEnd ⟨s.fileSize, s.chunkIDCnt⟩]

end Chunker

end ShieldReduce
