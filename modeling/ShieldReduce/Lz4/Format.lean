import ShieldReduce.Lib.BackCopy

/-!
# The LZ4 block format

A block is a list of sequences and a last run of literals. A sequence is
a run of literals and a back reference of at least `MINMATCH` bytes; its
token holds both lengths up to 15, and what a length exceeds 15 by
follows in bytes of which only the last is not 255.

`Block.Ends` is what the format asks of the end of a block: the last
`LASTLITERALS` bytes are literals, and no back reference starts in the
last `MFLIMIT` bytes.
-/

namespace ShieldReduce.Lz4

open ByteLib

def MINMATCH : Nat := 4
def LASTLITERALS : Nat := 5
def MFLIMIT : Nat := 12
def ML_MASK : Nat := 15
def RUN_MASK : Nat := 15

/-! ## Lengths -/

/-- The byte in front of a sequence. -/
def token (litLength matchCode : Nat) : UInt8 :=
  UInt8.ofNat (16 * min litLength RUN_MASK + min matchCode ML_MASK)

/-- What the token does not say of a length. -/
def lengthBytes (n : Nat) : Bytes :=
  if n < RUN_MASK then []
  else List.replicate ((n - RUN_MASK) / 255) 255 ++ [UInt8.ofNat ((n - RUN_MASK) % 255)]

theorem toNat_token (litLength matchCode : Nat) :
    (token litLength matchCode).toNat = 16 * min litLength RUN_MASK + min matchCode ML_MASK := by
  rw [token, UInt8.toNat_ofNat']
  simp only [RUN_MASK, ML_MASK]
  omega

theorem token_div (litLength matchCode : Nat) :
    (token litLength matchCode).toNat / 16 = min litLength RUN_MASK := by
  rw [toNat_token]
  simp only [RUN_MASK, ML_MASK]
  omega

theorem token_mod (litLength matchCode : Nat) :
    (token litLength matchCode).toNat % 16 = min matchCode ML_MASK := by
  rw [toNat_token]
  simp only [RUN_MASK, ML_MASK]
  omega

theorem lengthBytes_of_lt {n : Nat} (h : n < RUN_MASK) : lengthBytes n = [] := if_pos h

/-- 255 again and again, and a byte that is not. -/
theorem lengthBytes_of_le {n : Nat} (h : RUN_MASK ≤ n) :
    ∃ (k : Nat) (b : UInt8), lengthBytes n = List.replicate k 255 ++ [b] ∧ b.toNat < 255 ∧
      n = RUN_MASK + (255 * k + b.toNat) := by
  have hb : (UInt8.ofNat ((n - RUN_MASK) % 255)).toNat = (n - RUN_MASK) % 255 := by
    rw [UInt8.toNat_ofNat']
    omega
  refine ⟨(n - RUN_MASK) / 255, UInt8.ofNat ((n - RUN_MASK) % 255), if_neg (by omega), ?_, ?_⟩
  · omega
  · omega

theorem lengthBytes_add {k : Nat} {b : UInt8} (hb : b.toNat < 255) :
    lengthBytes (RUN_MASK + (255 * k + b.toNat)) = List.replicate k 255 ++ [b] := by
  rw [lengthBytes, if_neg (by omega), Nat.add_sub_cancel_left]
  have hdiv : (255 * k + b.toNat) / 255 = k := by omega
  have hmod : (255 * k + b.toNat) % 255 = b.toNat := by omega
  rw [hdiv, hmod, UInt8.ofNat_toNat]

/-- How many bytes a length takes. -/
theorem length_lengthBytes (n : Nat) :
    n < 15 ∧ (lengthBytes n).length = 0 ∨
      15 ≤ n ∧ (lengthBytes n).length = (n - 15) / 255 + 1 := by
  unfold lengthBytes
  split
  · rename_i h
    exact Or.inl ⟨h, rfl⟩
  · rename_i h
    refine Or.inr ⟨Nat.le_of_not_lt h, ?_⟩
    rw [List.length_append, List.length_replicate]
    rfl

/-- The bytes up to the first that is not 255. -/
def readRun : Bytes → Nat × Bytes
  | [] => (0, [])
  | b :: rest => if b = 255 then (255 + (readRun rest).1, (readRun rest).2) else (b.toNat, rest)

theorem readRun_append {b : UInt8} (hb : b.toNat < 255) (rest : Bytes) : ∀ k : Nat,
    readRun (List.replicate k 255 ++ [b] ++ rest) = (255 * k + b.toNat, rest)
  | 0 => by
      have hne : b ≠ 255 := by
        rintro rfl
        exact absurd hb (by decide)
      rw [List.replicate_zero, List.nil_append, List.singleton_append, readRun, if_neg hne]
      congr 1
      omega
  | k + 1 => by
      have ih := readRun_append hb rest k
      rw [List.replicate_succ, List.cons_append, List.cons_append, readRun, if_pos rfl, ih]
      congr 1
      omega

/-- A length behind its token. -/
def readLength (code : Nat) (bytes : Bytes) : Nat × Bytes :=
  if code < RUN_MASK then (code, bytes) else (RUN_MASK + (readRun bytes).1, (readRun bytes).2)

theorem readLength_lengthBytes (n : Nat) (rest : Bytes) :
    readLength (min n RUN_MASK) (lengthBytes n ++ rest) = (n, rest) := by
  by_cases h : n < RUN_MASK
  · rw [lengthBytes_of_lt h, Nat.min_eq_left h.le, readLength, if_pos h, List.nil_append]
  · obtain ⟨k, b, hbytes, hb, hn⟩ := lengthBytes_of_le (Nat.le_of_not_lt h)
    rw [hbytes, Nat.min_eq_right (by omega), readLength, if_neg (lt_irrefl _), readRun_append hb]
    congr 1
    exact hn.symm

/-! ## Sequences -/

def le16 (n : Nat) : Bytes := [UInt8.ofNat n, UInt8.ofNat (n / 256)]

def ofLe16 (a b : UInt8) : Nat := a.toNat + 256 * b.toNat

theorem ofLe16_lt (a b : UInt8) : ofLe16 a b < 65536 := by
  have ha := a.toNat_lt
  have hb := b.toNat_lt
  simp only [ofLe16]
  omega

theorem le16_ofLe16 (a b : UInt8) : le16 (ofLe16 a b) = [a, b] := by
  have ha := a.toNat_lt
  have hb := b.toNat_lt
  have hlow : UInt8.ofNat (ofLe16 a b) = a := by
    apply UInt8.toNat_inj.mp
    rw [UInt8.toNat_ofNat', ofLe16]
    omega
  have hhigh : UInt8.ofNat (ofLe16 a b / 256) = b := by
    apply UInt8.toNat_inj.mp
    rw [UInt8.toNat_ofNat', ofLe16]
    omega
  rw [le16, hlow, hhigh]

theorem ofLe16_le16 {n : Nat} (h : n < 65536) :
    ofLe16 (UInt8.ofNat n) (UInt8.ofNat (n / 256)) = n := by
  rw [ofLe16, UInt8.toNat_ofNat', UInt8.toNat_ofNat']
  omega

/-- Literals, and a match `offset` bytes before the end of the text, of
`matchCode + MINMATCH` bytes. -/
structure Sequence where
  literals : Bytes
  offset : Nat
  matchCode : Nat
  offset_lt : offset < 65536

namespace Sequence

def matchLength (s : Sequence) : Nat := s.matchCode + MINMATCH

def bytes (s : Sequence) : Bytes :=
  token s.literals.length s.matchCode :: (lengthBytes s.literals.length ++
    (s.literals ++ (le16 s.offset ++ lengthBytes s.matchCode)))

/-- The text behind the sequence. -/
def text (s : Sequence) (out : Bytes) : Bytes := backCopy s.offset s.matchLength (out ++ s.literals)

@[simp] theorem length_text (s : Sequence) (out : Bytes) :
    (s.text out).length = out.length + s.literals.length + s.matchLength := by
  rw [text, length_backCopy, List.length_append]

/-- The match does not begin before the text. -/
def InReach (s : Sequence) (out : Bytes) : Prop := s.offset ≤ out.length + s.literals.length

def read : Bytes → Option (Sequence × Bytes)
  | [] => none
  | t :: bytes =>
      let lit := readLength (t.toNat / 16) bytes
      match lit.2.drop lit.1 with
      | a :: b :: rest =>
          let code := readLength (t.toNat % 16) rest
          some (⟨lit.2.take lit.1, ofLe16 a b, code.1, ofLe16_lt a b⟩, code.2)
      | _ => none

theorem read_bytes (s : Sequence) (rest : Bytes) : read (s.bytes ++ rest) = some (s, rest) := by
  simp only [bytes, List.cons_append, List.append_assoc, read]
  rw [token_div, token_mod, readLength_lengthBytes]
  simp only [List.take_left, List.drop_left, le16, List.cons_append, List.nil_append]
  rw [show ML_MASK = RUN_MASK from rfl, readLength_lengthBytes]
  simp only [ofLe16_le16 s.offset_lt]

/-- A sequence has one reading. -/
theorem bytes_inj {s s' : Sequence} {rest rest' : Bytes}
    (h : s.bytes ++ rest = s'.bytes ++ rest') : s = s' ∧ rest = rest' := by
  have hread := congrArg read h
  rw [read_bytes, read_bytes] at hread
  exact Prod.mk.injEq .. |>.mp (Option.some.inj hread)

theorem length_bytes_pos (s : Sequence) : 0 < s.bytes.length := by
  rw [bytes]
  exact Nat.succ_pos _

end Sequence

/-! ## Blocks -/

/-- The text that sequences write behind a text, if every match is in reach. -/
def expand : List Sequence → Bytes → Option Bytes
  | [], out => some out
  | s :: ss, out => if s.offset ≤ out.length + s.literals.length then expand ss (s.text out) else none

theorem expand_append : ∀ (ss ts : List Sequence) (out : Bytes),
    expand (ss ++ ts) out = (expand ss out).bind (expand ts)
  | [], _, _ => rfl
  | s :: ss, ts, out => by
      rw [List.cons_append, expand, expand]
      split
      · exact expand_append ss ts (s.text out)
      · rfl

/-- Sequences, the last literals, and the half of their token that nothing reads.
More than the format allows is a block: an offset of 0, which the decoder takes for
zeros, and ends that `Ends` excludes. `WellFormed` is what the format asks. -/
structure Block where
  sequences : List Sequence
  lastLiterals : Bytes
  spare : Nat

/-- The last literals with their token. -/
def lastBytes (literals : Bytes) (spare : Nat) : Bytes :=
  token literals.length spare :: (lengthBytes literals.length ++ literals)

namespace Block

def bytes (b : Block) : Bytes :=
  b.sequences.flatMap Sequence.bytes ++ lastBytes b.lastLiterals b.spare

def text (b : Block) : Option Bytes := (expand b.sequences []).map (· ++ b.lastLiterals)

/-- Behind each of the sequences there are still `LASTLITERALS` bytes of the
text, and its match begins `MFLIMIT` bytes before the end. -/
def Ends (size : Nat) : List Sequence → Bytes → Prop
  | [], _ => True
  | s :: ss, out => (s.text out).length + LASTLITERALS ≤ size ∧
      out.length + s.literals.length + MFLIMIT ≤ size ∧ Ends size ss (s.text out)

/-- What the format asks of a block. -/
structure WellFormed (b : Block) (text : Bytes) : Prop where
  text_eq : b.text = some text
  ends : Ends text.length b.sequences []
  lastLiterals_le : b.sequences ≠ [] → LASTLITERALS ≤ b.lastLiterals.length

end Block

theorem length_lastBytes_pos (literals : Bytes) (spare : Nat) :
    0 < (lastBytes literals spare).length := Nat.succ_pos _

theorem lastBytes_inj {l l' : Bytes} {n n' : Nat} {rest : Bytes}
    (h : lastBytes l n = lastBytes l' n' ++ rest) : l = l' ++ rest := by
  rw [lastBytes, lastBytes, List.cons_append] at h
  obtain ⟨htoken, hbytes⟩ := List.cons.inj h
  have hcode := congrArg (fun t : UInt8 => t.toNat / 16) htoken
  simp only [token_div] at hcode
  have hread := congrArg (readLength (min l.length RUN_MASK)) hbytes
  rw [readLength_lengthBytes, hcode, List.append_assoc, readLength_lengthBytes] at hread
  exact (Prod.mk.injEq .. |>.mp hread).2

end ShieldReduce.Lz4
