import ShieldReduce.Lib.Bytes

/-!
# Reading a file front to back

An input stream is what is left to read and whether a read ran past the
end. A read that finds enough bytes fills its buffer; one that does not
overwrites the front of the buffer with what is left and fails, and a
failed stream does not touch buffers any more.
-/

namespace ByteLib

structure IFStream where
  rest : Bytes
  eof : Bool

/-- `read(buf, |buf|)`: the buffer afterwards, and the stream. -/
def IFStream.read (s : IFStream) (buf : Bytes) : Bytes × IFStream :=
  if s.eof then (buf, s)
  else if buf.length ≤ s.rest.length then
    (s.rest.take buf.length, ⟨s.rest.drop buf.length, false⟩)
  else (s.rest ++ buf.drop s.rest.length, ⟨[], true⟩)

/-- `read((char*)&x, sizeof(x))` into a 32-bit variable. -/
def IFStream.readInt (s : IFStream) (x : UInt32) : UInt32 × IFStream :=
  let (buf, s) := s.read (le32 x)
  (ofLe32 buf, s)

/-- `str.resize(n, 0)`. -/
def resize (str : Bytes) (n : Nat) : Bytes := (str ++ List.replicate n 0).take n

@[simp] theorem length_resize (str : Bytes) (n : Nat) : (resize str n).length = n := by
  simp [resize]

theorem IFStream.read_append {buf xs rest : Bytes} (h : xs.length = buf.length) :
    (⟨xs ++ rest, false⟩ : IFStream).read buf = (xs, ⟨rest, false⟩) := by
  simp [IFStream.read, ← h]

theorem IFStream.readInt_append (x y : UInt32) (rest : Bytes) :
    (⟨le32 y ++ rest, false⟩ : IFStream).readInt x = (y, ⟨rest, false⟩) := by
  have hlen : (le32 y).length = (le32 x).length := rfl
  have hy := ofLe32_le32 y []
  rw [List.append_nil] at hy
  simp only [IFStream.readInt, IFStream.read_append hlen, hy]

/-- Nothing is left: the variable keeps its value. -/
theorem IFStream.readInt_nil (x : UInt32) :
    (⟨[], false⟩ : IFStream).readInt x = (x, ⟨[], true⟩) := by
  have hx := ofLe32_le32 x []
  rw [List.append_nil] at hx
  simp [IFStream.readInt, IFStream.read, hx]

/-- A string behind its length. -/
def putString (str : Bytes) : Bytes := le32 (UInt32.ofNat str.length) ++ str

/-- `read` of the length into a variable, then of the string into a
buffer that was resized to it. -/
def IFStream.readString (s : IFStream) (x : UInt32) (str : Bytes) : Bytes × IFStream :=
  let (n, s) := s.readInt x
  s.read (resize str n.toNat)

theorem IFStream.readString_putString {str : Bytes} (h : str.length < 2 ^ 32) (x : UInt32)
    (old rest : Bytes) :
    (⟨putString str ++ rest, false⟩ : IFStream).readString x old = (str, ⟨rest, false⟩) := by
  have hn : (UInt32.ofNat str.length).toNat = str.length := by
    rw [UInt32.toNat_ofNat']
    omega
  rw [putString, List.append_assoc]
  simp only [IFStream.readString, IFStream.readInt_append, hn]
  exact IFStream.read_append (by simp)

end ByteLib
