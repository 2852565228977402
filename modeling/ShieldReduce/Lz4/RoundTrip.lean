import ShieldReduce.Lz4.CompressRun
import ShieldReduce.Lz4.DecodeRun

/-!
# LZ4 undoes LZ4

A block has one reading, so that `LZ4_decompress_safe` decodes a block
that ends as it should exactly where its text fits. What
`LZ4_compress_fast` writes is such a block for its input.
-/

namespace ShieldReduce.Lz4

open ByteLib

/-! ## Blocks have one reading -/

theorem blockBytes_inj {l l' : Bytes} {n n' : Nat} : ∀ {ss ss' : List Sequence},
    ss.flatMap Sequence.bytes ++ lastBytes l n = ss'.flatMap Sequence.bytes ++ lastBytes l' n' →
      ss = ss' ∧ l = l'
  | [], [], h => ⟨rfl, by simpa using lastBytes_inj (h.trans (List.append_nil _).symm)⟩
  | [], s :: ss', h => by
      rw [List.flatMap_cons, List.append_assoc] at h
      exact absurd h.symm (Decoder.lastBytes_ne s _ l n)
  | s :: ss, [], h => by
      rw [List.flatMap_cons, List.append_assoc] at h
      exact absurd h (Decoder.lastBytes_ne s _ l' n')
  | s :: ss, s' :: ss', h => by
      rw [List.flatMap_cons, List.append_assoc, List.flatMap_cons, List.append_assoc] at h
      obtain ⟨rfl, hrest⟩ := Sequence.bytes_inj h
      obtain ⟨rfl, rfl⟩ := blockBytes_inj hrest
      exact ⟨rfl, rfl⟩

/-- The bytes of a block say what its text is. -/
theorem Block.text_eq_of_bytes_eq {b b' : Block} (h : b.bytes = b'.bytes) : b.text = b'.text := by
  obtain ⟨hss, hlast⟩ := blockBytes_inj h
  rw [Block.text, Block.text, hss, hlast]

variable {source dest dest' compressed : Mem} {inputSize maxOutputSize maxDecompressedSize : Nat}
  {acceleration : Int} {size : Nat} {e : Encoder}

/-- A block that ends as it should has one reading. It is decoded where its text
fits, and refused where it does not. -/
theorem decompressSafe_wellFormed (source : Mem) {b : Block} {text : Bytes} (hb : b.WellFormed text)
    (hbytes : slice source 0 size = b.bytes) (hsmall : size ≤ MAX_READ)
    (hout : 0 < maxDecompressedSize) (dest : Mem) :
    (∀ b' : Block, slice source 0 size = b'.bytes → b'.text = some text) ∧
    ∃ (r : Int) (d : Decoder), decompressSafe source size maxDecompressedSize dest = some (r, d) ∧
      (text.length ≤ maxDecompressedSize → r = text.length ∧ slice d.dst 0 text.length = text) ∧
      (maxDecompressedSize < text.length → r < 0) := by
  have hone : ∀ b' : Block, slice source 0 size = b'.bytes → b'.text = some text := fun b' hbytes' => by
    rw [Block.text_eq_of_bytes_eq (hbytes'.symm.trans hbytes), hb.text_eq]
  obtain ⟨r, d, hrun, -, hle, hread⟩ := decompressSafe_sound source dest size maxDecompressedSize
  refine ⟨hone, r, d, hrun, fun hroom => ?_, fun hroom => ?_⟩
  · obtain ⟨d', hrun', htext⟩ := decompressSafe_block hb hbytes hsmall hroom hout dest
    obtain ⟨rfl, rfl⟩ := Prod.mk.inj (Option.some.inj (hrun.symm.trans hrun'))
    exact ⟨rfl, htext⟩
  · by_contra hneg
    obtain ⟨b', hbytes', htext'⟩ := hread hsmall (by omega)
    have hsame := htext'.symm.trans (hone b' hbytes'.symm)
    have hlen := congrArg List.length (Option.some.inj hsame)
    rw [length_slice] at hlen
    omega

/-- Eighteen times the same byte. -/
def sevens : Block := ⟨[⟨[7], 1, 8, by decide⟩], [7, 7, 7, 7, 7], 0⟩

theorem wellFormed_sevens : sevens.WellFormed (List.replicate 18 7) where
  text_eq := by decide
  ends := ⟨by decide, by decide, trivial⟩
  lastLiterals_le := fun _ => le_refl 5

/-- In eighteen bytes, and not in seventeen. -/
theorem decompressSafe_sevens :
    (∃ d, decompressSafe (memOf sevens.bytes) 10 18 (fun _ => 0) = some (18, d) ∧
      slice d.dst 0 18 = List.replicate 18 7) ∧
    ∃ r d, decompressSafe (memOf sevens.bytes) 10 17 (fun _ => 0) = some (r, d) ∧ r < 0 := by
  obtain ⟨-, r, d, hrun, hfits, -⟩ := decompressSafe_wellFormed (memOf sevens.bytes)
    wellFormed_sevens (slice_memOf_self sevens.bytes) (by decide) (show 0 < 18 by decide) fun _ => 0
  obtain ⟨-, r', d', hrun', -, hlarge⟩ := decompressSafe_wellFormed (memOf sevens.bytes)
    wellFormed_sevens (slice_memOf_self sevens.bytes) (by decide) (show 0 < 17 by decide) fun _ => 0
  obtain ⟨rfl, htext⟩ := hfits (by decide)
  exact ⟨⟨d, hrun, htext⟩, r', d', hrun', hlarge (by decide)⟩

/-! ## The round trip -/

/-- What was compressed decompresses to the input, wherever the input has room. -/
theorem decompress_compressed (hbound : compressBound inputSize ≤ MAX_READ)
    (hroom : inputSize ≤ maxDecompressedSize) (hout : 0 < maxDecompressedSize)
    (hrun : compressFast source dest inputSize maxOutputSize acceleration = some (size, e))
    (hsize : size ≠ 0) (hcopy : slice compressed 0 size = slice e.dst 0 size) (dest' : Mem) :
    ∃ d, decompressSafe compressed size maxDecompressedSize dest' = some ((inputSize : Int), d) ∧
      slice d.dst 0 inputSize = slice source 0 inputSize := by
  obtain ⟨size', e', hrun', -, hres⟩ :=
    compressFast_spec source dest inputSize maxOutputSize acceleration
  obtain ⟨rfl, rfl⟩ := Prod.mk.inj (Option.some.inj (hrun.symm.trans hrun'))
  obtain ⟨-, -, hle, b, hbytes, hb⟩ := hres.resolve_left fun h => hsize h.1
  obtain ⟨d, hdecode, htext⟩ := decompressSafe_block hb (hcopy.trans hbytes) (le_trans hle hbound)
    (show (slice source 0 inputSize).length ≤ maxDecompressedSize by rwa [length_slice]) hout dest'
  rw [length_slice] at hdecode htext
  exact ⟨d, hdecode, htext⟩

/-- **Compressing and decompressing.** `LZ4_compress_fast` returns and stays inside
its buffers. It returns 0 only for an output below `LZ4_compressBound` (or an input
above `LZ4_MAX_INPUT_SIZE`), and otherwise a size that fits, from which
`LZ4_decompress_safe` gets the input back in any output that has room for it, as
long as no length can wrap when it is read. -/
theorem compressFast_decompressSafe (source dest : Mem) (inputSize maxOutputSize : Nat)
    (acceleration : Int) :
    ∃ (size : Nat) (e : Encoder),
      compressFast source dest inputSize maxOutputSize acceleration = some (size, e) ∧
      e.Inside inputSize maxOutputSize ∧ size ≤ maxOutputSize ∧
      (size = 0 → inputSize ≤ LZ4_MAX_INPUT_SIZE → maxOutputSize < compressBound inputSize) ∧
      (size ≠ 0 → compressBound inputSize ≤ MAX_READ →
        ∀ (compressed dest' : Mem) (maxDecompressedSize : Nat),
        slice compressed 0 size = slice e.dst 0 size → inputSize ≤ maxDecompressedSize →
        0 < maxDecompressedSize →
        ∃ d, decompressSafe compressed size maxDecompressedSize dest' =
            some ((inputSize : Int), d) ∧
          slice d.dst 0 inputSize = slice source 0 inputSize) := by
  obtain ⟨size, e, hrun, hin, hres⟩ :=
    compressFast_spec source dest inputSize maxOutputSize acceleration
  refine ⟨size, e, hrun, hin, ?_, fun hzero hmax => ?_, fun hsize hbound compressed dest' room hcopy
    hroom hout => decompress_compressed hbound hroom hout hrun hsize hcopy dest'⟩
  · rcases hres with ⟨rfl, -⟩ | ⟨-, hle, -⟩
    · exact Nat.zero_le _
    · exact hle
  · rcases hres with ⟨-, hlimit⟩ | ⟨hpos, -⟩
    · exact hlimit hmax
    · omega

/-- Sixty times the same byte, and back. -/
theorem compressFast_sixtyBytes : ∃ (size : Nat) (e : Encoder),
    compressFast (fun _ => 7) (fun _ => 0) 60 76 3 = some (size, e) ∧ e.Inside 60 76 ∧ size ≤ 76 ∧
      ∃ d, decompressSafe e.dst size 60 (fun _ => 0) = some (60, d) ∧
        slice d.dst 0 60 = slice (fun _ => 7) 0 60 := by
  obtain ⟨size, e, hrun, hin, hle, hzero, hback⟩ :=
    compressFast_decompressSafe (fun _ => 7) (fun _ => 0) 60 76 3
  have hsize : size ≠ 0 := fun h => absurd (hzero h (by decide)) (by decide)
  exact ⟨size, e, hrun, hin, hle,
    hback hsize (by decide) e.dst (fun _ => 0) 60 rfl (le_refl _) (by decide)⟩

end ShieldReduce.Lz4
