import ShieldReduce.Guarantee.Codec
import ShieldReduce.Lz4.RoundTrip

/-!
# Chunks and LZ4

The enclave compresses a chunk into as many bytes as it has and
decompresses into `MAX_CHUNK_SIZE` bytes. With the LZ4 of the repository
an environment is lawful if its ciphers are. It is not true that no
chunk that is stored raw decompresses: what is too short to be
compressed may be a block.
-/

namespace ShieldReduce

open ByteLib

namespace Lz4

/-- `LZ4_compress_fast(chunk, out, chunkSize, chunkSize, 3)` -/
def compressChunk (chunk : Bytes) : Option Bytes :=
  match compressFast (memOf chunk) (fun _ => 0) chunk.length chunk.length 3 with
  | none => none
  | some (size, e) => if size = 0 then none else some (slice e.dst 0 size)

/-- `LZ4_decompress_safe(data, out, size, MAX_CHUNK_SIZE)` -/
def decompressChunk (data : Bytes) : Option Bytes :=
  match decompressSafe (memOf data) data.length MAX_CHUNK_SIZE (fun _ => 0) with
  | none => none
  | some (r, d) => if r < 0 then none else some (slice d.dst 0 r.toNat)

theorem compressChunk_spec {chunk p : Bytes} (hsize : chunk.length ≤ MAX_CHUNK_SIZE)
    (h : compressChunk chunk = some p) :
    p ≠ [] ∧ p.length ≤ chunk.length ∧ decompressChunk p = some chunk := by
  obtain ⟨size, e, hrun, -, hres⟩ :=
    compressFast_spec (memOf chunk) (fun _ => 0) chunk.length chunk.length 3
  rw [compressChunk, hrun] at h
  simp only at h
  split at h
  · cases h
  · rename_i hne
    obtain rfl := Option.some.inj h
    have hbound : compressBound chunk.length ≤ MAX_READ := by
      simp only [MAX_CHUNK_SIZE, MAX_READ] at *
      rw [compressBound, if_neg (by simp only [LZ4_MAX_INPUT_SIZE]; omega)]
      omega
    have hcopy : slice (memOf (slice e.dst 0 size)) 0 size = slice e.dst 0 size := by
      have hself := slice_memOf_self (slice e.dst 0 size)
      rwa [length_slice] at hself
    obtain ⟨d, hdecode, htext⟩ := decompress_compressed hbound hsize (by decide) hrun hne hcopy
      (fun _ => 0)
    refine ⟨?_, ?_, ?_⟩
    · intro hnil
      have hlen := congrArg List.length hnil
      rw [length_slice] at hlen
      exact hne hlen
    · rw [length_slice]
      exact (hres.resolve_left fun hzero => hne hzero.1).2.1
    · rw [decompressChunk, length_slice, hdecode]
      simp only
      rw [if_neg (by omega), Int.toNat_natCast, htext, slice_memOf_self]

theorem decompressChunk_bound {data out : Bytes} (h : decompressChunk data = some out) :
    out.length ≤ MAX_CHUNK_SIZE := by
  obtain ⟨r, d, hrun, -, hle, -⟩ :=
    decompressSafe_sound (memOf data) (fun _ => 0) data.length MAX_CHUNK_SIZE
  rw [decompressChunk, hrun] at h
  simp only at h
  split at h
  · cases h
  · obtain rfl := Option.some.inj h
    rw [length_slice]
    omega

/-- Without a match the token alone is too much. -/
theorem compressChunk_short {chunk : Bytes} (hpos : 0 < chunk.length)
    (hshort : chunk.length < LZ4_minLength) : compressChunk chunk = none := by
  have hn : chunk.length < 13 := hshort
  have hmax : ¬ LZ4_MAX_INPUT_SIZE < chunk.length := by
    simp only [LZ4_MAX_INPUT_SIZE]
    omega
  have hcap : ¬ compressBound chunk.length ≤ chunk.length := by
    rw [compressBound, if_neg hmax]
    omega
  have hlimit : ¬ LZ4_64Klimit ≤ chunk.length := by
    simp only [LZ4_64Klimit, MFLIMIT]
    omega
  have hover : chunk.length < 0 + (chunk.length - 0) + 1 + (chunk.length - 0 + 255 - RUN_MASK) / 255 := by
    omega
  rw [compressChunk, compressFast, if_neg hcap, Job.compressGeneric, if_neg hmax,
    if_neg hpos.ne', Job.compressGenericValidated, if_neg fun h => hlimit h.2, if_pos hshort,
    Job.encodeLastLiterals]
  simp only [Job.overflows, decide_eq_true hover, if_true]

end Lz4

variable {env : Env}

/-- The enclave with the LZ4 of the repository. -/
def Env.withLz4 (env : Env) : Env :=
  { env with lz4CompressFast := Lz4.compressChunk, lz4DecompressSafe := Lz4.decompressChunk }

theorem Env.Lawful.withLz4 (h : env.Lawful) : env.withLz4.Lawful :=
  { h with
    lz4 := fun c _ hp => Lz4.compressChunk_spec c.2.2 hp
    lz4_bound := fun _ _ hout => Lz4.decompressChunk_bound hout }

/-- **Chunks that are blocks.** A chunk of less than `LZ4_minLength` bytes that is
itself a block is stored as it is, and what is recovered is the text of the block. -/
theorem recoverStored_block (henv : env.Lawful) (s : Session) {chunkAddr : RecipeEntry}
    (hflag : chunkAddr.deltaFlag = NO_DELTA) (c : Chunk) (sf : Sf) (fp : Fp) {b : Lz4.Block}
    {text : Bytes} (hbytes : c.1 = b.bytes) (hb : b.WellFormed text)
    (hshort : c.1.length < Lz4.LZ4_minLength) (hne : text ≠ [])
    (hroom : text.length ≤ MAX_CHUNK_SIZE) :
    getChunkContent
        ((s.processSheUniqueChunk env.withLz4 chunkAddr c.1 sf fp).2.client.cur .base).buf
        (s.processSheUniqueChunk env.withLz4 chunkAddr c.1 sf fp).1 =
      env.encryptWithKeyIV c.1 (pickNewIV s.client.iv) ∧
    recoverStored env.withLz4 s chunkAddr c.1 sf fp = text := by
  obtain ⟨hpayload, hiv⟩ := processSheUniqueChunk_whole henv.withLz4 s hflag c sf fp
  have hpack : env.withLz4.pack c.1 = c.1 := by
    rw [Env.pack]
    exact congrArg (fun o : Option Bytes => o.getD c.1) (Lz4.compressChunk_short c.2.1 hshort)
  have hdecode : Lz4.decompressChunk c.1 = some text := by
    have hself : slice (memOf c.1) 0 c.1.length = b.bytes := (slice_memOf_self c.1).trans hbytes
    have hsmall : c.1.length ≤ Lz4.MAX_READ := by
      simp only [Lz4.LZ4_minLength, Lz4.MFLIMIT, Lz4.MAX_READ] at *
      omega
    obtain ⟨d, hrun, htext⟩ := Lz4.decompressSafe_block hb hself hsmall hroom (by decide) fun _ => 0
    rw [Lz4.decompressChunk, hrun]
    simp only
    rw [if_neg (by omega), Int.toNat_natCast, htext]
  refine ⟨by rw [hpayload, hpack]; rfl, ?_⟩
  obtain ⟨x, rest, rfl⟩ := List.exists_cons_of_ne_nil hne
  have hunpack : env.withLz4.lz4DecompressSafe c.1 = some (x :: rest) := hdecode
  simp only [recoverStored, recoverOneChunk, hpayload, hiv, henv.withLz4.keyIV, hpack, Env.unpack,
    hunpack]

/-- Two bytes of which one comes back. -/
theorem recoverStored_oneLiteral :
    recoverStored Env.plain.withLz4 (firstSession .plain) wholeEntry [0x10, 0xAA]
      (BytesN.ofBytes 96 []) (BytesN.ofBytes 32 [7]) = [0xAA] :=
  And.right <| recoverStored_block Env.lawful_plain (firstSession .plain) rfl ⟨[0x10, 0xAA], by decide⟩ _ _
    (b := ⟨[], [0xAA], 0⟩) rfl ⟨rfl, trivial, fun h => absurd rfl h⟩ (by decide) (by decide)
    (by decide)

end ShieldReduce
