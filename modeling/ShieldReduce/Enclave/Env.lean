import ShieldReduce.Edelta.RoundTrip
import ShieldReduce.Store.Container

/-!
# The enclave's environment

What the enclave calls and the repository does not define: the hash, the
ciphers under the keys of the enclave and of the clients, LZ4. They are
fields of `Env`, together with the configuration of a server run and the
iteration order of its hash maps. `Env.Lawful` is what the code relies
on: decryption undoes encryption, and LZ4 undoes LZ4.

A chunk is stored compressed where that helps and raw otherwise, and no
flag tells which. The reader tries to decompress; `unpack` and
`unpackOffline` are the two ways the code takes the answer. Neither is
right unless no chunk that is stored raw happens to decompress, which is
`Lz4Raw` for the one and `Lz4Strict` for the other.
-/

namespace ShieldReduce

open ByteLib UMapLib

abbrev Key := BytesN 32

/-- The chunks a client may send. -/
abbrev Chunk := { c : Bytes // 0 < c.length ∧ c.length ≤ MAX_CHUNK_SIZE }

structure Env where
  /-- SHA-256 of a chunk. -/
  generateHash : Bytes → Fp
  /-- AES-CMC under `indexQueryKey_`. -/
  indexAESCMCEnc : Fp → Fp
  /-- AES-CBC under `indexQueryKey_`. -/
  aesCBCEnc : Cipher → Cipher
  aesCBCDec : Cipher → Cipher
  /-- Under `enclaveKey_`. -/
  encryptWithKeyIV : Bytes → Iv → Bytes
  decryptionWithKeyIV : Bytes → Iv → Bytes
  /-- Under a client's master key. -/
  encryptWithKey : Key → Bytes → Bytes
  decryptWithKey : Key → Bytes → Bytes
  sessionKeyEnc : Key → Bytes → Bytes
  sessionKeyDec : Key → Bytes → Bytes
  /-- `none` is a result of 0: the output does not fit the size of the input. -/
  lz4CompressFast : Bytes → Option Bytes
  /-- `none` is a negative result, for an output of at most `MAX_CHUNK_SIZE` bytes. -/
  lz4DecompressSafe : Bytes → Option Bytes
  /-- The super-features of the chunk at an offset of the receive buffer. -/
  getSF2 : (recvBuffer : Bytes) → (currentOffset chunkSize : Nat) → Sf
  heuristics : Edelta.Heuristics
  walkOrder : WalkOrder
  forwardFlag : Bool
  offlineFlag : Bool
  topThreshold : Nat
  sketchWidth : Nat
  sketchDepth : Nat
  sendRecipeBatchSize : Nat
  sendChunkBatchSize : Nat

namespace Env

variable (env : Env)

/-- The key of a chunk in the index: its encrypted fingerprint. -/
def fp (chunk : Bytes) : Fp := env.indexAESCMCEnc (env.generateHash chunk)

def encEntry (e : RecipeEntry) : Cipher := env.aesCBCEnc ⟨e.toBytes, e.length_toBytes⟩

def decEntry (c : Cipher) : RecipeEntry := RecipeEntry.ofBytes (env.aesCBCDec c).1

/-- What is encrypted for a chunk that is stored whole. -/
def pack (chunk : Bytes) : Bytes := (env.lz4CompressFast chunk).getD chunk

/-- A result `> 0` is the chunk, any other says that it was stored raw. -/
def unpack (data : Bytes) : Bytes :=
  match env.lz4DecompressSafe data with
  | some (b :: out) => b :: out
  | _ => data

/-- Only a result `< 0` says that it was stored raw. -/
def unpackOffline (data : Bytes) : Bytes := (env.lz4DecompressSafe data).getD data

/-- What the code relies on. -/
structure Lawful : Prop where
  cmc_injective : Function.Injective env.indexAESCMCEnc
  cbc : ∀ x, env.aesCBCDec (env.aesCBCEnc x) = x
  keyIV : ∀ x iv, env.decryptionWithKeyIV (env.encryptWithKeyIV x iv) iv = x
  length_keyIV : ∀ x iv, (env.encryptWithKeyIV x iv).length = x.length
  length_decKeyIV : ∀ x iv, (env.decryptionWithKeyIV x iv).length = x.length
  masterKey : ∀ k x, env.decryptWithKey k (env.encryptWithKey k x) = x
  length_masterKey : ∀ k x, (env.encryptWithKey k x).length = x.length
  sessionKey : ∀ k x, env.sessionKeyDec k (env.sessionKeyEnc k x) = x
  /-- A compressed chunk is not empty, not longer, and decompresses to the chunk. -/
  lz4 : ∀ (c : Chunk) p, env.lz4CompressFast c.1 = some p →
    p ≠ [] ∧ p.length ≤ c.1.length ∧ env.lz4DecompressSafe p = some c.1
  lz4_bound : ∀ p out, env.lz4DecompressSafe p = some out → out.length ≤ MAX_CHUNK_SIZE

/-- No chunk that is stored raw decompresses to something. -/
def Lz4Raw : Prop :=
  ∀ (c : Chunk) out, env.lz4CompressFast c.1 = none → env.lz4DecompressSafe c.1 = some out → out = []

/-- Decompressing a chunk that is stored raw is an error. -/
def Lz4Strict : Prop :=
  ∀ c : Chunk, env.lz4CompressFast c.1 = none → env.lz4DecompressSafe c.1 = none

end Env

variable {env : Env}

theorem Env.Lawful.decEntry_encEntry (h : env.Lawful) (e : RecipeEntry) :
    env.decEntry (env.encEntry e) = e := by
  have hbytes := RecipeEntry.ofBytes_toBytes e []
  rw [List.append_nil] at hbytes
  rw [Env.decEntry, Env.encEntry, h.cbc, hbytes]

theorem Env.Lawful.encEntry_inj (h : env.Lawful) {e e' : RecipeEntry}
    (heq : env.encEntry e = env.encEntry e') : e = e' := by
  rw [← h.decEntry_encEntry e, heq, h.decEntry_encEntry]

theorem Env.Lawful.length_pack (h : env.Lawful) (c : Chunk) :
    0 < (env.pack c.1).length ∧ (env.pack c.1).length ≤ c.1.length := by
  rw [Env.pack]
  cases hc : env.lz4CompressFast c.1 with
  | none => exact ⟨c.2.1, le_refl _⟩
  | some p =>
      obtain ⟨hne, hle, -⟩ := h.lz4 c p hc
      exact ⟨List.length_pos_of_ne_nil hne, hle⟩

/-- The chunk is read back, compressed or not. -/
theorem Env.Lawful.unpack_pack (h : env.Lawful) (hr : env.Lz4Raw) (c : Chunk) :
    env.unpack (env.pack c.1) = c.1 := by
  rw [Env.pack]
  cases hc : env.lz4CompressFast c.1 with
  | none =>
      rw [Option.getD_none, Env.unpack]
      split
      · rename_i b out hout
        cases hr c (b :: out) hc hout
      · rfl
  | some p =>
      obtain ⟨-, -, hdec⟩ := h.lz4 c p hc
      rw [Option.getD_some, Env.unpack, hdec]
      obtain ⟨⟨⟩ | ⟨b, out⟩, hpos, -⟩ := c
      · exact absurd hpos (lt_irrefl 0)
      · rfl

theorem Env.Lawful.unpackOffline_pack (h : env.Lawful) (hs : env.Lz4Strict) (c : Chunk) :
    env.unpackOffline (env.pack c.1) = c.1 := by
  rw [Env.pack, Env.unpackOffline]
  cases hc : env.lz4CompressFast c.1 with
  | none => rw [Option.getD_none, hs c hc, Option.getD_none]
  | some p =>
      obtain ⟨-, -, hdec⟩ := h.lz4 c p hc
      rw [Option.getD_some, hdec, Option.getD_some]

theorem Env.Lz4Strict.raw (h : env.Lz4Strict) : env.Lz4Raw := by
  intro c out hc hout
  rw [h c hc] at hout
  cases hout

theorem Env.Lawful.length_unpack (h : env.Lawful) {data : Bytes} (hd : data.length ≤ MAX_CHUNK_SIZE) :
    (env.unpack data).length ≤ MAX_CHUNK_SIZE := by
  unfold Env.unpack
  split
  · rename_i b out hout
    exact h.lz4_bound _ _ hout
  · exact hd

theorem Env.Lawful.length_unpackOffline (h : env.Lawful) {data : Bytes}
    (hd : data.length ≤ MAX_CHUNK_SIZE) : (env.unpackOffline data).length ≤ MAX_CHUNK_SIZE := by
  unfold Env.unpackOffline
  cases hout : env.lz4DecompressSafe data with
  | none => exact hd
  | some out => exact h.lz4_bound _ _ hout

/-! ## Delta encoding of byte strings -/

/-- `ed3_decode` and `ed3_decode_buffer`. -/
def ed3Decode (delta base : Bytes) : Bytes :=
  (Edelta.eDeltaDecode (memOf delta) delta.length (memOf base)).outBuf

/-- A delta of `new` against `base`, which every decoder turns into `new`. -/
def IsDelta (delta new base : Bytes) : Prop := ed3Decode delta base = new

/-- Whatever buffers the encoder had the two chunks in. -/
theorem isDelta_of_spells {f : Edelta.Job} {delta new base : Bytes}
    (h : Edelta.Spells f delta f.newSize) (hpos : 0 < f.newSize)
    (hnew : slice f.newBuf 0 f.newSize = new) (hbase : slice f.baseBuf 0 f.baseSize = base)
    (hlen : f.baseSize = base.length) : IsDelta delta new base := by
  have hb : slice (memOf base) 0 f.baseSize = slice f.baseBuf 0 f.baseSize := by
    rw [hlen, slice_memOf_self, ← hlen, hbase]
  rw [IsDelta, ed3Decode, h.decode hpos (slice_memOf_self delta) hb, hnew]

/-- How long the decoded chunk is does not depend on the base. -/
theorem length_ed3Decode {f : Edelta.Job} {delta : Bytes} {n : Nat} (h : Edelta.Spells f delta n)
    (base : Bytes) : (ed3Decode delta base).length = n := by
  obtain ⟨ops, hgood, -, rfl, htext⟩ := h
  have hlen : (applyOps (memOf base) ops).length = n := by
    rw [length_applyOps (memOf base) f.baseBuf, htext, length_slice]
  rw [← hlen, ed3Decode]
  by_cases hne : ops = []
  · subst hne
    rfl
  · rw [Edelta.eDeltaDecode_units hne (fun op hop => (hgood op hop).1) (slice_memOf_self _)]

/-! ## An environment -/

/-- Nothing is encrypted or compressed, the hash of a chunk is its first
bytes, and all chunks have the same super-features. -/
def Env.plain : Env where
  generateHash := BytesN.ofBytes 32
  indexAESCMCEnc := id
  aesCBCEnc := id
  aesCBCDec := id
  encryptWithKeyIV := fun x _ => x
  decryptionWithKeyIV := fun x _ => x
  encryptWithKey := fun _ x => x
  decryptWithKey := fun _ x => x
  sessionKeyEnc := fun _ x => x
  sessionKeyDec := fun _ x => x
  lz4CompressFast := fun _ => none
  lz4DecompressSafe := fun _ => none
  getSF2 := fun _ _ _ => BytesN.ofBytes 96 []
  heuristics := ⟨fun _ => 0, fun _ _ _ _ => true⟩
  walkOrder := .stored
  forwardFlag := false
  offlineFlag := true
  topThreshold := 1
  sketchWidth := 1
  sketchDepth := 1
  sendRecipeBatchSize := 2
  sendChunkBatchSize := 2

theorem Env.lawful_plain : Env.plain.Lawful where
  cmc_injective := Function.injective_id
  cbc := fun _ => rfl
  keyIV := fun _ _ => rfl
  length_keyIV := fun _ _ => rfl
  length_decKeyIV := fun _ _ => rfl
  masterKey := fun _ _ => rfl
  length_masterKey := fun _ _ => rfl
  sessionKey := fun _ _ => rfl
  lz4 := fun _ _ h => by cases h
  lz4_bound := fun _ _ h => by cases h

theorem Env.lz4Strict_plain : Env.plain.Lz4Strict := fun _ _ => rfl

/-- Every similar chunk is encoded as it arrives, whatever its batch asks for. -/
def inlineEnv : Env := { Env.plain with forwardFlag := true }

theorem lawful_inline : inlineEnv.Lawful := by
  obtain ⟨h1, h2, h3, h4, h5, h6, h7, h8, h9, h10⟩ := Env.lawful_plain
  exact ⟨h1, h2, h3, h4, h5, h6, h7, h8, h9, h10⟩

theorem lz4Strict_inline : inlineEnv.Lz4Strict := fun _ _ => rfl

end ShieldReduce
