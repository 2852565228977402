import ShieldReduce.Invariant.Session

/-!
# Storing and recovering a chunk

`ProcessSheUniqueChunk` compresses a chunk if that makes it fit into its
own size and encrypts it; `RecoverOneChunk` decrypts and tries to
decompress. Nothing tells the reader which it was. A chunk that is
stored raw comes back unless it is itself an LZ4 block, of other bytes
than its own.
-/

namespace ShieldReduce

open ByteLib

variable {env : Env}

/-- `RecoverOneChunk`, for a payload and the IV behind it. -/
def recoverOneChunk (env : Env) (payload : Bytes) (iv : Iv) : Bytes :=
  env.unpack (env.decryptionWithKeyIV payload iv)

/-- The chunk is stored raw, and it decompresses to other bytes. -/
def Env.Misread (env : Env) (chunk : Bytes) : Prop :=
  env.lz4CompressFast chunk = none ∧
    ∃ out, env.lz4DecompressSafe chunk = some out ∧ out ≠ [] ∧ out ≠ chunk

theorem Env.Lawful.unpack_pack_iff (h : env.Lawful) (c : Chunk) :
    env.unpack (env.pack c.1) = c.1 ↔ ¬ env.Misread c.1 := by
  rw [Env.pack]
  cases hc : env.lz4CompressFast c.1 with
  | some p =>
      have hread : env.unpack p = c.1 := by
        obtain ⟨-, -, hdec⟩ := h.lz4 c p hc
        rw [Env.unpack, hdec]
        obtain ⟨⟨⟩ | ⟨b, out⟩, hpos, -⟩ := c
        · exact absurd hpos (lt_irrefl 0)
        · rfl
      refine ⟨fun _ hmis => ?_, fun _ => hread⟩
      rw [hmis.1] at hc
      cases hc
  | none =>
      rw [Option.getD_none, Env.unpack]
      split
      · rename_i b out hout
        constructor
        · rintro heq ⟨-, out', hout', -, hne⟩
          rw [hout] at hout'
          exact hne (Option.some.inj hout' ▸ heq)
        · intro hnot
          by_contra hne
          exact hnot ⟨hc, _, hout, List.cons_ne_nil _ _, hne⟩
      · rename_i hshort
        refine ⟨fun _ hmis => ?_, fun _ => rfl⟩
        obtain ⟨-, out, hout, hnil, -⟩ := hmis
        obtain ⟨b, rest, rfl⟩ := List.exists_cons_of_ne_nil hnil
        exact hshort b rest hout

/-- What `ProcessSheUniqueChunk` writes for a chunk that is stored whole: a record
that the entry leads to. -/
theorem processSheUniqueChunk_record (henv : env.Lawful) (s : Session) {chunkAddr : RecipeEntry}
    (hflag : chunkAddr.deltaFlag = NO_DELTA) (c : Chunk) (sf : Sf) (fp : Fp) :
    ∃ (r : Record) (name : ContainerName), r.PlacedIn name ∧
      r.entry = (s.processSheUniqueChunk env chunkAddr c.1 sf fp).1 ∧
      r.FoundIn ((s.processSheUniqueChunk env chunkAddr c.1 sf fp).2.client.cur .base).buf ∧
      r.payload = env.encryptWithKeyIV (env.pack c.1) (pickNewIV s.client.iv) ∧
      r.iv = pickNewIV s.client.iv := by
  have hsize : (env.encryptWithKeyIV (env.pack c.1) (pickNewIV s.client.iv)).length ≤
      MAX_CHUNK_SIZE := by
    rw [henv.length_keyIV]
    exact le_trans (henv.length_pack c).2 c.2.2
  -- the session after the IV is drawn, which `SavebaseChunk` starts from
  let s₁ : Session :=
    { client := { s.client with iv := pickNewIV s.client.iv }
      server := { s.server with
        onlineBackupSize := s.server.onlineBackupSize + UInt64.ofNat (env.pack c.1).length } }
  have hsave : s.processSheUniqueChunk env chunkAddr c.1 sf fp =
      s₁.saveChunk .base (env.encryptWithKeyIV (env.pack c.1) (pickNewIV s.client.iv))
        { chunkAddr with superfeature := sf } sf fp := by
    unfold Session.processSheUniqueChunk Session.savebaseChunk
    simp only [hflag, if_true]
    rfl
  obtain ⟨t, ht, hroom, heq⟩ := s₁.saveChunk_cases .base { chunkAddr with superfeature := sf } sf fp
    hsize
  have hiv : t.client.iv = pickNewIV s.client.iv := by
    rcases ht with rfl | rfl
    · rfl
    · rfl
  obtain ⟨hplaced, hfound⟩ := t.recordFor_found .base { chunkAddr with superfeature := sf } sf fp
    hsize hroom
  refine ⟨_, _, hplaced, ?_, ?_, rfl, hiv⟩
  · rw [hsave, heq]
  · rw [hsave, heq, cur_setCur_self]
    exact hfound

/-- Its entry leads to the payload and the IV. -/
theorem processSheUniqueChunk_whole (henv : env.Lawful) (s : Session) {chunkAddr : RecipeEntry}
    (hflag : chunkAddr.deltaFlag = NO_DELTA) (c : Chunk) (sf : Sf) (fp : Fp) :
    getChunkContent ((s.processSheUniqueChunk env chunkAddr c.1 sf fp).2.client.cur .base).buf
        (s.processSheUniqueChunk env chunkAddr c.1 sf fp).1 =
      env.encryptWithKeyIV (env.pack c.1) (pickNewIV s.client.iv) ∧
    getChunkIV ((s.processSheUniqueChunk env chunkAddr c.1 sf fp).2.client.cur .base).buf
        (s.processSheUniqueChunk env chunkAddr c.1 sf fp).1 = pickNewIV s.client.iv := by
  obtain ⟨r, name, hplaced, hentry, hfound, hpayload, hiv⟩ :=
    processSheUniqueChunk_record henv s hflag c sf fp
  rw [← hentry, hfound.getChunkContent hplaced, hfound.getChunkIV hplaced]
  exact ⟨hpayload, hiv⟩

/-- A chunk is stored, and recovered from the container it went to. -/
def recoverStored (env : Env) (s : Session) (chunkAddr : RecipeEntry) (chunk : Bytes) (sf : Sf)
    (fp : Fp) : Bytes :=
  let stored := s.processSheUniqueChunk env chunkAddr chunk sf fp
  let buf := (stored.2.client.cur .base).buf
  recoverOneChunk env (getChunkContent buf stored.1) (getChunkIV buf stored.1)

/-- **Codec round trip.** A chunk that is stored whole is recovered from its
payload and its IV exactly if it is not misread. -/
theorem recoverStored_eq_iff (henv : env.Lawful) (s : Session) {chunkAddr : RecipeEntry}
    (hflag : chunkAddr.deltaFlag = NO_DELTA) (c : Chunk) (sf : Sf) (fp : Fp) :
    recoverStored env s chunkAddr c.1 sf fp = c.1 ↔ ¬ env.Misread c.1 := by
  obtain ⟨hpayload, hiv⟩ := processSheUniqueChunk_whole henv s hflag c sf fp
  simp only [recoverStored, recoverOneChunk, hpayload, hiv, henv.keyIV]
  exact henv.unpack_pack_iff c

/-- The first session of a server. -/
def firstSession (env : Env) : Session :=
  .start (.boot env ⟨[], fun _ => []⟩) ⟨BytesN.ofBytes 32 [1], BytesN.ofBytes 32 [2],
    BytesN.ofBytes 32 [3], BytesN.ofBytes 16 [], BytesN.ofBytes 16 []⟩

def wholeEntry : RecipeEntry := { RecipeEntry.ofBytes [] with deltaFlag := NO_DELTA }

theorem recoverStored_oneByte :
    recoverStored Env.plain (firstSession .plain) wholeEntry [7] (BytesN.ofBytes 96 [])
      (BytesN.ofBytes 32 [7]) = [7] := by
  have hread : ¬ Env.plain.Misread [7] := by
    rintro ⟨-, out, hout, -⟩
    cases hout
  exact (recoverStored_eq_iff Env.lawful_plain (firstSession .plain) rfl ⟨[7], by decide⟩ _ _).mpr
    hread

/-- LZ4 for blocks of one short run of literals: the high half of the token is
the number of the literals, and they end the block. What is that short is
never compressed. -/
def lz4Literals : Bytes → Option Bytes
  | [] => none
  | token :: literals =>
      if token.toNat = 16 * literals.length ∧ literals.length < 15 then some literals else none

def Env.literals : Env := { Env.plain with lz4DecompressSafe := lz4Literals }

theorem Env.lawful_literals : Env.literals.Lawful :=
  { Env.lawful_plain with
    lz4 := fun _ _ h => by cases h
    lz4_bound := by
      intro p out hout
      rcases p with _ | ⟨token, lits⟩
      · cases hout
      · simp only [Env.literals, lz4Literals] at hout
        split at hout
        · rename_i hrun
          obtain rfl := Option.some.inj hout
          exact le_trans hrun.2.le (by decide)
        · cases hout }

/-- The chunk is a block itself, of the literal `0xAA`. -/
theorem not_recoverStored_block : Env.literals.Lawful ∧ wholeEntry.deltaFlag = NO_DELTA ∧
    recoverStored .literals (firstSession .literals) wholeEntry [0x10, 0xAA] (BytesN.ofBytes 96 [])
      (BytesN.ofBytes 32 [7]) = [0xAA] ∧ ([0xAA] : Bytes) ≠ [0x10, 0xAA] :=
  ⟨Env.lawful_literals, rfl, by decide +kernel, by decide⟩

end ShieldReduce
