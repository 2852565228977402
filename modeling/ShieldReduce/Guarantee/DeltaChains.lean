import ShieldReduce.Invariant.Offline
import ShieldReduce.Guarantee.RoundTrip
import ShieldReduce.Guarantee.Interrupted
import ShieldReduce.Guarantee.IvReuse

/-!
# Delta chunks keep their bases and their chunks

What uploads and offline passes together keep, in terms of the index
itself. A delta chunk has a base that is stored whole, and the indexes of
super-features and of delta chunks agree with that (`chains_reached`). An
offline pass may re-base, convert, compact and merge: every fingerprint
leads to the same chunk as before (`plaintext_processOff`).
-/

namespace ShieldReduce

open ByteLib UMapLib

variable {env : Env} {F : Containers} {abs : Fp → Option Content}

/-! ## The entries of the index -/

/-- The entry of the key is that of a chunk stored whole. -/
def BaseKey (env : Env) (db : InMemoryDatabase) (f : Fp) : Prop :=
  ∃ v, db.queryBuffer f = some v ∧ (env.decEntry v).deltaFlag = NO_DELTA

/-- The entry of the key is that of a delta chunk of `b`. -/
def DeltaKey (env : Env) (db : InMemoryDatabase) (f b : Fp) : Prop :=
  ∃ v, db.queryBuffer f = some v ∧ (env.decEntry v).deltaFlag = DELTA ∧
    (env.decEntry v).basechunkHash = b

/-- The entry of a fingerprint says what its content says. -/
theorem Rep.entry (henv : env.Lawful) {idx : Fp → Option Cipher} (h : Rep env F idx abs) {f : Fp}
    {v : Cipher} (hv : idx f = some v) : ∃ c, abs f = some c ∧
      (env.decEntry v).deltaFlag = c.deltaFlag ∧ (env.decEntry v).basechunkHash = c.basechunkHash := by
  obtain ⟨c, hc⟩ := Option.isSome_iff_exists.mp ((h.catalog.isSome_iff f).mp (by rw [hv]; rfl))
  obtain ⟨d, n, r, -, -, hidx, rfl⟩ := h.found hc
  obtain rfl := Option.some.inj (hv.symm.trans hidx)
  rw [henv.decEntry_encEntry]
  exact ⟨r.content env, hc, rfl, rfl⟩

theorem Rest.baseKey_iff (henv : env.Lawful) {s : Server} (h : Rest env s F abs) (f : Fp) :
    BaseKey env s.db f ↔ IsWhole abs f := by
  constructor
  · rintro ⟨v, hv, hflag⟩
    obtain ⟨c, hc, hc', -⟩ := h.stock.rep.entry henv hv
    exact ⟨c, hc, hc'.symm.trans hflag⟩
  · rintro ⟨c, hc, hflag⟩
    obtain ⟨-, v, hv, hv', -⟩ := h.present henv hc
    exact ⟨v, hv, hv'.trans hflag⟩

theorem Rest.deltaKey_iff (henv : env.Lawful) {s : Server} (h : Rest env s F abs) (f b : Fp) :
    DeltaKey env s.db f b ↔ IsDeltaOf abs f b := by
  constructor
  · rintro ⟨v, hv, hflag, hbase⟩
    obtain ⟨c, hc, hc', hb⟩ := h.stock.rep.entry henv hv
    exact ⟨c, hc, hc'.symm.trans hflag, hb.symm.trans hbase⟩
  · rintro ⟨c, hc, hflag, hbase⟩
    obtain ⟨-, v, hv, hv', hb⟩ := h.present henv hc
    exact ⟨v, hv, hv'.trans hflag, hb.trans hbase⟩

/-! ## Chains of depth one -/

structure Chains (env : Env) (db : InMemoryDatabase) : Prop where
  base : ∀ f b, DeltaKey env db f b → BaseKey env db b
  sf : ∀ f, db.InSF f → BaseKey env db f
  tracked : ∀ b, db.InSF b → (getList db.deltaIndex b).Nodup ∧
    ∀ f, f ∈ getList db.deltaIndex b ↔ DeltaKey env db f b

theorem Rest.chains (henv : env.Lawful) {s : Server} (h : Rest env s F abs) : Chains env s.db where
  base := by
    intro f b hf
    rw [h.deltaKey_iff henv] at hf
    rw [h.baseKey_iff henv]
    exact h.ledger.linked.base f b hf
  sf := by
    intro f hf
    rw [h.baseKey_iff henv]
    exact h.ledger.linked.InSF_whole hf
  tracked := by
    intro b hb
    obtain ⟨hnodup, hlist⟩ := h.ledger.linked.tracked b (Or.inl hb)
    refine ⟨hnodup, fun f => ?_⟩
    rw [hlist, h.deltaKey_iff henv]

/-- **Delta chunks.** Whatever is uploaded, and whenever an offline pass runs:
the base of a delta chunk is stored whole, so are the chunks that the
super-features lead to, and the delta chunks of these are all listed. -/
theorem chains_reached (henv : env.Lawful) {m : Residue} {s : Server} (hs : s.Reached env m)
    (hcounts : s.Counts) : Chains env s.db := by
  obtain ⟨F, abs, h⟩ := hs.rest henv hcounts
  exact h.chains henv

theorem chains_similar : Chains .plain ((Server.boot .plain blankResidue).run .plain
    [.upload (similarUpload 1), .offline (similarUpload 2) ⟨zeroCipher, 0, [], []⟩,
      .upload (similarUpload 3)]).db :=
  chains_reached Env.lawful_plain (Server.Reached.boot.run
    [.upload (similarUpload 1), .offline (similarUpload 2) ⟨zeroCipher, 0, [], []⟩,
      .upload (similarUpload 3)]) (by unfold Server.Counts; decide +kernel)

/-! ## Chunks in an offline pass -/

/-- The payload of a delta chunk is a delta of its chunk: decoding it against the
chunk of its base gives a chunk of that fingerprint. -/
def DeltasDecode (env : Env) (s : Server) : Prop :=
  ∀ f b, DeltaKey env s.db f b → ∃ chunk : Chunk, env.fp chunk.1 = f ∧
    s.plaintext env f = some chunk.1

theorem Rest.plaintext_eq (henv : env.Lawful) {s : Server} (h : Rest env s F abs) (f : Fp) :
    s.plaintext env f = plainOf env abs f := by
  rw [Server.plaintext, h.view, h.stock.rep.plaintext_eq henv]

/-- Chunks that are stored whole decode anyway. -/
theorem Rest.sound (henv : env.Lawful) (hraw : env.Lz4Raw) {s : Server} (h : Rest env s F abs)
    (hdeltas : DeltasDecode env s) : Sound env (fun _ => True) abs := by
  intro f c hc
  rcases h.stock.rep.flag_cases hc with hflag | hflag
  · obtain ⟨chunk, hfp, hdata⟩ := (h.ledger.contents f c hc).whole hflag
    refine ⟨chunk, trivial, hfp, ?_⟩
    rw [plainOf_whole hc hflag, hdata, henv.unpack_pack hraw]
  · have hkey : DeltaKey env s.db f c.basechunkHash :=
      (h.deltaKey_iff henv f _).mpr ⟨c, hc, hflag, rfl⟩
    obtain ⟨chunk, hfp, hchunk⟩ := hdeltas f _ hkey
    rw [h.plaintext_eq henv] at hchunk
    exact ⟨chunk, trivial, hfp, hchunk⟩

/-- So do all chunks as long as there has been no offline pass. -/
theorem deltasDecode_uploads (henv : env.Lawful) (hraw : env.Lz4Raw) (m : Residue) (us : List Upload)
    (hcounts : ((Server.boot env m).run env (us.map .upload)).Counts) :
    DeltasDecode env ((Server.boot env m).run env (us.map .upload)) := by
  obtain ⟨F, abs, h, -⟩ := (Uploaded.boot env (fun _ => True) m).run henv hraw us
    (fun _ _ => trivial) hcounts
  intro f b hf
  obtain ⟨c, hc, -⟩ := (h.rest.deltaKey_iff henv f b).mp hf
  obtain ⟨chunk, -, hfp, hchunk⟩ := h.sound f c hc
  exact ⟨chunk, hfp, (h.rest.plaintext_eq henv f).trans hchunk⟩

/-- **An offline pass keeps every chunk**: the index has the same keys, and
each leads to the same chunk. -/
theorem plaintext_processOff (henv : env.Lawful) (hstrict : env.Lz4Strict) {m : Residue} {s : Server}
    (hs : s.Reached env m) (hdeltas : DeltasDecode env s) (r : PassResidue)
    (hcounts : (processOff env s r).Counts) (f : Fp) :
    ((processOff env s r).db.queryBuffer f).isSome = (s.db.queryBuffer f).isSome ∧
      (processOff env s r).plaintext env f = s.plaintext env f := by
  obtain ⟨F, abs, h⟩ := hs.rest henv (le_trans (created_processOff env s r) hcounts)
  obtain ⟨F', abs', h', -, hchunks⟩ := h.processOff henv r hcounts
  constructor
  · have hkeys := hchunks.keys f
    rw [Bool.eq_iff_iff] at hkeys ⊢
    rw [h'.stock.rep.catalog.isSome_iff, h.stock.rep.catalog.isSome_iff, hkeys]
  · rw [h'.plaintext_eq henv, h.plaintext_eq henv]
    exact hchunks.plain hstrict (h.sound henv hstrict.raw hdeltas) f

theorem plaintext_processOff_similar :
    ((processOff .plain ((Server.boot .plain blankResidue).run .plain
        ([similarUpload 1, similarUpload 2].map .upload)) ⟨zeroCipher, 0, [], []⟩).db.queryBuffer
        (Env.plain.fp (1 :: (List.range 20).map UInt8.ofNat))).isSome =
      (((Server.boot .plain blankResidue).run .plain
        ([similarUpload 1, similarUpload 2].map .upload)).db.queryBuffer
        (Env.plain.fp (1 :: (List.range 20).map UInt8.ofNat))).isSome ∧
    (processOff .plain ((Server.boot .plain blankResidue).run .plain
        ([similarUpload 1, similarUpload 2].map .upload)) ⟨zeroCipher, 0, [], []⟩).plaintext .plain
        (Env.plain.fp (1 :: (List.range 20).map UInt8.ofNat)) =
      ((Server.boot .plain blankResidue).run .plain
        ([similarUpload 1, similarUpload 2].map .upload)).plaintext .plain
        (Env.plain.fp (1 :: (List.range 20).map UInt8.ofNat)) :=
  plaintext_processOff Env.lawful_plain Env.lz4Strict_plain
    (Server.Reached.boot.run ([similarUpload 1, similarUpload 2].map .upload))
    (deltasDecode_uploads Env.lawful_plain Env.lz4Strict_plain.raw blankResidue
      [similarUpload 1, similarUpload 2] (by unfold Server.Counts; decide +kernel))
    ⟨zeroCipher, 0, [], []⟩ (by unfold Server.Counts; decide +kernel) _

end ShieldReduce
