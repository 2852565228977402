import ShieldReduce.Invariant.Deltas

/-!
# The books of the index store

Between offline passes the log of base replacements names bases that the
super-feature index lists, and replacements that it does not list; no
replacement is named twice (`LogOk`). `Ledger` is all that the index
store and the contents have to do with each other, apart from where the
contents are placed. A new chunk enters the books in one of three ways:
as a base that is listed, as a replacement in the log, or as a delta
chunk.
-/

namespace ShieldReduce

open ByteLib UMapLib

variable {env : Env} {db : InMemoryDatabase} {abs : Fp → Option Content}

/-! ## The log -/

namespace InMemoryDatabase

/-- The log names the fingerprint as a replacement, the last one of its base
or a superseded one. -/
def Logged (db : InMemoryDatabase) (v : Fp) : Prop :=
  (∃ b, db.localTmpMap.lookup b = some v) ∨ ∃ b, v ∈ getList db.skipMap b

theorem queryBuffer_insertBothBuffer (db : InMemoryDatabase) (f : Fp) (v : Cipher) :
    (db.insertBothBuffer f v).queryBuffer = Function.update db.queryBuffer f (some v) := by
  funext g
  rw [Function.update_apply]
  exact lookup_eq_if

/-- No offline pass is under way. -/
structure Idle (db : InMemoryDatabase) : Prop where
  localMap : db.localMap = []
  coldMap : ∀ n, getList db.coldMap n = []
  coldVector : db.coldContainerVector = []
  coldSet : db.coldContainerSet = []

theorem Idle.congr {db' : InMemoryDatabase} (h : db.Idle) (hlocal : db'.localMap = db.localMap)
    (hcold : db'.coldMap = db.coldMap) (hvector : db'.coldContainerVector = db.coldContainerVector)
    (hset : db'.coldContainerSet = db.coldContainerSet) : db'.Idle := by
  obtain ⟨h1, h2, h3, h4⟩ := h
  exact ⟨hlocal.trans h1, fun n => by rw [hcold, h2 n], hvector.trans h3, hset.trans h4⟩

end InMemoryDatabase

structure LogOk (db : InMemoryDatabase) : Prop where
  keys : ∀ b v, db.localTmpMap.lookup b = some v → db.InSF b
  unlisted : ∀ v, db.Logged v → ¬ db.InSF v
  inj : ∀ b b' v, db.localTmpMap.lookup b = some v → db.localTmpMap.lookup b' = some v → b = b'
  apart : ∀ b v b', db.localTmpMap.lookup b = some v → v ∉ getList db.skipMap b'

/-- Only the lists and the log matter. -/
theorem LogOk.congr {db' : InMemoryDatabase} (h : LogOk db) (hsf : db'.sfObj = db.sfObj)
    (htmp : db'.localTmpMap = db.localTmpMap) (hskip : db'.skipMap = db.skipMap) : LogOk db' := by
  obtain ⟨h1, h2, h3, h4⟩ := h
  constructor
  · simpa only [InMemoryDatabase.InSF, hsf, htmp] using h1
  · simpa only [InMemoryDatabase.InSF, InMemoryDatabase.Logged, hsf, htmp, hskip] using h2
  · simpa only [htmp] using h3
  · simpa only [htmp, hskip] using h4

/-- What the log names after a pair was added. -/
theorem logged_localInsert {b v w : Fp} (h : (db.localInsert b v).Logged w) : db.Logged w ∨ w = v := by
  rcases h with ⟨b', hb'⟩ | ⟨b', hb'⟩
  · have hlook : (db.localTmpMap.insert b v).lookup b' = some w := hb'
    rw [lookup_eq_if] at hlook
    split at hlook
    · exact Or.inr (Option.some.inj hlook).symm
    · exact Or.inl (Or.inl ⟨b', hlook⟩)
  · unfold InMemoryDatabase.localInsert at hb'
    cases he : db.localTmpMap.lookup b with
    | none =>
        simp only [he] at hb'
        exact Or.inl (Or.inr ⟨b', hb'⟩)
    | some earlier =>
        simp only [he, getList_pushBack] at hb'
        split at hb'
        · rcases List.mem_append.mp hb' with hmem | hmem
          · exact Or.inl (Or.inr ⟨b, hmem⟩)
          · rw [List.mem_singleton.mp hmem]
            exact Or.inl (Or.inl ⟨b, he⟩)
        · exact Or.inl (Or.inr ⟨b', hb'⟩)

/-- A superseded replacement was one before, or was the last one of the base. -/
theorem mem_skipMap_localInsert {b v w b' : Fp} (h : w ∈ getList (db.localInsert b v).skipMap b') :
    w ∈ getList db.skipMap b' ∨ db.localTmpMap.lookup b = some w := by
  unfold InMemoryDatabase.localInsert at h
  cases he : db.localTmpMap.lookup b with
  | none =>
      simp only [he] at h
      exact Or.inl h
  | some earlier =>
      simp only [he, getList_pushBack] at h
      split at h
      · rename_i hb
        rcases List.mem_append.mp h with hmem | hmem
        · rw [hb]
          exact Or.inl hmem
        · rw [List.mem_singleton.mp hmem]
          exact Or.inr rfl
      · exact Or.inl h

/-- A pair is added for a base that is listed and a chunk the log does not name. -/
theorem LogOk.localInsert (h : LogOk db) {b v : Fp} (hb : db.InSF b) (hv : ¬ db.InSF v)
    (hnew : ¬ db.Logged v) : LogOk (db.localInsert b v) := by
  have hlook : ∀ b', (db.localInsert b v).localTmpMap.lookup b' =
      if b' = b then some v else db.localTmpMap.lookup b' := fun b' => lookup_eq_if
  constructor
  · intro b' w hw
    rw [hlook] at hw
    split at hw
    · rename_i heq
      rw [heq]
      exact hb
    · exact h.keys b' w hw
  · intro w hw
    rcases logged_localInsert hw with hw | rfl
    · exact h.unlisted w hw
    · exact hv
  · intro b1 b2 w h1 h2
    rw [hlook] at h1 h2
    split at h1 <;> split at h2
    · rename_i e1 e2
      rw [e1, e2]
    · obtain rfl := Option.some.inj h1
      exact absurd (Or.inl ⟨b2, h2⟩) hnew
    · obtain rfl := Option.some.inj h2
      exact absurd (Or.inl ⟨b1, h1⟩) hnew
    · exact h.inj b1 b2 w h1 h2
  · intro b1 w b2 h1 h2
    rw [hlook] at h1
    split at h1
    · obtain rfl := Option.some.inj h1
      rcases mem_skipMap_localInsert h2 with hmem | hlast
      · exact hnew (Or.inr ⟨b2, hmem⟩)
      · exact hnew (Or.inl ⟨b, hlast⟩)
    · rename_i hne
      rcases mem_skipMap_localInsert h2 with hmem | hlast
      · exact h.apart b1 w b2 h1 hmem
      · exact hne (h.inj b1 b w h1 hlast)

/-- A chunk that the log does not name is listed. -/
theorem LogOk.pushSF (h : LogOk db) {sf : Sf} {f : Fp} (hf : ¬ db.Logged f) :
    LogOk (db.insertSF sf f .push) where
  keys := fun b v hv => InSF_of_push (h.keys b v hv)
  unlisted := by
    intro v hv hin
    rcases InSF_of_insertSF hin with hin | rfl
    · exact h.unlisted v hv hin
    · exact hf hv
  inj := h.inj
  apart := h.apart

/-! ## The books -/

/-- A content that a run of the server can store under a fingerprint. -/
structure Content.Ok (env : Env) (f : Fp) (c : Content) : Prop where
  size : c.data.length ≤ MAX_CHUNK_SIZE
  whole : c.deltaFlag = NO_DELTA → ∃ chunk : Chunk, env.fp chunk.1 = f ∧ c.data = env.pack chunk.1
  delta : c.deltaFlag = DELTA → ∃ n ≤ MAX_CHUNK_SIZE, ∀ base, (ed3Decode c.data base).length = n

structure Ledger (env : Env) (db : InMemoryDatabase) (abs : Fp → Option Content) : Prop where
  contents : ∀ f c, abs f = some c → c.Ok env f
  linked : Linked db abs db.Logged
  log : LogOk db
  idle : db.Idle

namespace Ledger

variable {f : Fp} {c : Content}

theorem contents_update (h : ∀ f c, abs f = some c → c.Ok env f) (hc : c.Ok env f) :
    ∀ g c', Function.update abs f (some c) g = some c' → c'.Ok env g := by
  intro g c' hg
  by_cases hgf : g = f
  · rw [hgf, Function.update_self] at hg
    obtain rfl := Option.some.inj hg
    rwa [hgf]
  · rw [Function.update_of_ne hgf] at hg
    exact h g c' hg

/-- A chunk that is new is not in the log. -/
theorem not_logged (h : Ledger env db abs) (hf : abs f = none) : ¬ db.Logged f := by
  intro hlog
  have := (h.linked.whole f hlog).isSome
  rw [hf] at this
  cases this

/-- A new base that is listed. -/
theorem addListed (h : Ledger env db abs) (hf : abs f = none) (hok : c.Ok env f)
    (hflag : c.deltaFlag = NO_DELTA) (v : Cipher) :
    Ledger env ((db.insertBothBuffer f v).insertSF c.superfeature f .push)
      (Function.update abs f (some c)) where
  contents := contents_update h.contents hok
  linked := by
    have h1 := (h.linked.addWhole hf hflag).insertSF (Function.update_self ..) (Or.inr rfl) .push
    exact h1.congr rfl rfl fun g hg => Or.inl hg
  log := (h.log.pushSF (h.not_logged hf)).congr rfl rfl rfl
  idle := h.idle.congr rfl rfl rfl rfl

/-- A new chunk that is to replace a base. -/
theorem addLogged (h : Ledger env db abs) (hf : abs f = none) (hok : c.Ok env f)
    (hflag : c.deltaFlag = NO_DELTA) {b : Fp} (hb : db.InSF b) (v : Cipher) :
    Ledger env ((db.localInsert b f).insertBothBuffer f v) (Function.update abs f (some c)) where
  contents := contents_update h.contents hok
  linked := (h.linked.addWhole hf hflag).congr rfl rfl fun _ hg => logged_localInsert hg
  log := (h.log.localInsert hb (h.linked.not_InSF_of_none hf) (h.not_logged hf)).congr rfl rfl rfl
  idle := h.idle.congr rfl rfl rfl rfl

/-- A new delta chunk. -/
theorem addDelta (h : Ledger env db abs) (hf : abs f = none) (hok : c.Ok env f)
    (hflag : c.deltaFlag = DELTA) (hb : db.InSF c.basechunkHash) (v : Cipher) :
    Ledger env ((db.insertDeltaIndex c.basechunkHash f).insertBothBuffer f v)
      (Function.update abs f (some c)) where
  contents := contents_update h.contents hok
  linked := (h.linked.addDelta hf hflag rfl hb).congr rfl rfl fun _ hg => hg
  log := h.log.congr rfl rfl rfl
  idle := h.idle.congr rfl rfl rfl rfl

end Ledger

/-! ## Contents that stand for their chunks -/

/-- Every fingerprint leads to a chunk that it is the fingerprint of, one of
those that were sent. -/
def Sound (env : Env) (P : Chunk → Prop) (abs : Fp → Option Content) : Prop :=
  ∀ f c, abs f = some c →
    ∃ chunk : Chunk, P chunk ∧ env.fp chunk.1 = f ∧ plainOf env abs f = some chunk.1

theorem plainOf_whole {f : Fp} {c : Content} (hf : abs f = some c) (hflag : c.deltaFlag = NO_DELTA) :
    plainOf env abs f = some (env.unpack c.data) := by
  have hne : c.deltaFlag ≠ DELTA := fun h => noDelta_ne_delta (hflag.symm.trans h)
  simp [plainOf, hf, hne]

theorem plainOf_delta {f : Fp} {c b : Content} (hf : abs f = some c) (hflag : c.deltaFlag = DELTA)
    (hb : abs c.basechunkHash = some b) :
    plainOf env abs f = some (ed3Decode c.data (env.unpack b.data)) := by
  simp [plainOf, hf, hflag, hb]

/-- A chunk that is nobody's base changes no other. -/
theorem plainOf_update {f g : Fp} (hf : ∀ g, ¬ IsDeltaOf abs g f) {c : Content} (hg : g ≠ f) :
    plainOf env (Function.update abs f (some c)) g = plainOf env abs g := by
  unfold plainOf
  rw [Function.update_of_ne hg]
  cases hcg : abs g with
  | none => rfl
  | some cg =>
      simp only [Option.bind_eq_bind, Option.bind_some]
      split
      · rename_i hflag
        rw [Function.update_of_ne]
        intro hbase
        exact hf g ⟨cg, hcg, hflag, hbase⟩
      · rfl

theorem Sound.add {P : Chunk → Prop} {pending : Fp → Prop} (hs : Sound env P abs)
    (h : Linked db abs pending) {f : Fp}
    {c : Content} (hf : abs f = none) (hnew : ∃ chunk : Chunk, P chunk ∧ env.fp chunk.1 = f ∧
      plainOf env (Function.update abs f (some c)) f = some chunk.1) :
    Sound env P (Function.update abs f (some c)) := by
  intro g cg hg
  by_cases hgf : g = f
  · rw [hgf]
    exact hnew
  · rw [Function.update_of_ne hgf] at hg
    rw [plainOf_update (fun g => h.not_isDeltaOf_of_none hf) hgf]
    exact hs g cg hg

/-- A chunk that is stored whole. -/
theorem Content.Ok.plainOf (henv : env.Lawful) (hr : env.Lz4Raw) {f : Fp} {c : Content}
    (hok : c.Ok env f) (hflag : c.deltaFlag = NO_DELTA) (hf : abs f = some c) :
    ∃ chunk : Chunk, env.fp chunk.1 = f ∧ plainOf env abs f = some chunk.1 := by
  obtain ⟨chunk, hfp, hdata⟩ := hok.whole hflag
  refine ⟨chunk, hfp, ?_⟩
  rw [plainOf_whole hf hflag, hdata, henv.unpack_pack hr]

end ShieldReduce
