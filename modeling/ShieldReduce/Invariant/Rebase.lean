import ShieldReduce.Invariant.Upload

/-!
# Re-basing

The first part of an offline pass: delta chunks get new bases, bases
become delta chunks, and what changes goes to the hot container.
`Rebasing` is what holds between two steps. The records that were left
behind are those that `cold_map` names, and `pending` are the bases that
the pairs still to come speak of.

Every chunk keeps its plaintext (`SameChunks`): a delta chunk is decoded
against its old base and encoded against the new one. Moving one chunk
(`Rebasing.moveToHot`) is the only step that changes contents.
-/

namespace ShieldReduce

open ByteLib UMapLib TilingLib CatalogLib

variable {env : Env} {F : Containers} {abs abs' : Fp → Option Content} {P : Chunk → Prop}

/-- What a pass does not touch in the enclave. -/
structure SameEnclave (s s' : Server) : Prop where
  heap : s'.insideDedupIndex = s.insideDedupIndex
  cache : s'.inContainercache = s.inContainercache
  encodes : s'.encodes = s.encodes

theorem SameEnclave.refl (s : Server) : SameEnclave s s := ⟨rfl, rfl, rfl⟩

theorem SameEnclave.trans {s t u : Server} (h : SameEnclave s t) (h' : SameEnclave t u) :
    SameEnclave s u :=
  ⟨h'.heap.trans h.heap, h'.cache.trans h.cache, h'.encodes.trans h.encodes⟩

/-- The fingerprints stay, and those that lead to their chunks still do. -/
structure SameChunks (env : Env) (abs abs' : Fp → Option Content) : Prop where
  keys : ∀ f, (abs' f).isSome = (abs f).isSome
  plain : env.Lz4Strict → Sound env (fun _ => True) abs → ∀ f, plainOf env abs' f = plainOf env abs f

theorem Sound.congr (hs : Sound env P abs) (hkeys : ∀ f, (abs' f).isSome = (abs f).isSome)
    (hplain : ∀ f, plainOf env abs' f = plainOf env abs f) : Sound env P abs' := by
  intro f c hf
  obtain ⟨c', hc'⟩ := Option.isSome_iff_exists.mp (by rw [← hkeys, hf]; rfl)
  rw [hplain]
  exact hs f c' hc'

theorem SameChunks.refl (env : Env) (abs : Fp → Option Content) : SameChunks env abs abs :=
  ⟨fun _ => rfl, fun _ _ _ => rfl⟩

theorem SameChunks.trans {abs'' : Fp → Option Content} (h : SameChunks env abs abs')
    (h' : SameChunks env abs' abs'') : SameChunks env abs abs'' where
  keys := fun f => (h'.keys f).trans (h.keys f)
  plain := fun hstrict hs f => (h'.plain hstrict (hs.congr h.keys (h.plain hstrict hs)) f).trans
    (h.plain hstrict hs f)

/-! ## The state between two steps -/

/-- The hot container and the files make up the containers. -/
structure Shelf (p : Pass) (F : Containers) (news : Fp → Prop) : Prop where
  hot : ∃ rs, F (.delta, p.hotContainer.containerID) = some rs ∧
    p.hotContainer.body = records.flat rs ∧ ∀ r ∈ rs, news r.entry.basechunkHash
  files : ∀ d n, (d, n) ≠ (.delta, p.hotContainer.containerID) →
    p.server.view d n = (F (d, n)).map records.flat
  closed : p.server.view .delta p.hotContainer.containerID = none

/-- The pass began with the server `s₀` and the contents `abs₀`; `news` are the
bases that chunks get in it, and `rest` are the pairs in `_local_map`. -/
structure Rebasing (env : Env) (s₀ : Server) (abs₀ : Fp → Option Content) (news : Fp → Prop)
    (rest : List (Fp × Fp)) (pending : Fp → Prop) (p : Pass) (F : Containers)
    (abs : Fp → Option Content) : Prop where
  rep : Rep env F p.server.db.queryBuffer abs
  cold : Cold env F p.server.db.queryBuffer (getList p.server.db.coldMap)
  named : ∀ {d n}, F (d, n) ≠ none → Named p.server.created n
  shelf : Shelf p F news
  contents : ∀ f c, abs f = some c → c.Ok env f
  linked : Linked p.server.db abs pending
  localTmpMap : p.server.db.localTmpMap = ∅
  skipMap : p.server.db.skipMap = ∅
  localMap : p.server.db.localMap = rest
  coldSet : ∀ n ∈ p.server.db.coldContainerSet, ∃ d r, F.Has (d, n) r
  coldListed : ∀ n, getList p.server.db.coldMap n ≠ [] → n ∈ p.server.db.coldContainerSet
  coldVector : p.server.db.coldContainerVector = []
  enclave : SameEnclave s₀ p.server
  chunks : SameChunks env abs₀ abs

/-- What reading and encoding leave alone. -/
structure SamePass (p p' : Pass) : Prop where
  db : p'.server.db = p.server.db
  containers : p'.server.containers = p.server.containers
  created : p'.server.created = p.server.created
  hotContainer : p'.hotContainer = p.hotContainer
  enclave : SameEnclave p.server p'.server

theorem SamePass.trans {p p' p'' : Pass} (h : SamePass p p') (h' : SamePass p' p'') : SamePass p p'' :=
  ⟨h'.db.trans h.db, h'.containers.trans h.containers, h'.created.trans h.created,
    h'.hotContainer.trans h.hotContainer, h.enclave.trans h'.enclave⟩

theorem SamePass.view {p p' : Pass} (h : SamePass p p') : p'.server.view = p.server.view := by
  unfold Server.view
  rw [h.containers]

variable {s₀ : Server} {abs₀ : Fp → Option Content} {news : Fp → Prop} {rest : List (Fp × Fp)}
  {pending pending' : Fp → Prop} {p p' : Pass}

namespace Rebasing

theorem congr (h : Rebasing env s₀ abs₀ news rest pending p F abs) (hs : SamePass p p') :
    Rebasing env s₀ abs₀ news rest pending p' F abs := by
  obtain ⟨h1, h2, h3, ⟨h4, h5, h6⟩, h7, h8, h9, h10, h11, h12, h13, h14, h15, h16⟩ := h
  obtain ⟨hdb, -, hcreated, hhot, henclave⟩ := id hs
  have hview := hs.view
  constructor
  · rwa [hdb]
  · rwa [hdb]
  · rwa [hcreated]
  · exact ⟨by rwa [hhot], by rwa [hhot, hview], by rwa [hhot, hview]⟩
  · exact h7
  · rwa [hdb]
  · rwa [hdb]
  · rwa [hdb]
  · rwa [hdb]
  · rwa [hdb]
  · rwa [hdb]
  · rwa [hdb]
  · exact h15.trans henclave
  · exact h16

/-- Only the super-features and the index of delta chunks change. -/
theorem mapDb (h : Rebasing env s₀ abs₀ news rest pending p F abs)
    {f : InMemoryDatabase → InMemoryDatabase}
    (hf : f p.server.db = { p.server.db with
      sfObj := (f p.server.db).sfObj, deltaIndex := (f p.server.db).deltaIndex })
    (hlinked : Linked (f p.server.db) abs pending') :
    Rebasing env s₀ abs₀ news rest pending' (p.mapDb f) F abs := by
  have hdb : (p.mapDb f).server.db = { p.server.db with
      sfObj := (f p.server.db).sfObj, deltaIndex := (f p.server.db).deltaIndex } := hf
  constructor
  · rw [hdb]
    exact h.rep
  · rw [hdb]
    exact h.cold
  · exact h.named
  · exact ⟨h.shelf.hot, h.shelf.files, h.shelf.closed⟩
  · exact h.contents
  · exact hlinked
  · rw [hdb]
    exact h.localTmpMap
  · rw [hdb]
    exact h.skipMap
  · rw [hdb]
    exact h.localMap
  · rw [hdb]
    exact h.coldSet
  · rw [hdb]
    exact h.coldListed
  · rw [hdb]
    exact h.coldVector
  · exact h.enclave.trans ⟨rfl, rfl, rfl⟩
  · exact h.chunks

end Rebasing

/-! ## Reading and encoding -/

theorem SamePass.refl (p : Pass) : SamePass p p := ⟨rfl, rfl, rfl, rfl, .refl _⟩

/-- Only buffers and the size of the backup change. -/
theorem SamePass.of_server (h : p'.server = p.server) (hhot : p'.hotContainer = p.hotContainer) :
    SamePass p p' := by
  constructor
  · rw [h]
  · rw [h]
  · rw [h]
  · exact hhot
  · rw [h]
    exact .refl _

/-- The host's buffer changes. -/
theorem SamePass.of_read {b : Bytes}
    (h : p'.server = { p.server with tmpOcallcontainer := b })
    (hhot : p'.hotContainer = p.hotContainer) : SamePass p p' := by
  constructor
  · rw [h]
  · rw [h]
  · rw [h]
  · exact hhot
  · rw [h]
    exact ⟨rfl, rfl, rfl⟩

theorem samePass_askFor (p : Pass) (n : ContainerName) : SamePass p (p.askFor n) :=
  .of_server rfl rfl

theorem samePass_oneDeltaContainer (p : Pass) (n : ContainerName) :
    SamePass p (p.oneDeltaContainer n) := by
  unfold Pass.oneDeltaContainer
  split
  · exact .of_read rfl rfl
  · exact .refl p

open OFFLineBackward in
theorem samePass_oneRecipe (p : Pass) (f : Fp) : SamePass p (oneRecipe env p f).2 :=
  .of_server rfl rfl

open OFFLineBackward in
theorem samePass_ed3EncodeBuffer (p : Pass) (new base : Bytes) :
    SamePass p (ed3EncodeBuffer env p new base).2 := .of_server rfl rfl

open OFFLineBackward in
theorem samePass_resize (p : Pass) (old new : Nat) : SamePass p (resize p old new) :=
  .of_server rfl rfl

open OFFLineBackward in
theorem samePass_getNewDeltachunk (p : Pass) (delta old new : Bytes) :
    SamePass p (getNewDeltachunk env p delta old new).2 := by
  unfold getNewDeltachunk
  dsimp only
  split
  · exact samePass_ed3EncodeBuffer p _ _
  · exact (samePass_ed3EncodeBuffer p _ _).trans (samePass_resize _ _ _)

/-- The entry that a fingerprint leads to. -/
theorem oneRecipe_eq (henv : env.Lawful) {f : Fp} {e : RecipeEntry}
    (h : p.server.db.queryBuffer f = some (env.encEntry e)) :
    (OFFLineBackward.oneRecipe env p f).1 = e := by
  show env.decEntry ((p.server.db.queryBuffer f).getD p.chunkAddr) = e
  rw [h]
  exact henv.decEntry_encEntry e

namespace Rebasing

/-- A base container is a file. -/
theorem oneContainer (h : Rebasing env s₀ abs₀ news rest pending p F abs) {n : ContainerName}
    {r : Record} (hr : F.Has (.base, n) r) : ∃ p', p.oneContainer n = some p' ∧ SamePass p p' ∧
      r.FoundIn p'.server.tmpOcallcontainer := by
  obtain ⟨rs, hrs, hmem⟩ := hr
  have hfile : (p.server.containers .base).lookup n = some (records.flat rs) := by
    have hview := h.shelf.files .base n (by simp)
    rw [hrs] at hview
    exact hview
  refine ⟨{ p with server := p.server.readContainer (records.flat rs) }, ?_, .of_read rfl rfl, ?_⟩
  · rw [Pass.oneContainer, hfile]
    rfl
  · exact (h.rep.holds hrs).found hmem (prefix_writeAt _ _)

/-- So is a delta container, unless it is the hot container. -/
theorem oneDeltaContainer (h : Rebasing env s₀ abs₀ news rest pending p F abs) {n : ContainerName}
    {r : Record} (hr : F.Has (.delta, n) r) (hhot : n ≠ p.hotContainer.containerID) :
    r.FoundIn (p.oneDeltaContainer n).server.tmpOcallcontainer := by
  obtain ⟨rs, hrs, hmem⟩ := hr
  have hfile : (p.server.containers .delta).lookup n = some (records.flat rs) := by
    have hview := h.shelf.files .delta n (by simp [hhot])
    rw [hrs] at hview
    exact hview
  unfold Pass.oneDeltaContainer
  rw [hfile]
  exact (h.rep.holds hrs).found hmem (prefix_writeAt _ _)

end Rebasing

/-! ## New deltas -/

section Encode

variable {old new f : Fp} {c cOld cNew : Content} {text newChunk : Bytes}

open OFFLineBackward in
theorem spells_ed3EncodeBuffer (p : Pass) (htext : text.length ≤ MAX_CHUNK_SIZE)
    (hnew : newChunk.length ≤ MAX_CHUNK_SIZE) :
    Edelta.Spells ⟨memOf text, text.length, memOf newChunk, newChunk.length⟩
      (ed3EncodeBuffer env p text newChunk).1 text.length :=
  Edelta.OFFLineBackward.spells_eDeltaEncode (Edelta.Job.small_of_le htext hnew) env.heuristics
    p.psHTable

open OFFLineBackward in
theorem ed3Decode_ed3EncodeBuffer (p : Pass) (htext : text.length ≤ MAX_CHUNK_SIZE)
    (hnew : newChunk.length ≤ MAX_CHUNK_SIZE) (hpos : 0 < text.length) :
    ed3Decode (ed3EncodeBuffer env p text newChunk).1 newChunk = text :=
  isDelta_of_spells (spells_ed3EncodeBuffer p htext hnew) hpos (slice_memOf_self _)
    (slice_memOf_self _) rfl

/-- The content of a chunk that has become a delta chunk of `new`. -/
def Content.rebased (c : Content) (new : Fp) (delta : Bytes) : Content :=
  { c with deltaFlag := DELTA, basechunkHash := new, data := delta }

open OFFLineBackward in
theorem Content.ok_rebased (p : Pass) (htext : text.length ≤ MAX_CHUNK_SIZE)
    (hnew : newChunk.length ≤ MAX_CHUNK_SIZE)
    (hle : ¬ text.length < (ed3EncodeBuffer env p text newChunk).1.length) :
    (c.rebased new (ed3EncodeBuffer env p text newChunk).1).Ok env f where
  size := le_trans (not_lt.mp hle) htext
  whole := fun hflag => absurd hflag.symm noDelta_ne_delta
  delta := fun _ => ⟨text.length, htext, length_ed3Decode (spells_ed3EncodeBuffer p htext hnew)⟩

/-- The two ways to read a chunk that is stored whole agree. -/
theorem Content.Ok.unpackOffline_eq (henv : env.Lawful) (hs : env.Lz4Strict) (hok : c.Ok env f)
    (hflag : c.deltaFlag = NO_DELTA) : env.unpackOffline c.data = env.unpack c.data := by
  obtain ⟨chunk, -, hdata⟩ := hok.whole hflag
  rw [hdata, henv.unpackOffline_pack hs, henv.unpack_pack hs.raw]

/-- One chunk that is nobody's base gets another payload for the same text. -/
theorem SameChunks.update (hf : abs f = some c) (hno : ∀ g, ¬ IsDeltaOf abs g f) {c' : Content}
    (hplain : env.Lz4Strict → Sound env (fun _ => True) abs →
      plainOf env (Function.update abs f (some c')) f = plainOf env abs f) :
    SameChunks env abs (Function.update abs f (some c')) where
  keys := by
    intro g
    by_cases hg : g = f
    · rw [hg, Function.update_self, hf]
      rfl
    · rw [Function.update_of_ne hg]
  plain := by
    intro hs hsound g
    by_cases hg : g = f
    · rw [hg]
      exact hplain hs hsound
    · exact plainOf_update hno hg

/-- What a delta chunk of `new` stands for, if its delta was made from `text`. -/
theorem plainOf_rebased (henv : env.Lawful) (hs : env.Lz4Strict) (p : Pass)
    (hcNew : abs new = some cNew) (hokNew : cNew.Ok env new) (hwhole : cNew.deltaFlag = NO_DELTA)
    (hne : new ≠ f) (htext : text.length ≤ MAX_CHUNK_SIZE) (hpos : 0 < text.length) :
    plainOf env (Function.update abs f (some (c.rebased new
      (OFFLineBackward.ed3EncodeBuffer env p text (env.unpackOffline cNew.data)).1))) f =
        some text := by
  have hsize := henv.length_unpackOffline hokNew.size
  rw [plainOf_delta (Function.update_self ..) rfl (b := cNew)
    (by rw [← hcNew]; exact Function.update_of_ne hne _ _)]
  show some (ed3Decode _ (env.unpack cNew.data)) = some text
  rw [← hokNew.unpackOffline_eq henv hs hwhole]
  exact congrArg some (ed3Decode_ed3EncodeBuffer p htext hsize hpos)

end Encode

/-! ## The hot container -/

namespace Pass

/-- The hot container becomes a file and a new one is opened. -/
def rollHot (p : Pass) : Pass :=
  { p with
    server := { p.savehotContainer.server with created := p.server.created + 1 }
    hotContainer := ⟨containerName p.server.created, []⟩ }

/-- The record of a chunk behind the others of the hot container. -/
def hotRecord (p : Pass) (content : Bytes) (e : RecipeEntry) (fp : Fp) (sf : Sf) (iv : Iv) : Record where
  entry := { e with
    offset := UInt32.ofNat p.hotContainer.body.length
    deltaFlag := DELTA
    containerName := p.hotContainer.containerID }
  fp := fp
  sf := sf
  payload := content
  iv := iv

def putHot (p : Pass) (r : Record) : Pass :=
  { p with hotContainer := { p.hotContainer with body := p.hotContainer.body ++ r.toBytes } }

theorem insertHotContainer_cases (p : Pass) (content : Bytes) (e : RecipeEntry) (fp : Fp) (sf : Sf)
    (iv : Iv) : ∃ q, (q = p ∧ e.length.toNat + p.hotContainer.body.length + recordOverhead <
          MAX_CONTAINER_SIZE ∨ q = p.rollHot) ∧
      p.insertHotContainer content e fp sf iv =
        ((q.hotRecord content e fp sf iv).entry, q.putHot (q.hotRecord content e fp sf iv)) := by
  unfold insertHotContainer
  dsimp only
  split
  · rename_i hfit
    refine ⟨p, Or.inl ⟨rfl, ?_⟩, rfl⟩
    unfold recordOverhead
    omega
  · exact ⟨p.rollHot, Or.inr rfl, rfl⟩

end Pass

/-- What moving a chunk does to the containers and to the index. -/
theorem OFFLineBackward.moveToHot_cases (p : Pass) {n : ContainerName} {r : Record}
    (hplaced : r.PlacedIn n) (new : Fp) (delta : Bytes) (sf : Sf) (iv : Iv) :
    ∃ q t, (q = p ∧ (UInt32.ofNat delta.length).toNat + p.hotContainer.body.length + recordOverhead <
          MAX_CONTAINER_SIZE ∨ q = p.rollHot) ∧
      t = q.hotRecord (env.encryptWithKeyIV delta iv)
        { r.entry with length := UInt32.ofNat delta.length, basechunkHash := new } r.fp sf iv ∧
      moveToHot env p r.fp new r.entry delta r.fp sf iv = (q.putHot t).mapDb fun db =>
        ((db.insertBothBuffer r.fp (env.encEntry t.entry)).insertDeltaIndex new r.fp).coldInsert
          n r.range.1 r.range.2 := by
  have hrange : r.range.2 = r.entry.length.toNat + recordOverhead := by
    rw [hplaced.2, ← Record.length_toBytes]
    rfl
  obtain ⟨q, hq, heq⟩ := p.insertHotContainer_cases (env.encryptWithKeyIV delta iv)
    { r.entry with length := UInt32.ofNat delta.length, basechunkHash := new } r.fp sf iv
  refine ⟨q, _, hq, rfl, ?_⟩
  unfold moveToHot
  rw [heq]
  dsimp only
  rw [hplaced.1, ← hrange]
  rfl

/-- The record of a moved chunk fits into its container. -/
structure Pass.Accepts (env : Env) (p : Pass) (r t : Record) (new : Fp) (delta : Bytes) : Prop where
  fp : r.fp = t.fp
  placed : t.PlacedIn p.hotContainer.containerID
  start : t.start = p.hotContainer.body.length
  small : p.hotContainer.body.length + t.toBytes.length < MAX_CONTAINER_SIZE
  flag : t.entry.deltaFlag = DELTA
  base : t.entry.basechunkHash = new
  content : t.content env = (r.content env).rebased new delta

theorem Pass.accepts_hotRecord (henv : env.Lawful) (p : Pass) (r : Record) {new : Fp} {delta : Bytes}
    (hdelta : delta.length ≤ MAX_CHUNK_SIZE)
    (hfit : (UInt32.ofNat delta.length).toNat + p.hotContainer.body.length + recordOverhead <
      MAX_CONTAINER_SIZE) (sf : Sf) (iv : Iv) {t : Record}
    (ht : t = p.hotRecord (env.encryptWithKeyIV delta iv)
      { r.entry with length := UInt32.ofNat delta.length, basechunkHash := new } r.fp sf iv) :
    p.Accepts env r t new delta := by
  have hmax : MAX_CHUNK_SIZE < 2 ^ 32 := by decide
  have hmax' : MAX_CONTAINER_SIZE < 2 ^ 32 := by decide
  have hlen : (UInt32.ofNat delta.length).toNat = delta.length :=
    UInt32.toNat_ofNat_of_lt' (lt_of_le_of_lt hdelta hmax)
  rw [hlen] at hfit
  have hpayload : t.payload.length = delta.length := by
    rw [ht]
    exact henv.length_keyIV delta iv
  constructor
  · rw [ht]
    rfl
  · refine ⟨by rw [ht]; rfl, ?_⟩
    rw [hpayload, ← hlen, ht]
    rfl
  · rw [ht]
    exact UInt32.toNat_ofNat_of_lt' (lt_trans (show _ < MAX_CONTAINER_SIZE by omega) hmax')
  · rw [Record.length_toBytes, hpayload]
    omega
  · rw [ht]
    rfl
  · rw [ht]
    rfl
  · rw [ht]
    unfold Record.content Pass.hotRecord Content.rebased
    rw [henv.keyIV]

/-- A new hot container has room for every chunk. -/
theorem Pass.fits_rollHot (p : Pass) {delta : Bytes} (hdelta : delta.length ≤ MAX_CHUNK_SIZE) :
    (UInt32.ofNat delta.length).toNat + p.rollHot.hotContainer.body.length + recordOverhead <
      MAX_CONTAINER_SIZE := by
  have hmax : MAX_CHUNK_SIZE + recordOverhead < MAX_CONTAINER_SIZE := by decide
  have hmax' : MAX_CHUNK_SIZE < 2 ^ 32 := by decide
  rw [UInt32.toNat_ofNat_of_lt' (lt_of_le_of_lt hdelta hmax')]
  show delta.length + 0 + recordOverhead < MAX_CONTAINER_SIZE
  omega

/-- The containers of a pass, behind its index. -/
structure PassFiled (env : Env) (news : Fp → Prop) (p : Pass) (F : Containers)
    (abs : Fp → Option Content) : Prop where
  rep : Rep env F p.server.db.queryBuffer abs
  cold : Cold env F p.server.db.queryBuffer (getList p.server.db.coldMap)
  named : ∀ {d n}, F (d, n) ≠ none → Named p.server.created n
  shelf : Shelf p F news

namespace PassFiled

theorem next_none (h : PassFiled env news p F abs) (hlt : p.server.created < 2 ^ 31) (d : Dir) :
    F (d, containerName p.server.created) = none := by
  by_contra hne
  exact not_named hlt (h.named hne)

theorem rollHot (h : PassFiled env news p F abs) (hlt : p.server.created < 2 ^ 31) :
    PassFiled env news p.rollHot (Function.update F (.delta, containerName p.server.created) (some []))
      abs := by
  have hnone := h.next_none hlt
  have hne : containerName p.server.created ≠ p.hotContainer.containerID := by
    intro heq
    obtain ⟨rs, hrs, -⟩ := h.shelf.hot
    rw [← heq, hnone] at hrs
    cases hrs
  have hview := view_saveToFile p.server .delta p.hotContainer.containerID p.hotContainer.body
  obtain ⟨rs, hrs, hbody, -⟩ := h.shelf.hot
  constructor
  · exact h.rep.fresh hnone .delta
  · exact h.cold.congr fun q r => has_fresh (hnone .delta)
  · intro d n hn
    by_cases heq : (d, n) = (.delta, containerName p.server.created)
    · exact ⟨p.server.created, Nat.lt_succ_self _, congrArg Prod.snd heq⟩
    · rw [Function.update_of_ne heq] at hn
      exact (h.named hn).mono (Nat.le_succ _)
  · refine ⟨⟨[], Function.update_self .., rfl, fun r hr => (by cases hr)⟩, fun d n hn => ?_, ?_⟩
    · have hn' : (d, n) ≠ (.delta, containerName p.server.created) := hn
      rw [Function.update_of_ne hn']
      refine (hview d n).trans ?_
      split
      · rename_i heq
        rw [heq.1, heq.2, hrs, hbody]
        rfl
      · rename_i hold
        refine h.shelf.files d n fun heq => hold ?_
        exact Prod.mk.injEq .. |>.mp heq
    · refine (hview .delta (containerName p.server.created)).trans ?_
      rw [if_neg (fun heq => hne heq.2)]
      refine (h.shelf.files .delta (containerName p.server.created) (by simp [hne])).trans ?_
      rw [hnone]
      rfl

/-- A record is written to the hot container; the one that it takes the place
of is left behind. -/
theorem put (henv : env.Lawful) (h : PassFiled env news p F abs) {rs : List Record}
    (hrs : F (.delta, p.hotContainer.containerID) = some rs) {d : Dir} {n : ContainerName}
    {r t : Record} (hr : F.Has (d, n) r) (hlive : Live env p.server.db.queryBuffer r)
    {new : Fp} {delta : Bytes} (ht : p.Accepts env r t new delta) (hnews : news new) :
    PassFiled env news ((p.putHot t).mapDb fun db =>
        ((db.insertBothBuffer r.fp (env.encEntry t.entry)).insertDeltaIndex new r.fp).coldInsert
          n r.range.1 r.range.2)
      (Function.update F (.delta, p.hotContainer.containerID) (some (rs ++ [t])))
      (Function.update abs r.fp (some ((r.content env).rebased new delta))) := by
  obtain ⟨us, hus, hbody, hhot⟩ := h.shelf.hot
  obtain rfl := Option.some.inj (hrs.symm.trans hus)
  have hstart := ht.start
  have hsmall := ht.small
  rw [hbody] at hstart hsmall
  have hrep := h.rep.put hrs ht.placed hstart hsmall ht.flag
  have hcold : getList (pushBack p.server.db.coldMap n r.range) =
      Function.update (getList p.server.db.coldMap) n
        (getList p.server.db.coldMap n ++ [r.range]) := by
    funext m
    rw [getList_pushBack, Function.update_apply]
  have hne : ∀ s ∈ rs, s ≠ t := by
    rintro s hs rfl
    have hlt := (h.rep.holds hrs).tiles.start_lt hs
    rw [records_start, hstart] at hlt
    exact lt_irrefl _ hlt
  have hidx : ((p.server.db.insertBothBuffer r.fp (env.encEntry t.entry))).queryBuffer =
      Function.update p.server.db.queryBuffer t.fp (some (env.encEntry t.entry)) := by
    rw [ht.fp]
    exact InMemoryDatabase.queryBuffer_insertBothBuffer _ _ _
  constructor
  · rw [← ht.content]
    have hgoal := hrep
    rw [← hidx, ← ht.fp] at hgoal
    exact hgoal
  · have := h.cold.put henv h.rep hrs (hrep.distinct henv) hne hr hlive ht.fp
    rw [← hidx, ← hcold] at this
    exact this
  · intro d' n' hn'
    by_cases heq : (d', n') = (.delta, p.hotContainer.containerID)
    · rw [heq.symm] at hrs
      exact h.named (by rw [hrs]; simp)
    · rw [Function.update_of_ne heq] at hn'
      exact h.named hn'
  · refine ⟨⟨rs ++ [t], Function.update_self .., ?_, ?_⟩, fun d' n' hn' => ?_, h.shelf.closed⟩
    · show p.hotContainer.body ++ t.toBytes = _
      rw [hbody, Layout.flat_append]
      simp
    · intro s hs
      rcases List.mem_append.mp hs with hs | hs
      · exact hhot s hs
      · rw [List.mem_singleton.mp hs, ht.base]
        exact hnews
    · have hn'' : (d', n') ≠ (.delta, p.hotContainer.containerID) := hn'
      rw [Function.update_of_ne hn'']
      exact h.shelf.files d' n' hn''

/-- A chunk becomes a delta chunk in the hot container. -/
theorem moveToHot (henv : env.Lawful) (h : PassFiled env news p F abs) {d : Dir} {n : ContainerName}
    {r : Record} (hr : F.Has (d, n) r) (hlive : Live env p.server.db.queryBuffer r) {new : Fp}
    {delta : Bytes} (hdelta : delta.length ≤ MAX_CHUNK_SIZE) (sf : Sf) (iv : Iv) (hnews : news new)
    (hcreated : (OFFLineBackward.moveToHot env p r.fp new r.entry delta r.fp sf iv).server.created ≤
      2 ^ 31) :
    ∃ F', PassFiled env news (OFFLineBackward.moveToHot env p r.fp new r.entry delta r.fp sf iv) F'
      (Function.update abs r.fp (some ((r.content env).rebased new delta))) := by
  obtain ⟨q, t, hq, ht, heq⟩ := OFFLineBackward.moveToHot_cases p (h.rep.placed hr) new delta sf iv
  rw [heq] at hcreated ⊢
  rcases hq with ⟨rfl, hfit⟩ | rfl
  · obtain ⟨rs, hrs, -⟩ := h.shelf.hot
    exact ⟨_, h.put henv hrs hr hlive (q.accepts_hotRecord henv r hdelta hfit sf iv ht) hnews⟩
  · have hlt : p.server.created < 2 ^ 31 := hcreated
    have hroll := h.rollHot hlt
    obtain ⟨rs, hrs, -⟩ := hroll.shelf.hot
    exact ⟨_, hroll.put henv hrs ((has_fresh (h.next_none hlt .delta)).mpr hr) hlive
      (p.rollHot.accepts_hotRecord henv r hdelta (p.fits_rollHot hdelta) sf iv ht) hnews⟩

end PassFiled

namespace Rebasing

theorem filed (h : Rebasing env s₀ abs₀ news rest pending p F abs) : PassFiled env news p F abs :=
  ⟨h.rep, h.cold, h.named, h.shelf⟩

theorem rollHot (h : Rebasing env s₀ abs₀ news rest pending p F abs) (hlt : p.server.created < 2 ^ 31) :
    Rebasing env s₀ abs₀ news rest pending p.rollHot
      (Function.update F (.delta, containerName p.server.created) (some [])) abs := by
  obtain ⟨hrep, hcold, hnamed, hshelf⟩ := h.filed.rollHot hlt
  constructor
  · exact hrep
  · exact hcold
  · exact hnamed
  · exact hshelf
  · exact h.contents
  · exact h.linked
  · exact h.localTmpMap
  · exact h.skipMap
  · exact h.localMap
  · intro n hn
    obtain ⟨d, r, hr⟩ := h.coldSet n hn
    exact ⟨d, r, (has_fresh (h.filed.next_none hlt .delta)).mpr hr⟩
  · exact h.coldListed
  · exact h.coldVector
  · exact h.enclave.trans ⟨rfl, rfl, rfl⟩
  · exact h.chunks

theorem put (henv : env.Lawful) (h : Rebasing env s₀ abs₀ news rest pending p F abs) {d : Dir}
    {n : ContainerName} {r t : Record} (hr : F.Has (d, n) r)
    (hlive : Live env p.server.db.queryBuffer r) {new : Fp} {delta : Bytes}
    (ht : p.Accepts env r t new delta) (hnews : news new)
    (hok : ((r.content env).rebased new delta).Ok env r.fp)
    (hlinked : Linked (p.server.db.insertDeltaIndex new r.fp)
      (Function.update abs r.fp (some ((r.content env).rebased new delta))) pending)
    (hchunks : SameChunks env abs
      (Function.update abs r.fp (some ((r.content env).rebased new delta)))) :
    ∃ F', Rebasing env s₀ abs₀ news rest pending ((p.putHot t).mapDb fun db =>
      ((db.insertBothBuffer r.fp (env.encEntry t.entry)).insertDeltaIndex new r.fp).coldInsert
        n r.range.1 r.range.2) F'
      (Function.update abs r.fp (some ((r.content env).rebased new delta))) := by
  obtain ⟨rs, hrs, -⟩ := h.shelf.hot
  obtain ⟨hrep, hcold, hnamed, hshelf⟩ := h.filed.put henv hrs hr hlive ht hnews
  have hset : ∀ m, m ∈ (if n ∈ p.server.db.coldContainerSet then p.server.db.coldContainerSet
      else n :: p.server.db.coldContainerSet) ↔ m ∈ p.server.db.coldContainerSet ∨ m = n := by
    intro m
    split
    · rename_i hn
      exact ⟨Or.inl, fun hm => hm.elim id fun heq => heq ▸ hn⟩
    · rw [List.mem_cons, or_comm]
  refine ⟨Function.update F (.delta, p.hotContainer.containerID) (some (rs ++ [t])), ?_⟩
  constructor
  · exact hrep
  · exact hcold
  · exact hnamed
  · exact hshelf
  · exact Ledger.contents_update h.contents hok
  · exact hlinked.congr rfl rfl fun _ hf => hf
  · exact h.localTmpMap
  · exact h.skipMap
  · exact h.localMap
  · intro m hm
    rcases (hset m).mp hm with hold | rfl
    · obtain ⟨d', s, hs⟩ := h.coldSet m hold
      exact ⟨d', s, hs.append hrs [t]⟩
    · exact ⟨d, r, hr.append hrs [t]⟩
  · intro m hm
    refine (hset m).mpr ?_
    have hm' : getList (pushBack p.server.db.coldMap n r.range) m ≠ [] := hm
    rw [getList_pushBack] at hm'
    split at hm'
    · rename_i heq
      exact Or.inr heq
    · exact Or.inl (h.coldListed m hm')
  · exact h.coldVector
  · exact h.enclave.trans ⟨rfl, rfl, rfl⟩
  · exact h.chunks.trans hchunks

/-- A chunk becomes a delta chunk in the hot container. -/
theorem moveToHot (henv : env.Lawful) (h : Rebasing env s₀ abs₀ news rest pending p F abs) {d : Dir}
    {n : ContainerName} {r : Record} (hr : F.Has (d, n) r) (hlive : Live env p.server.db.queryBuffer r)
    {new : Fp} {delta : Bytes} (hdelta : delta.length ≤ MAX_CHUNK_SIZE) (sf : Sf) (iv : Iv)
    (hnews : news new) (hok : ((r.content env).rebased new delta).Ok env r.fp)
    (hlinked : Linked (p.server.db.insertDeltaIndex new r.fp)
      (Function.update abs r.fp (some ((r.content env).rebased new delta))) pending)
    (hchunks : SameChunks env abs
      (Function.update abs r.fp (some ((r.content env).rebased new delta))))
    (hcreated : (OFFLineBackward.moveToHot env p r.fp new r.entry delta r.fp sf iv).server.created ≤
      2 ^ 31) :
    ∃ F', Rebasing env s₀ abs₀ news rest pending
      (OFFLineBackward.moveToHot env p r.fp new r.entry delta r.fp sf iv) F'
      (Function.update abs r.fp (some ((r.content env).rebased new delta))) := by
  obtain ⟨q, t, hq, ht, heq⟩ := OFFLineBackward.moveToHot_cases p (h.rep.placed hr) new delta sf iv
  rw [heq] at hcreated ⊢
  rcases hq with ⟨rfl, hfit⟩ | rfl
  · exact h.put henv hr hlive (q.accepts_hotRecord henv r hdelta hfit sf iv ht) hnews hok hlinked
      hchunks
  · have hlt : p.server.created < 2 ^ 31 := hcreated
    exact (h.rollHot hlt).put henv ((has_fresh (h.filed.next_none hlt .delta)).mpr hr) hlive
      (p.rollHot.accepts_hotRecord henv r hdelta (p.fits_rollHot hdelta) sf iv ht) hnews hok hlinked
      hchunks

end Rebasing

end ShieldReduce
