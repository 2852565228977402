import ShieldReduce.Invariant.Offline
import ShieldReduce.Guarantee.Interrupted
import ShieldReduce.Guarantee.IvReuse

/-!
# Containers and index match

`Matched` says what the bytes of the containers and the fingerprint index
have to do with each other, with the exception of ranges `cold` of records
whose chunks are stored elsewhere by now. On a server between two sessions
there are no such ranges (`KeepsMatched.reached`).

What counts as a container differs: the files of a server, the files and
the two open containers of a session (`Session.containers`), the files and
the hot container of an offline pass (`Pass.containers`). `Steady` adds to
`Matched` what one operation needs for the next, and `KeepsMatched` goes
through the operations that write containers. `steady_iff` connects it with
the representation invariant that the sessions are proved with.
-/

namespace ShieldReduce

open ByteLib UMapLib TilingLib CatalogLib

/-! ## What matches -/

/-- The containers `v` are tiled by the records `F`, the index leads to the entry in
front of each record, and every fingerprint that it knows has one record. -/
structure Matched (env : Env) (F : Containers) (v : View) (idx : Fp → Option Cipher)
    (cold : ContainerName → List (Nat × Nat)) : Prop where
  bytes : v = viewOf F
  holds : ∀ {d n rs}, F (d, n) = some rs → Holds n (records.flat rs) rs
  entry : ∀ {d n r}, F.Has (d, n) r → r.range ∉ cold n → (idx r.fp).map env.decEntry = some r.entry
  unique : ∀ f, (idx f).isSome → ∃! q : (Dir × ContainerName) × Record,
    F.Has q.1 q.2 ∧ q.2.fp = f ∧ q.2.range ∉ cold q.1.2

/-- What keeps it so: names are made by the counter and used once, a directory has
one kind of chunks, the index has encrypted entries only, and cold ranges are
those of records. -/
structure Steady (env : Env) (F : Containers) (v : View) (idx : Fp → Option Cipher)
    (cold : ContainerName → List (Nat × Nat)) (created : Nat) : Prop
    extends Matched env F v idx cold where
  apart : ∀ n, F (.base, n) = none ∨ F (.delta, n) = none
  named : ∀ {d n}, F (d, n) ≠ none → Named created n
  flag : ∀ {d n r}, F.Has (d, n) r → r.entry.deltaFlag = d.flag
  encrypted : ∀ f c, idx f = some c → ∃ e, c = env.encEntry e
  coldNodup : ∀ n, (cold n).Nodup
  coldFound : ∀ n x, x ∈ cold n → ∃ d r, F.Has (d, n) r ∧ x = r.range

variable {env : Env} {F F' : Containers} {v : View} {idx : Fp → Option Cipher}
  {abs : Fp → Option Content} {cold : ContainerName → List (Nat × Nat)} {created : Nat}

/-- Which records the containers have is in their bytes. -/
theorem Matched.records_unique {cold' : ContainerName → List (Nat × Nat)}
    (h : Matched env F v idx cold) (h' : Matched env F' v idx cold') : F = F' := by
  have hview : viewOf F = viewOf F' := h.bytes.symm.trans h'.bytes
  funext ⟨d, n⟩
  have hflat : (F (d, n)).map records.flat = (F' (d, n)).map records.flat :=
    congrFun (congrFun hview d) n
  cases hF : F (d, n) with
  | none =>
      rw [hF] at hflat
      exact (Option.map_eq_none_iff.mp hflat.symm).symm
  | some rs =>
      rw [hF] at hflat
      obtain ⟨ts, hts, heq⟩ := Option.map_eq_some_iff.mp hflat.symm
      rw [hts, flat_inj (fun r hr => ((h.holds hF).placed r hr).2)
        (fun t ht => ((h'.holds hts).placed t ht).2) heq.symm]

namespace Steady

theorem files (h : Steady env F v idx cold created) : Apart F := ⟨h.holds, h.apart⟩

/-- The index leads to the records that are not cold. -/
theorem live_iff (henv : env.Lawful) (h : Steady env F v idx cold created) {d : Dir}
    {n : ContainerName} {r : Record} (hr : F.Has (d, n) r) :
    Live env idx r ↔ r.range ∉ cold n := by
  have hlive : ∀ {d n r}, F.Has (d, n) r → r.range ∉ cold n → Live env idx r := by
    intro d n r hr hcold
    obtain ⟨c, hc, hdec⟩ := Option.map_eq_some_iff.mp (h.entry hr hcold)
    obtain ⟨e, rfl⟩ := h.encrypted _ c hc
    rw [henv.decEntry_encEntry] at hdec
    rw [hdec] at hc
    exact hc
  refine ⟨fun hl hmem => ?_, hlive hr⟩
  have hidx : idx r.fp = some (env.encEntry r.entry) := hl
  obtain ⟨⟨⟨d', n'⟩, s⟩, ⟨hs, hfp, hcold⟩, -⟩ := h.unique r.fp (by rw [hidx]; rfl)
  have hidx' : idx s.fp = some (env.encEntry s.entry) := hlive hs hcold
  rw [hfp, hidx] at hidx'
  obtain ⟨heq, rfl⟩ := h.files.entry_inj hr hs (henv.encEntry_inj (Option.some.inj hidx'))
  obtain ⟨-, rfl⟩ := Prod.mk.injEq .. |>.mp heq
  exact hcold hmem

theorem cold_iff (henv : env.Lawful) (h : Steady env F v idx cold created) :
    Cold env F idx cold where
  nodup := h.coldNodup
  mem_iff := by
    intro n x
    constructor
    · intro hx
      obtain ⟨d, r, hr, rfl⟩ := h.coldFound n x hx
      exact ⟨d, r, hr, fun hl => (h.live_iff henv hr).mp hl hx, rfl⟩
    · rintro ⟨d, r, hr, hdead, rfl⟩
      by_contra hx
      exact hdead ((h.live_iff henv hr).mpr hx)

theorem rep (henv : env.Lawful) (h : Steady env F v idx cold created) :
    ∃ abs, Rep env F idx abs := by
  have hcontent : ∀ f, ∃ o : Option Content, (o = none → idx f = none) ∧
      ∀ c, o = some c → ∃ q r, F.Has q r ∧ r.fp = f ∧ Live env idx r ∧ r.content env = c := by
    intro f
    cases hf : idx f with
    | none => exact ⟨none, fun _ => rfl, fun c hc => (by cases hc)⟩
    | some c =>
        obtain ⟨⟨⟨d, n⟩, r⟩, ⟨hr, hfp, hcold⟩, -⟩ := h.unique f (by rw [hf]; rfl)
        refine ⟨some (r.content env), fun hn => (by cases hn), fun c' hc' => ?_⟩
        exact ⟨(d, n), r, hr, hfp, (h.live_iff henv hr).mpr hcold, Option.some.inj hc'⟩
  choose abs habs using hcontent
  exact ⟨abs, ⟨fun f c hc => (habs f).2 c hc, fun f hf => (habs f).1 hf⟩, h.holds, h.flag, h.apart⟩

end Steady

/-- A representation of the containers, read the other way. -/
theorem Rep.steady (henv : env.Lawful) (h : Rep env F idx abs) (hcold : Cold env F idx cold)
    (hnamed : ∀ {d n}, F (d, n) ≠ none → Named created n) (hv : v = viewOf F) :
    Steady env F v idx cold created := by
  have hlive : ∀ {d n r}, F.Has (d, n) r → r.range ∉ cold n → Live env idx r := by
    intro d n r hr hmem
    by_contra hdead
    exact hmem ((hcold.mem_iff n r.range).mpr ⟨d, r, hr, hdead, rfl⟩)
  have hwarm : ∀ {d n r}, F.Has (d, n) r → Live env idx r → r.range ∉ cold n := by
    intro d n r hr hl hmem
    obtain ⟨d', s, hs, hdead, heq⟩ := (hcold.mem_iff n r.range).mp hmem
    obtain ⟨-, rfl⟩ := h.files.start_inj hr hs (congrArg Prod.fst heq)
    exact hdead hl
  have hfound : ∀ f, (idx f).isSome → ∃ c, abs f = some c := by
    intro f hf
    exact Option.isSome_iff_exists.mp ((h.catalog.isSome_iff f).mp hf)
  constructor
  · constructor
    · exact hv
    · exact h.holds
    · intro d n r hr hmem
      have hidx : idx r.fp = some (env.encEntry r.entry) := hlive hr hmem
      rw [hidx, Option.map_some, henv.decEntry_encEntry]
    · intro f hf
      obtain ⟨c, hc⟩ := hfound f hf
      obtain ⟨d, n, r, hr, hfp, hidx, -⟩ := h.found hc
      have hl : Live env idx r := by
        rw [← hfp] at hidx
        exact hidx
      refine ⟨((d, n), r), ⟨hr, hfp, hwarm hr hl⟩, ?_⟩
      rintro ⟨⟨d', n'⟩, s⟩ ⟨hs, hfp', hmem⟩
      obtain ⟨heq, rfl⟩ := (h.distinct henv).eq_of_live hs hr (hlive hs hmem) hl
        (hfp'.trans hfp.symm)
      exact Prod.ext heq rfl
  · exact h.apart
  · exact hnamed
  · exact h.flag
  · intro f c hc
    obtain ⟨c', hc'⟩ := hfound f (by rw [hc]; rfl)
    obtain ⟨d, n, r, -, -, hidx, -⟩ := h.found hc'
    exact ⟨r.entry, Option.some.inj (hc.symm.trans hidx)⟩
  · exact hcold.nodup
  · intro n x hx
    obtain ⟨d, r, hr, -, heq⟩ := (hcold.mem_iff n x).mp hx
    exact ⟨d, r, hr, heq⟩

/-- While a range is cold, the exception is needed. -/
theorem Steady.not_matched (henv : env.Lawful) (h : Steady env F v idx cold created)
    {n : ContainerName} (hn : cold n ≠ []) : ¬ ∃ F', Matched env F' v idx fun _ => [] := by
  rintro ⟨F', h'⟩
  obtain rfl := h.records_unique h'
  obtain ⟨x, hx⟩ := List.exists_mem_of_ne_nil _ hn
  obtain ⟨d, r, hr, rfl⟩ := h.coldFound n x hx
  obtain ⟨c, hc, hdec⟩ := Option.map_eq_some_iff.mp (h'.entry hr List.not_mem_nil)
  obtain ⟨e, rfl⟩ := h.encrypted _ c hc
  rw [henv.decEntry_encEntry] at hdec
  rw [hdec] at hc
  exact (h.live_iff henv hr).mp hc hx

/-! ## Sessions -/

/-- The containers during a session: the files and the two open ones. -/
def Session.containers (s : Session) : View := fun d n =>
  if n = (s.client.cur d).containerID then some (s.client.cur d).buf else s.server.view d n

/-- A session before it hands its last containers over; `idx` is the index with the
entries of chunks that are stored and not yet told to it. -/
structure SessionSteady (env : Env) (s : Session) (F : Containers) (idx : Fp → Option Cipher) :
    Prop where
  steady : Steady env F s.containers idx (fun _ => []) s.server.created
  closed : ∀ d, s.server.view d (s.client.cur d).containerID = none
  body : ∀ d, (s.client.cur d).body = []

theorem Shelved.containers {s : Session} (h : Shelved s F) : s.containers = viewOf F := by
  funext d n
  unfold Session.containers viewOf
  split
  · rename_i hn
    obtain ⟨rs, hrs, hbuf⟩ := h.opened d
    rw [hn, hrs, hbuf]
    rfl
  · rename_i hn
    exact h.files d n hn

theorem shelved_of_containers {s : Session} (hbytes : s.containers = viewOf F)
    (hclosed : ∀ d, s.server.view d (s.client.cur d).containerID = none) : Shelved s F := by
  have hview : ∀ d n, s.containers d n = (F (d, n)).map records.flat :=
    fun d n => congrFun (congrFun hbytes d) n
  unfold Session.containers at hview
  constructor
  · intro d
    have hopen := hview d (s.client.cur d).containerID
    rw [if_pos rfl] at hopen
    obtain ⟨rs, hrs, hbuf⟩ := Option.map_eq_some_iff.mp hopen.symm
    exact ⟨rs, hrs, hbuf.symm⟩
  · intro d n hn
    rw [← hview, if_neg hn]
  · exact hclosed

theorem sessionSteady_iff (henv : env.Lawful) {s : Session} :
    SessionSteady env s F idx ↔ ∃ abs, Stocked env s F idx abs := by
  constructor
  · rintro ⟨hsteady, hclosed, hbody⟩
    obtain ⟨abs, hrep⟩ := hsteady.rep henv
    have hlive : AllLive env F idx := (hsteady.cold_iff henv).allLive fun _ => rfl
    exact ⟨abs, ⟨hrep, hlive, hsteady.named⟩, shelved_of_containers hsteady.bytes hclosed, hbody⟩
  · rintro ⟨abs, hstock, hshelved, hbody⟩
    exact ⟨hstock.rep.steady henv hstock.live.cold hstock.named hshelved.containers,
      hshelved.closed, hbody⟩

/-- A chunk is stored, with and without a roll-over. -/
theorem SessionSteady.saveChunk (henv : env.Lawful) {s : Session} (h : SessionSteady env s F idx)
    {d : Dir} {chunkData : Bytes} (chunkAddr : RecipeEntry) (sf : Sf) {fp : Fp}
    (hsize : chunkData.length ≤ MAX_CHUNK_SIZE) (hflag : chunkAddr.deltaFlag = d.flag)
    (hnew : idx fp = none)
    (hcreated : (s.saveChunk d chunkData chunkAddr sf fp).2.server.created ≤ 2 ^ 31) :
    ∃ F', SessionSteady env (s.saveChunk d chunkData chunkAddr sf fp).2 F'
      (Function.update idx fp (some (env.encEntry (s.saveChunk d chunkData chunkAddr sf fp).1))) := by
  obtain ⟨abs, hstocked⟩ := (sessionSteady_iff henv).mp h
  obtain ⟨F', h'⟩ := hstocked.saveChunk chunkAddr sf hsize hflag hnew hcreated
  exact ⟨F', (sessionSteady_iff henv).mpr ⟨_, h'⟩⟩

/-- The last containers go out, and then all containers are files. -/
theorem SessionSteady.processTailBatch (henv : env.Lawful) {s : Session}
    (h : SessionSteady env s F s.server.db.queryBuffer) :
    Steady env F (EcallFreqIndex.processTailBatch env s).containers
        (EcallFreqIndex.processTailBatch env s).server.db.queryBuffer (fun _ => [])
        (EcallFreqIndex.processTailBatch env s).server.created ∧
      ∃ F', Steady env F' (EcallFreqIndex.processTailBatch env s).close.server.view
        (EcallFreqIndex.processTailBatch env s).close.server.db.queryBuffer (fun _ => [])
        (EcallFreqIndex.processTailBatch env s).close.server.created := by
  obtain ⟨abs, hstock, hshelved, hbody⟩ := (sessionSteady_iff henv).mp h
  have hserver := EcallFreqIndex.server_processTailBatch env s
  have hcur := EcallFreqIndex.cur_processTailBatch env hbody
  generalize EcallFreqIndex.processTailBatch env s = t at hserver hcur ⊢
  have hout : Shelved t F := hshelved.handedOver hserver hcur
  have hstock' : Stock env F t.server.db.queryBuffer abs t.server.created := by
    rw [hserver]
    exact hstock
  obtain ⟨F', hclosed, hview⟩ := hstock'.close hout fun d => by rw [hcur]
  have hdb := (Session.closed_close t).db
  refine ⟨hstock'.rep.steady henv hstock'.live.cold hstock'.named hout.containers, F', ?_⟩
  rw [hdb]
  exact hclosed.rep.steady henv hclosed.live.cold hclosed.named hview

/-! ## Offline passes -/

/-- The containers during a pass: the files and the hot one. -/
def Pass.containers (p : Pass) : View := fun d n =>
  if (d, n) = (.delta, p.hotContainer.containerID) then some p.hotContainer.body
  else p.server.view d n

/-- A pass before it writes its last hot container; the ranges in `cold_map` are
excepted. -/
structure PassSteady (env : Env) (p : Pass) (F : Containers) : Prop where
  steady : Steady env F p.containers p.server.db.queryBuffer (getList p.server.db.coldMap)
    p.server.created
  closed : p.server.view .delta p.hotContainer.containerID = none

variable {p : Pass}

theorem Shelf.mono {news news' : Fp → Prop} (h : Shelf p F news) (hsub : ∀ f, news f → news' f) :
    Shelf p F news' := by
  obtain ⟨rs, hrs, hbody, hnews⟩ := h.hot
  exact ⟨⟨rs, hrs, hbody, fun r hr => hsub _ (hnews r hr)⟩, h.files, h.closed⟩

theorem Shelf.containers {news : Fp → Prop} (h : Shelf p F news) : p.containers = viewOf F := by
  funext d n
  unfold Pass.containers viewOf
  split
  · rename_i hn
    obtain ⟨rs, hrs, hbody, -⟩ := h.hot
    rw [hn, hrs, hbody]
    rfl
  · rename_i hn
    exact h.files d n hn

theorem shelf_of_containers (hbytes : p.containers = viewOf F)
    (hclosed : p.server.view .delta p.hotContainer.containerID = none) :
    Shelf p F fun _ => True := by
  have hview : ∀ d n, p.containers d n = (F (d, n)).map records.flat :=
    fun d n => congrFun (congrFun hbytes d) n
  unfold Pass.containers at hview
  constructor
  · have hhot := hview .delta p.hotContainer.containerID
    rw [if_pos rfl] at hhot
    obtain ⟨rs, hrs, hbody⟩ := Option.map_eq_some_iff.mp hhot.symm
    exact ⟨rs, hrs, hbody.symm, fun _ _ => trivial⟩
  · intro d n hn
    rw [← hview, if_neg hn]
  · exact hclosed

theorem passSteady_iff (henv : env.Lawful) :
    PassSteady env p F ↔ ∃ abs, PassFiled env (fun _ => True) p F abs := by
  constructor
  · rintro ⟨hsteady, hclosed⟩
    obtain ⟨abs, hrep⟩ := hsteady.rep henv
    exact ⟨abs, hrep, hsteady.cold_iff henv, hsteady.named,
      shelf_of_containers hsteady.bytes hclosed⟩
  · rintro ⟨abs, hrep, hcold, hnamed, hshelf⟩
    exact ⟨hrep.steady henv hcold hnamed hshelf.containers, hshelf.closed⟩

theorem Rebasing.passSteady (henv : env.Lawful) {s₀ : Server} {abs₀ : Fp → Option Content}
    {news pending : Fp → Prop} {rest : List (Fp × Fp)}
    (h : Rebasing env s₀ abs₀ news rest pending p F abs) : PassSteady env p F :=
  (passSteady_iff henv).mpr ⟨abs, h.rep, h.cold, h.named, h.shelf.mono fun _ _ => trivial⟩

/-- The beginning of a pass. -/
theorem Rest.passSteady (henv : env.Lawful) {s : Server} (h : Rest env s F abs) (r : PassResidue)
    (hcreated : s.created < 2 ^ 31) :
    ∃ F', PassSteady env (.revised env s r) F' ∧
      Matched env F' (Pass.revised env s r).containers (Pass.revised env s r).server.db.queryBuffer
        fun _ => [] := by
  have hbegin := (h.startPass r hcreated).passSteady henv
  have hcold : getList (Pass.revised env s r).server.db.coldMap = fun _ => [] :=
    funext h.ledger.idle.coldMap
  refine ⟨_, hbegin, ?_⟩
  rw [← hcold]
  exact hbegin.steady.toMatched

/-- A chunk moves to the hot container; its record becomes an exception. -/
theorem PassSteady.moveToHot (henv : env.Lawful) (h : PassSteady env p F) {f : Fp} {c : Cipher}
    (hidx : p.server.db.queryBuffer f = some c) (new : Fp) {delta : Bytes}
    (hdelta : delta.length ≤ MAX_CHUNK_SIZE) (sf : Sf) (iv : Iv)
    (hcreated : (OFFLineBackward.moveToHot env p f new (env.decEntry c) delta f sf
      iv).server.created ≤ 2 ^ 31) :
    ∃ F', PassSteady env (OFFLineBackward.moveToHot env p f new (env.decEntry c) delta f sf iv) F' := by
  obtain ⟨abs, hfiled⟩ := (passSteady_iff henv).mp h
  obtain ⟨content, hf⟩ := Option.isSome_iff_exists.mp
    ((hfiled.rep.catalog.isSome_iff f).mp (by rw [hidx]; rfl))
  obtain ⟨d, n, r, hr, rfl, hidx', -⟩ := hfiled.rep.found hf
  obtain rfl := Option.some.inj (hidx.symm.trans hidx')
  rw [henv.decEntry_encEntry] at hcreated ⊢
  obtain ⟨F', h'⟩ := hfiled.moveToHot henv hr hidx' hdelta sf iv trivial hcreated
  exact ⟨F', (passSteady_iff henv).mpr ⟨_, h'⟩⟩

/-- Once a chunk has moved to the hot container, its old record is an exception. -/
theorem PassSteady.not_matched_moveToHot (henv : env.Lawful) (h : PassSteady env p F) {f : Fp}
    {c : Cipher} (hidx : p.server.db.queryBuffer f = some c) (new : Fp) {delta : Bytes}
    (hdelta : delta.length ≤ MAX_CHUNK_SIZE) (sf : Sf) (iv : Iv)
    (hcreated : (OFFLineBackward.moveToHot env p f new (env.decEntry c) delta f sf
      iv).server.created ≤ 2 ^ 31) :
    ¬ ∃ F', Matched env F' (OFFLineBackward.moveToHot env p f new (env.decEntry c) delta f sf
        iv).containers (OFFLineBackward.moveToHot env p f new (env.decEntry c) delta f sf
        iv).server.db.queryBuffer fun _ => [] := by
  obtain ⟨F', h'⟩ := h.moveToHot henv hidx new hdelta sf iv hcreated
  refine h'.steady.not_matched henv (n := (env.decEntry c).containerName) ?_
  have hcold : ∀ (db : InMemoryDatabase) n a b, getList (db.coldInsert n a b).coldMap n ≠ [] := by
    intro db n a b hnil
    have hpush : getList (pushBack db.coldMap n (a, b)) n = [] := hnil
    rw [getList_pushBack, if_pos rfl] at hpush
    exact List.append_ne_nil_of_right_ne_nil _ (List.cons_ne_nil _ _) hpush
  exact hcold _ _ _ _

/-! ## A pass over two similar chunks -/

def similarServer : Server := (Server.boot .plain blankResidue).run .plain
  [.upload (similarUpload 1), .upload (similarUpload 2)]

def similarPass : Pass := .revised .plain similarServer ⟨zeroCipher, 0, [], []⟩

def similarChunk (k : UInt8) : Bytes := k :: (List.range 20).map UInt8.ofNat

/-- The index entry of the first chunk, and its delta against the second one. -/
def similarRecipe : RecipeEntry :=
  (OFFLineBackward.oneRecipe .plain similarPass (Env.plain.fp (similarChunk 1))).1

def similarDelta : Bytes :=
  (OFFLineBackward.ed3EncodeBuffer .plain similarPass (similarChunk 1) (similarChunk 2)).1

/-- The first chunk becomes a delta chunk of the second one. -/
def similarMoved : Pass :=
  OFFLineBackward.moveToHot .plain similarPass (Env.plain.fp (similarChunk 1))
    (Env.plain.fp (similarChunk 2)) similarRecipe similarDelta (Env.plain.fp (similarChunk 1))
    similarRecipe.superfeature (BytesN.ofBytes 16 [])

theorem length_similarDelta : similarDelta.length ≤ MAX_CHUNK_SIZE := by decide +kernel

theorem created_similarMoved : similarMoved.server.created ≤ 2 ^ 31 := by decide +kernel

theorem similarRecipe_eq : ∃ c,
    similarPass.server.db.queryBuffer (Env.plain.fp (similarChunk 1)) = some c ∧
      similarRecipe = Env.plain.decEntry c := by
  obtain ⟨c, hc⟩ := Option.isSome_iff_exists.mp
    (by decide +kernel : (similarPass.server.db.queryBuffer (Env.plain.fp (similarChunk 1))).isSome)
  refine ⟨c, hc, ?_⟩
  rw [similarRecipe, OFFLineBackward.oneRecipe, hc]
  rfl

theorem similarPass_steady : ∃ F, PassSteady .plain similarPass F ∧
    Matched .plain F similarPass.containers similarPass.server.db.queryBuffer fun _ => [] := by
  have hcreated : similarServer.created < 2 ^ 31 := by decide +kernel
  obtain ⟨F, abs, h⟩ := (Server.Reached.boot.run [.upload (similarUpload 1),
    .upload (similarUpload 2)] : similarServer.Reached .plain blankResidue).rest Env.lawful_plain
    (le_of_lt hcreated)
  exact h.passSteady Env.lawful_plain ⟨zeroCipher, 0, [], []⟩ hcreated

/-! ## The operations -/

/-- Containers and index match on every server between two sessions, and the
operations that write containers keep it so. -/
structure KeepsMatched (env : Env) : Prop where
  reached : ∀ (m : Residue) (s : Server), s.Reached env m → s.Counts →
    ∃ F, Steady env F s.view s.db.queryBuffer (fun _ => []) s.created
  savebaseChunk : ∀ (s : Session) F idx chunkData chunkAddr sf fp, SessionSteady env s F idx →
    chunkData.length ≤ MAX_CHUNK_SIZE → chunkAddr.deltaFlag = NO_DELTA → idx fp = none →
    (s.savebaseChunk chunkData chunkAddr sf fp).2.server.created ≤ 2 ^ 31 →
    ∃ F', SessionSteady env (s.savebaseChunk chunkData chunkAddr sf fp).2 F'
      (Function.update idx fp
        (some (env.encEntry (s.savebaseChunk chunkData chunkAddr sf fp).1)))
  savedeltaChunk : ∀ (s : Session) F idx chunkData chunkAddr sf fp, SessionSteady env s F idx →
    chunkData.length ≤ MAX_CHUNK_SIZE → chunkAddr.deltaFlag = DELTA → idx fp = none →
    (s.savedeltaChunk chunkData chunkAddr sf fp).2.server.created ≤ 2 ^ 31 →
    ∃ F', SessionSteady env (s.savedeltaChunk chunkData chunkAddr sf fp).2 F'
      (Function.update idx fp
        (some (env.encEntry (s.savedeltaChunk chunkData chunkAddr sf fp).1)))
  processTailBatch : ∀ (s : Session) F, SessionSteady env s F s.server.db.queryBuffer →
    Steady env F (EcallFreqIndex.processTailBatch env s).containers
        (EcallFreqIndex.processTailBatch env s).server.db.queryBuffer (fun _ => [])
        (EcallFreqIndex.processTailBatch env s).server.created ∧
      ∃ F', Steady env F' (EcallFreqIndex.processTailBatch env s).close.server.view
        (EcallFreqIndex.processTailBatch env s).close.server.db.queryBuffer (fun _ => [])
        (EcallFreqIndex.processTailBatch env s).close.server.created
  /-- `InsertHot_container` with what its callers tell the index and `cold_map`. -/
  insertHotContainer : ∀ (p : Pass) F f c new delta sf iv, PassSteady env p F →
    p.server.db.queryBuffer f = some c → delta.length ≤ MAX_CHUNK_SIZE →
    (OFFLineBackward.moveToHot env p f new (env.decEntry c) delta f sf iv).server.created ≤ 2 ^ 31 →
    ∃ F', PassSteady env (OFFLineBackward.moveToHot env p f new (env.decEntry c) delta f sf iv) F'
  updateColdContainer : ∀ (p : Pass) F cold d n ranges,
    Steady env F p.server.view p.server.db.queryBuffer cold p.server.created →
    F (d, n) ≠ none → ranges.Perm (cold n) →
    ∃ F', Steady env F' (OFFLineBackward.updateColdContainer env p n ranges).server.view
      (OFFLineBackward.updateColdContainer env p n ranges).server.db.queryBuffer
      (Function.update cold n [])
      (OFFLineBackward.updateColdContainer env p n ranges).server.created
  mergeContainer : ∀ (p : Pass) F,
    Steady env F p.server.view p.server.db.queryBuffer (fun _ => []) p.server.created →
    ∃ F', Steady env F' (OFFLineBackward.mergeContainer env p).server.view
      (OFFLineBackward.mergeContainer env p).server.db.queryBuffer (fun _ => [])
      (OFFLineBackward.mergeContainer env p).server.created
  /-- Between the pairs and the compaction of a pass. -/
  pairs : ∀ (m : Residue) (s : Server) (r : PassResidue), s.Reached env m →
    (OFFLineBackward.easyUpdate env (.revised env s r)).server.created ≤ 2 ^ 31 →
    ∃ F, PassSteady env (OFFLineBackward.updateLocal env
      ((Pass.revised env s r).server.db.localMap.length + 1) (.revised env s r)) F

/-- The files of a server, seen both ways. -/
theorem serverFiled_iff (henv : env.Lawful) {s : Server} :
    Steady env F s.view s.db.queryBuffer cold s.created ↔ ∃ abs, ServerFiled env s cold F abs := by
  constructor
  · intro h
    obtain ⟨abs, hrep⟩ := h.rep henv
    exact ⟨abs, hrep, h.cold_iff henv, h.named, h.bytes⟩
  · rintro ⟨abs, hrep, hcold, hnamed, hview⟩
    exact hrep.steady henv hcold hnamed hview

/-- **Containers and index match** after complete uploads and offline passes in any
order. What stores a chunk keeps it so with the index entry that it returns; a
pass does with the exception of what `cold_map` lists, until the compaction has
removed it. -/
theorem keepsMatched (henv : env.Lawful) : KeepsMatched env where
  reached := by
    intro m s hs hcounts
    obtain ⟨F, abs, h⟩ := hs.rest henv hcounts
    exact ⟨F, h.stock.rep.steady henv h.stock.live.cold h.stock.named h.view⟩
  savebaseChunk := by
    intro s F idx chunkData chunkAddr sf fp h hsize hflag hnew hcreated
    exact h.saveChunk henv { chunkAddr with superfeature := sf } sf hsize hflag hnew hcreated
  savedeltaChunk := by
    intro s F idx chunkData chunkAddr sf fp h hsize hflag hnew hcreated
    exact h.saveChunk henv chunkAddr sf hsize hflag hnew hcreated
  processTailBatch := fun s F h => h.processTailBatch henv
  insertHotContainer := by
    intro p F f c new delta sf iv h hidx hdelta hcreated
    exact h.moveToHot henv hidx new hdelta sf iv hcreated
  updateColdContainer := by
    intro p F cold d n ranges h hn hranges
    obtain ⟨abs, hfiled⟩ := (serverFiled_iff henv).mp h
    obtain ⟨rs, hrs⟩ := Option.ne_none_iff_exists'.mp hn
    obtain ⟨-, ts, -, h'⟩ := hfiled.updateColdContainer henv hrs hranges
    exact ⟨_, (serverFiled_iff henv).mpr ⟨abs, h'⟩⟩
  mergeContainer := by
    intro p F h
    obtain ⟨abs, hfiled⟩ := (serverFiled_iff henv).mp h
    obtain ⟨F', h'⟩ := hfiled.mergeContainer henv
    exact ⟨F', (serverFiled_iff henv).mpr ⟨abs, h'⟩⟩
  pairs := by
    intro m s r hs hcreated
    have hlt := OFFLineBackward.created_easyUpdate_revised env s r
    obtain ⟨F, abs, h⟩ := hs.rest henv (by unfold Server.Counts; omega)
    obtain ⟨⟨F', abs', h'⟩, -⟩ := h.updateLocal henv r hcreated
    exact ⟨F', h'.passSteady henv⟩

theorem keepsMatched_plain : KeepsMatched .plain ∧
    (∃ F, PassSteady .plain similarMoved F) ∧
    ∃ F idx, SessionSteady .plain
      ((Session.start (.boot .plain blankResidue) (similarUpload 1).login).savebaseChunk [7]
        (RecipeEntry.ofBytes []) (BytesN.ofBytes 96 []) (Env.plain.fp [7])).2 F idx := by
  have hkeeps := keepsMatched Env.lawful_plain
  refine ⟨hkeeps, ?_, ?_⟩
  · obtain ⟨F, hsteady, -⟩ := similarPass_steady
    obtain ⟨c, hc, heq⟩ := similarRecipe_eq
    have hroom := created_similarMoved
    unfold similarMoved at hroom ⊢
    rw [heq] at hroom ⊢
    exact hkeeps.insertHotContainer _ F _ c _ _ _ _ hsteady hc length_similarDelta hroom
  · obtain ⟨F, h⟩ := (Rest.boot .plain blankResidue).stock.start
      (Rest.boot .plain blankResidue).view (similarUpload 1).login (by decide)
    obtain ⟨F', h'⟩ := hkeeps.savebaseChunk _ F _ [7] (RecipeEntry.ofBytes []) (BytesN.ofBytes 96 [])
      (Env.plain.fp [7]) ((sessionSteady_iff Env.lawful_plain).mpr ⟨_, h⟩) (by decide) (by decide)
      rfl (by decide +kernel)
    exact ⟨F', _, h'⟩

/-- `InsertHot_container` writes a second record of the chunk, and the index leads to
that one only. -/
theorem not_matched_similarMoved :
    (∃ F, Matched .plain F similarPass.containers similarPass.server.db.queryBuffer fun _ => []) ∧
    ¬ ∃ F, Matched .plain F similarMoved.containers similarMoved.server.db.queryBuffer
      fun _ => [] := by
  obtain ⟨F, hsteady, hmatched⟩ := similarPass_steady
  obtain ⟨c, hc, heq⟩ := similarRecipe_eq
  have hroom := created_similarMoved
  refine ⟨⟨F, hmatched⟩, ?_⟩
  unfold similarMoved at hroom ⊢
  rw [heq] at hroom ⊢
  exact hsteady.not_matched_moveToHot Env.lawful_plain hc _ length_similarDelta _ _ hroom

end ShieldReduce
