import ShieldReduce.Invariant.Upload

/-!
# Interrupted uploads

The index store learns of the chunks of a batch at the end of the batch,
while the chunks themselves wait in the buffers of the enclave for a
roll-over or for the end of the recipe. A session that is cut before that
end therefore leaves an intact index (`Intact`) only if it had nothing to
store.
-/

namespace ShieldReduce

open ByteLib UMapLib TilingLib CatalogLib

variable {env : Env} {F : Containers} {abs : Fp → Option Content}

/-- Every key of the index leads to a record of the key in a container file. -/
def Intact (env : Env) (s : Server) : Prop :=
  ∀ f v, s.db.queryBuffer f = some v → ∃ d n file, s.view d n = some file ∧
    ∃ r : Record, r.fp = f ∧ r.entry = env.decEntry v ∧ r.PlacedIn n ∧ r.FoundIn file

theorem Rest.intact (henv : env.Lawful) {s : Server} (h : Rest env s F abs) : Intact env s := by
  intro f v hv
  obtain ⟨c, hc⟩ := Option.isSome_iff_exists.mp
    ((h.stock.rep.catalog.isSome_iff f).mp (by rw [hv]; rfl))
  obtain ⟨d, n, r, hr, hfp, hidx, -⟩ := h.stock.rep.found hc
  obtain ⟨rs, hrs, hmem⟩ := hr
  refine ⟨d, n, records.flat rs, ?_, r, hfp, ?_, h.stock.rep.placed ⟨rs, hrs, hmem⟩,
    (h.stock.rep.holds hrs).found hmem (List.prefix_refl _)⟩
  · rw [h.view, viewOf, hrs]
    rfl
  · rw [hv] at hidx
    rw [Option.some.inj hidx, henv.decEntry_encEntry]

/-! ## Batches without a new chunk -/

namespace EcallFreqIndex

/-- An entry whose chunk the index knows stores nothing. -/
theorem storeEntry_known (env : Env) (db : InMemoryDatabase) (recvBuffer : Bytes) (localFlag : Bool)
    (st : Storing) {e : InQueryEntry} (he : ∀ o, e.out = some o → o.dedupFlag = .duplicate) :
    (storeEntry env recvBuffer localFlag st e).session =
        st.session.updateFileRecipe env e.chunkHash ∧
      applied localFlag db (storeEntry env recvBuffer localFlag st e) = applied localFlag db st := by
  unfold storeEntry
  dsimp only
  cases ho : e.out with
  | none =>
      refine ⟨rfl, applied_snoc_same localFlag db st e fun o ho' => ?_⟩
      rw [ho] at ho'
      cases ho'
  | some o =>
      simp only [he o ho, if_true]
      refine ⟨trivial, applied_snoc_same localFlag db st
        { e with chunkAddr := env.decEntry o.chunkAddr, out := some o } fun o' ho' => ?_⟩
      obtain rfl : o = o' := Option.some.inj ho'
      rw [he o ho]
      simp

theorem foldl_storeEntry_known (env : Env) (db : InMemoryDatabase) (recvBuffer : Bytes)
    (localFlag : Bool) : ∀ (es : List InQueryEntry) (st : Storing),
      (∀ e ∈ es, ∀ o, e.out = some o → o.dedupFlag = .duplicate) →
      (es.foldl (storeEntry env recvBuffer localFlag) st).session.server = st.session.server ∧
        (es.foldl (storeEntry env recvBuffer localFlag) st).session.client.cur =
          st.session.client.cur ∧
        applied localFlag db (es.foldl (storeEntry env recvBuffer localFlag) st) =
          applied localFlag db st
  | [], _, _ => ⟨rfl, rfl, rfl⟩
  | e :: es, st, hes => by
      obtain ⟨hsession, happlied⟩ := storeEntry_known env db recvBuffer localFlag st (hes e (by simp))
      obtain ⟨h1, h2, h3⟩ := foldl_storeEntry_known env db recvBuffer localFlag es
        (storeEntry env recvBuffer localFlag st e) fun e' he' => hes e' (by simp [he'])
      refine ⟨?_, ?_, ?_⟩
      · rw [List.foldl_cons, h1, hsession, server_updateFileRecipe]
      · rw [List.foldl_cons, h2, hsession, cur_updateFileRecipe]
      · rw [List.foldl_cons, h3, happlied]

/-- A batch of chunks that the index knows: the open containers and the index
stay as they are. -/
theorem processOneBatch_known (henv : env.Lawful) (s : Session) (cs : List Chunk)
    (stale : Nat → RecipeEntry)
    (hknown : ∀ c ∈ cs, (s.server.db.queryBuffer (env.fp c.1)).isSome) :
    (processOneBatch env s (env.sessionKeyEnc s.client.sessionKey
        (frameChunks (cs.map Subtype.val))) cs.length stale).client.cur = s.client.cur ∧
      (processOneBatch env s (env.sessionKeyEnc s.client.sessionKey
        (frameChunks (cs.map Subtype.val))) cs.length stale).server.db = s.server.db := by
  obtain ⟨sketch, es, hquery, hbatch⟩ := queryBatch_spec henv s.server cs stale
  unfold processOneBatch
  simp only [henv.sessionKey, hquery]
  have hdup : ∀ e ∈ es, ∀ o, e.out = some o → o.dedupFlag = .duplicate := by
    intro e he o ho
    have hprep := hbatch.prepared e he o ho
    rcases hprep.flag with ⟨hflag, -⟩ | ⟨-, hnone⟩
    · exact hflag
    · obtain ⟨c, hc, hchunk⟩ := hbatch.chunk he
      have hsome := hknown c hc
      rw [Env.fp, hchunk, ← hbatch.hash e he, ← hprep.hash, hnone] at hsome
      cases hsome
  obtain ⟨hserver, hcur, happlied⟩ := foldl_storeEntry_known env s.server.db
    (frameChunks (cs.map Subtype.val)) (localChecker env es) es
    ⟨{ s with server := { s.server with cmSketch := sketch } }, [], [], []⟩ hdup
  refine ⟨hcur, ?_⟩
  rw [db_finishBatch, hserver]
  refine happlied.trans ?_
  cases localChecker env es <;> rfl

end EcallFreqIndex

/-- A session of chunks that the index knows leaves its containers and the index
alone. -/
theorem batches_known (henv : env.Lawful) (u : Upload) : ∀ (bs : List Batch) (s : Session),
    s.client.sessionKey = u.login.sessionKey →
    (∀ c ∈ bs.flatMap Batch.chunks, (s.server.db.queryBuffer (env.fp c.1)).isSome) →
    ((bs.map (u.message env)).foldl (Session.receive env) s).client.cur = s.client.cur ∧
      ((bs.map (u.message env)).foldl (Session.receive env) s).server.db = s.server.db
  | [], _, _, _ => ⟨rfl, rfl⟩
  | b :: bs, s, hkey, hknown => by
      rw [List.flatMap_cons] at hknown
      obtain ⟨hcur, hdb⟩ := EcallFreqIndex.processOneBatch_known henv s b.chunks b.stale
        fun c hc => hknown c (List.mem_append_left _ hc)
      have hframe := (frame_batch henv s b.chunks b.stale []).1
      rw [← receive_message env u b hkey] at hcur hdb hframe
      obtain ⟨hcur', hdb'⟩ := batches_known henv u bs (s.receive env (u.message env b))
        (hframe.sessionKey.trans hkey) fun c hc => by
          rw [hdb]
          exact hknown c (List.mem_append_right _ hc)
      rw [List.map_cons, List.foldl_cons, hcur', hdb', hcur, hdb]
      exact ⟨rfl, rfl⟩

theorem created_receiveUpload (henv : env.Lawful) (s : Server) (u : Upload) (toEnd : Bool) :
    s.created ≤ (s.receiveUpload env u toEnd).created := by
  have hfilled := created_filled henv s u
  cases toEnd with
  | true => exact le_trans (by omega) (le_trans hfilled (created_recipeEnd env s u))
  | false =>
      have hcreated : (s.receiveUpload env u false).created =
          (u.filled env s).close.server.created := by
        rw [receiveUpload_false]
      rw [hcreated]
      exact le_trans (by omega) (le_trans hfilled (created_close _))

/-- A session that is cut, and had nothing to store. -/
theorem Rest.cut (henv : env.Lawful) {s : Server} (h : Rest env s F abs) (u : Upload)
    (hknown : ∀ c ∈ u.chunks, (s.db.queryBuffer (env.fp c.1)).isSome)
    (hcreated : (s.receiveUpload env u false).created ≤ 2 ^ 31) :
    ∃ F' abs', Rest env (s.receiveUpload env u false) F' abs' := by
  have hclose : (s.receiveUpload env u false).created = (u.filled env s).close.server.created := by
    rw [receiveUpload_false]
  rw [hclose] at hcreated
  obtain ⟨F₁, abs₁, h₁, -, -⟩ := h.filled (P := fun _ => True) henv u (fun _ _ => trivial)
    (le_trans (created_close _) hcreated)
  have hcur : ∀ d, ((u.filled env s).client.cur d).buf = [] := by
    intro d
    have hstart : (u.filled env s).client.cur = (Session.start s u.login).client.cur :=
      (batches_known henv u u.batches (Session.start s u.login) rfl hknown).1
    rw [hstart]
    cases d <;> rfl
  obtain ⟨F', hrest, -⟩ := SessionOk.close (P := fun _ => True) h₁ rfl fun d => by
    rw [hcur d, ← h₁.stocked.body d]
  rw [receiveUpload_false]
  exact ⟨F', abs₁, hrest.withRecipes _⟩

/-! ## Sessions that may be cut -/

/-- An upload session, and whether the server gets to the end of its recipe.
A session that is cut earlier has only the batches that arrived. -/
structure Visit where
  upload : Upload
  toEnd : Bool

namespace Server

def visit (env : Env) (s : Server) (v : Visit) : Server :=
  (s.receiveUpload env v.upload v.toEnd).updateOnlineInfo

def visits (env : Env) (s : Server) (vs : List Visit) : Server := vs.foldl (visit env) s

/-- The sessions that are cut bring chunks that the index knows already. -/
def CutsBringNothing (env : Env) (s : Server) : List Visit → Prop
  | [] => True
  | v :: vs => (v.toEnd = true ∨
      ∀ c ∈ v.upload.chunks, (s.db.queryBuffer (env.fp c.1)).isSome) ∧
    CutsBringNothing env (s.visit env v) vs

end Server

theorem created_visits (henv : env.Lawful) : ∀ (vs : List Visit) (s : Server),
    s.created ≤ (s.visits env vs).created
  | [], _ => le_refl _
  | v :: vs, s => le_trans (created_receiveUpload henv s v.upload v.toEnd)
      (created_visits henv vs (s.visit env v))

theorem Rest.visit (henv : env.Lawful) {s : Server} (h : Rest env s F abs) (v : Visit)
    (hv : v.toEnd = true ∨ ∀ c ∈ v.upload.chunks, (s.db.queryBuffer (env.fp c.1)).isSome)
    (hcounts : (s.visit env v).Counts) : ∃ F' abs', Rest env (s.visit env v) F' abs' := by
  obtain ⟨u, toEnd⟩ := v
  cases toEnd with
  | true =>
      obtain ⟨F', abs', h', -, -⟩ := h.upload (P := fun _ => True) henv u (fun _ _ => trivial) hcounts
      exact ⟨F', abs', h'.updateOnlineInfo⟩
  | false =>
      obtain ⟨F', abs', h'⟩ := h.cut henv u (hv.resolve_left (by simp)) hcounts
      exact ⟨F', abs', h'.updateOnlineInfo⟩

theorem Rest.visits (henv : env.Lawful) : ∀ (vs : List Visit) {s : Server} {F : Containers}
    {abs : Fp → Option Content}, Rest env s F abs → s.CutsBringNothing env vs →
    (s.visits env vs).Counts → ∃ F' abs', Rest env (s.visits env vs) F' abs'
  | [], s, F, abs, h, _, _ => ⟨F, abs, h⟩
  | v :: vs, s, F, abs, h, hcuts, hcounts => by
      obtain ⟨F', abs', h'⟩ := h.visit henv v hcuts.1
        (le_trans (created_visits henv vs (s.visit env v)) hcounts)
      exact h'.visits henv vs hcuts.2 hcounts

theorem Server.CutsBringNothing.take {s : Server} {vs : List Visit} (h : s.CutsBringNothing env vs)
    (k : Nat) : s.CutsBringNothing env (vs.take k) := by
  induction k generalizing s vs with
  | zero => trivial
  | succ k ih =>
      cases vs with
      | nil => trivial
      | cons v vs => exact ⟨h.1, ih h.2⟩

/-- **Interrupted uploads.** After every session of a run in which the
sessions that are cut bring nothing new, every key of the index leads to
a record in a container file. -/
theorem intact_visits (henv : env.Lawful) (m : Residue) (vs : List Visit)
    (hcuts : (Server.boot env m).CutsBringNothing env vs)
    (hcounts : ((Server.boot env m).visits env vs).Counts) (k : Nat) :
    Intact env ((Server.boot env m).visits env (vs.take k)) := by
  have hle : ((Server.boot env m).visits env (vs.take k)).created ≤
      ((Server.boot env m).visits env vs).created := by
    conv_rhs => rw [← List.take_append_drop k vs, Server.visits, List.foldl_append]
    exact created_visits henv (vs.drop k) _
  obtain ⟨F, abs, h⟩ := (Rest.boot env m).visits henv (vs.take k) (hcuts.take k)
    (le_trans hle hcounts)
  exact h.intact henv

/-- A file of one chunk of one byte. -/
def oneByteUpload : Upload where
  login := ⟨BytesN.ofBytes 32 [1], BytesN.ofBytes 32 [2], BytesN.ofBytes 32 [3],
    BytesN.ofBytes 16 [], BytesN.ofBytes 16 []⟩
  batches := [⟨[⟨[7], by decide⟩], fun _ => RecipeEntry.ofBytes []⟩]
  head := BytesN.ofBytes 16 [9]

def blankResidue : Residue := ⟨[], fun _ => []⟩

theorem intact_oneByteUpload :
    Intact .plain ((Server.boot .plain blankResidue).visits .plain
      [⟨oneByteUpload, true⟩, ⟨oneByteUpload, false⟩]) :=
  intact_visits Env.lawful_plain blankResidue [⟨oneByteUpload, true⟩, ⟨oneByteUpload, false⟩]
    ⟨Or.inl rfl, Or.inr (by decide +kernel), trivial⟩ (by unfold Server.Counts; decide +kernel) 2

theorem not_intact_cut : ¬ Intact .plain
    ((Server.boot .plain blankResidue).visits .plain [⟨oneByteUpload, false⟩]) := by
  intro h
  obtain ⟨d, n, file, hfile, -⟩ := h (BytesN.ofBytes 32 [7])
    (Env.plain.encEntry ⟨containerName 0, NO_DELTA, 0, 1, BytesN.ofBytes 32 [],
      BytesN.ofBytes 96 []⟩) (by decide)
  have hempty : ∀ d, ((Server.boot .plain blankResidue).visits .plain
      [⟨oneByteUpload, false⟩]).containers d = ∅ := fun d => rfl
  rw [Server.view, hempty] at hfile
  cases hfile

end ShieldReduce
