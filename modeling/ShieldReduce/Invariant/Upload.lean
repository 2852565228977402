import ShieldReduce.Invariant.Storing

/-!
# Uploads keep the books

The invariants over a batch (`SessionOk.batch`), over all batches of a
session, and over a session from the server at rest to the server at
rest (`Rest.upload`). What a session adds to the contents and does to
the cache is collected in `Progress`, and what it writes to the recipe in
`RecipeOk`.
-/

namespace ShieldReduce

open ByteLib UMapLib TilingLib CatalogLib

variable {env : Env} {P : Chunk → Prop} {F : Containers} {abs abs' : Fp → Option Content}

/-- Every fingerprint that the heap knows is stored. -/
def HeapKnown (env : Env) (s : Server) (abs : Fp → Option Content) : Prop :=
  ∀ h, s.insideDedupIndex.contains h = true → (abs (env.indexAESCMCEnc h)).isSome

structure SessionOk (env : Env) (s : Session) (F : Containers) (abs : Fp → Option Content) :
    Prop where
  stocked : Stocked env s F s.server.db.queryBuffer abs
  ledger : Ledger env s.server.db abs
  heap : HeapKnown env s.server abs

theorem SessionOk.listed_known {s : Session} (h : SessionOk env s F abs) (f : Fp)
    (hf : s.server.db.InSF f) : (s.server.db.queryBuffer f).isSome :=
  (h.stocked.stock.rep.catalog.isSome_iff f).mpr (h.ledger.linked.InSF_whole hf).isSome

/-- What happens to the contents and to the cache. -/
structure Progress (env : Env) (P : Chunk → Prop) (s s' : Server) (abs abs' : Fp → Option Content) : Prop where
  keeps : ∀ f c, abs f = some c → abs' f = some c
  cache : EcallFreqIndex.CacheOk s → EcallFreqIndex.CacheOk s'
  encodes : EcallFreqIndex.CacheOk s → ∀ call ∈ s'.encodes,
    call ∈ s.encodes ∨ call.plain = some call.baseBuf
  sound : EcallFreqIndex.CacheOk s → env.Lz4Raw → Sound env P abs → Sound env P abs'

namespace Progress

theorem refl (env : Env) (P : Chunk → Prop) (s : Server) (abs : Fp → Option Content) :
    Progress env P s s abs abs where
  keeps := fun _ _ h => h
  cache := fun h => h
  encodes := fun _ _ h => Or.inl h
  sound := fun _ _ h => h

theorem trans {s s' s'' : Server} {abs'' : Fp → Option Content} (h : Progress env P s s' abs abs')
    (h' : Progress env P s' s'' abs' abs'') : Progress env P s s'' abs abs'' where
  keeps := fun f c hc => h'.keeps f c (h.keeps f c hc)
  cache := fun hc => h'.cache (h.cache hc)
  encodes := by
    intro hc call hcall
    rcases h'.encodes (h.cache hc) call hcall with hcall | hplain
    · exact h.encodes hc call hcall
    · exact Or.inr hplain
  sound := fun hc hraw hs => h'.sound (h.cache hc) hraw (h.sound hc hraw hs)

theorem isSome {s s' : Server} (h : Progress env P s s' abs abs') {f : Fp} (hf : (abs f).isSome) :
    (abs' f).isSome := by
  obtain ⟨c, hc⟩ := Option.isSome_iff_exists.mp hf
  rw [h.keeps f c hc]
  rfl

end Progress

/-! ## Recipes -/

/-- A group of fingerprints as the recipe holds it. -/
def recipeGroup (env : Env) (masterKey : Key) (g : List Fp) : Bytes :=
  env.encryptWithKey masterKey (g.flatMap Subtype.val)

/-- The fingerprints so far are in full groups behind the head, and in the
buffer. -/
structure RecipeOk (env : Env) (c : Client) (head : Bytes) (hashes : List Fp) : Prop where
  groups : ∃ gs : List (List Fp), c.recipe = head ++ gs.flatMap (recipeGroup env c.masterKey) ∧
    (∀ g ∈ gs, g.length = env.sendRecipeBatchSize) ∧ gs.flatten ++ c.inRecipe = hashes
  rest : c.inRecipe.length < env.sendRecipeBatchSize

theorem RecipeOk.congr {c c' : Client} {head : Bytes} {hashes : List Fp}
    (h : RecipeOk env c head hashes) (hrecipe : c'.recipe = c.recipe)
    (hin : c'.inRecipe = c.inRecipe) (hkey : c'.masterKey = c.masterKey) :
    RecipeOk env c' head hashes := by
  obtain ⟨⟨gs, h1, h2, h3⟩, h4⟩ := h
  refine ⟨⟨gs, ?_, h2, ?_⟩, ?_⟩
  · rw [hrecipe, hkey, h1]
  · rw [hin, h3]
  · rwa [hin]

theorem RecipeOk.updateFileRecipe {s : Session} {head : Bytes} {hashes : List Fp}
    (h : RecipeOk env s.client head hashes) (f : Fp) :
    RecipeOk env (s.updateFileRecipe env f).client head (hashes ++ [f]) := by
  obtain ⟨⟨gs, hrecipe, hfull, hall⟩, hrest⟩ := h
  unfold Session.updateFileRecipe
  dsimp only
  have hlen : (s.client.inRecipe ++ [f]).length = s.client.inRecipe.length + 1 := by simp
  split
  · rename_i hmod
    -- the buffer holds a full group now
    have hgroup : (s.client.inRecipe ++ [f]).length = env.sendRecipeBatchSize := by
      have hdvd := Nat.le_of_dvd (by omega) (Nat.dvd_of_mod_eq_zero hmod)
      omega
    refine ⟨⟨gs ++ [s.client.inRecipe ++ [f]], ?_, ?_, ?_⟩, ?_⟩
    · show s.client.recipe ++ _ = _
      rw [hrecipe, List.flatMap_append, List.append_assoc]
      simp [Session.flushRecipe, recipeGroup]
    · intro g hg
      rcases List.mem_append.mp hg with hg | hg
      · exact hfull g hg
      · rw [List.mem_singleton.mp hg, hgroup]
    · rw [List.flatten_append, ← hall]
      simp [Session.flushRecipe]
    · show 0 < env.sendRecipeBatchSize
      omega
  · rename_i hmod
    refine ⟨⟨gs, hrecipe, hfull, ?_⟩, ?_⟩
    · rw [← hall, List.append_assoc]
    · show (s.client.inRecipe ++ [f]).length < env.sendRecipeBatchSize
      by_contra hge
      refine hmod ?_
      have heq : (s.client.inRecipe ++ [f]).length = env.sendRecipeBatchSize := by omega
      rw [heq, Nat.mod_self]

/-- What else a batch leaves alone. -/
structure SameFile (s s' : Session) : Prop where
  recipes : s'.server.recipes = s.server.recipes
  recipePath : s'.client.recipePath = s.client.recipePath
  sessionKey : s'.client.sessionKey = s.client.sessionKey
  masterKey : s'.client.masterKey = s.client.masterKey
  created : s.server.created ≤ s'.server.created

theorem SameFile.refl (s : Session) : SameFile s s := ⟨rfl, rfl, rfl, rfl, le_refl _⟩

theorem SameFile.trans {s t u : Session} (h : SameFile s t) (h' : SameFile t u) : SameFile s u :=
  ⟨h'.recipes.trans h.recipes, h'.recipePath.trans h.recipePath, h'.sessionKey.trans h.sessionKey,
    h'.masterKey.trans h.masterKey, le_trans h.created h'.created⟩

namespace EcallFreqIndex

theorem client_updateFileRecipe (env : Env) (s : Session) (f : Fp) :
    (s.updateFileRecipe env f).client.recipePath = s.client.recipePath ∧
      (s.updateFileRecipe env f).client.sessionKey = s.client.sessionKey ∧
      (s.updateFileRecipe env f).client.masterKey = s.client.masterKey := by
  unfold Session.updateFileRecipe
  dsimp only
  split <;> exact ⟨rfl, rfl, rfl⟩

/-- The store loop and the recipe: it gets the fingerprints of the batch. -/
theorem recipe_foldl_storeEntry {db : InMemoryDatabase} {recvBuffer : Bytes} (localFlag : Bool)
    (head : Bytes) : ∀ (es : List InQueryEntry) (st : Storing),
      (∀ e ∈ es, EntryOk env P db recvBuffer e) →
      SameFile st.session (es.foldl (storeEntry env recvBuffer localFlag) st).session ∧
      ∀ hashes, RecipeOk env st.session.client head hashes →
        RecipeOk env (es.foldl (storeEntry env recvBuffer localFlag) st).session.client head
          (hashes ++ es.map InQueryEntry.chunkHash)
  | [], st, _ => ⟨.refl _, fun hashes h => by simpa using h⟩
  | e :: es, st, hes => by
      obtain ⟨⟨s, hcarried, heq⟩, -⟩ := storeEntry_frame localFlag st (hes e (by simp))
      obtain ⟨hpath, hsession, hmaster⟩ := client_updateFileRecipe env s e.chunkHash
      have hstep : SameFile st.session (storeEntry env recvBuffer localFlag st e).session := by
        rw [heq]
        refine ⟨?_, ?_, ?_, ?_, ?_⟩
        · rw [server_updateFileRecipe, hcarried.recipes]
        · rw [hpath, hcarried.recipePath]
        · rw [hsession, hcarried.sessionKey]
        · rw [hmaster, hcarried.masterKey]
        · rw [server_updateFileRecipe]
          exact hcarried.created
      obtain ⟨hsame, hrecipe⟩ := recipe_foldl_storeEntry localFlag head es
        (storeEntry env recvBuffer localFlag st e) fun e' he' => hes e' (by simp [he'])
      refine ⟨hstep.trans hsame, fun hashes h => ?_⟩
      have hnext : RecipeOk env (storeEntry env recvBuffer localFlag st e).session.client head
          (hashes ++ [e.chunkHash]) := by
        rw [heq]
        exact (h.congr hcarried.recipe hcarried.inRecipe hcarried.masterKey).updateFileRecipe _
      have := hrecipe _ hnext
      rwa [List.append_assoc] at this

/-! ## One batch -/

theorem BatchOk.entryOk {db : InMemoryDatabase} {heap : EntryHeap} {cs : List Chunk}
    {recvBuffer : Bytes} {es : List InQueryEntry} (h : BatchOk env db heap cs recvBuffer es)
    (hP : ∀ c ∈ cs, P c) : ∀ e ∈ es, EntryOk env P db recvBuffer e := by
  intro e he
  obtain ⟨c, hmem, hc⟩ := h.chunk he
  exact ⟨⟨c, hP c hmem, hc⟩, h.hash e he, h.text e he, h.prepared e he⟩

theorem contains_updateHeap {heap : EntryHeap} {e : InQueryEntry} {k : Fp}
    (h : (updateHeap env heap e).contains k = true) : heap.contains k = true ∨ k = e.chunkHash := by
  unfold updateHeap at h
  split at h
  · split at h
    · rw [EntryHeap.contains_update] at h
      exact Or.inl h
    · unfold addChunkToHeap at h
      rcases EntryHeap.contains_add h with rfl | h
      · exact Or.inr rfl
      · split at h
        · exact Or.inl (EntryHeap.contains_pop h)
        · exact Or.inl h
  · exact Or.inl h

/-- The heap only learns fingerprints of the batch. -/
theorem contains_foldl_updateHeap : ∀ (es : List InQueryEntry) {heap : EntryHeap} {k : Fp},
    (es.foldl (updateHeap env) heap).contains k = true →
    heap.contains k = true ∨ ∃ e ∈ es, k = e.chunkHash
  | [], _, _, h => Or.inl h
  | e :: es, heap, k, h => by
      rcases contains_foldl_updateHeap es h with h | ⟨e', he', rfl⟩
      · rcases contains_updateHeap h with h | rfl
        · exact Or.inl h
        · exact Or.inr ⟨e, by simp, rfl⟩
      · exact Or.inr ⟨e', by simp [he'], rfl⟩

/-- The state in which the store loop begins. -/
theorem storeOk_start {s : Session} (h : SessionOk env s F abs) (localFlag : Bool)
    (es : List InQueryEntry) : StoreOk env P localFlag s.server abs es ⟨s, [], [], []⟩ F abs := by
  have happlied : applied localFlag s.server.db ⟨s, [], [], []⟩ = s.server.db := by
    cases localFlag <;> rfl
  constructor
  · rw [happlied]
    exact h.stocked
  · rw [happlied]
    exact h.ledger
  · rfl
  · rfl
  · exact fun _ _ hf => hf
  · rw [happlied]
    exact fun _ _ hf => hf
  · rw [happlied]
    exact fun _ hf => hf
  · intro e _ o _ hnone
    have hiff := h.stocked.stock.rep.catalog.isSome_iff o.chunkHash
    rw [hnone] at hiff
    cases habs : abs o.chunkHash with
    | none => rfl
    | some c =>
        rw [habs] at hiff
        exact absurd (hiff.mpr rfl) (by simp)
  · intro e he
    cases he
  · exact fun hc => hc
  · exact fun _ call hcall => Or.inl hcall
  · exact fun _ _ hs => hs

/-- Once the loop is done, every chunk of the batch is stored. -/
theorem StoreOk.known {localFlag : Bool} {s₀ : Server} {abs₀ : Fp → Option Content}
    {recvBuffer : Bytes} {cs : List Chunk} {es : List InQueryEntry} {st : Storing}
    (h : StoreOk env P localFlag s₀ abs₀ []
      (es.foldl (EcallFreqIndex.storeEntry env recvBuffer localFlag) st) F abs)
    (hbatch : BatchOk env s₀.db s₀.insideDedupIndex cs recvBuffer es)
    (hheap : HeapKnown env s₀ abs₀) : ∀ e ∈ es, (abs (env.indexAESCMCEnc e.chunkHash)).isSome := by
  intro e he
  rcases hbatch.covered e he with hin | ⟨e', he', hhash, hout⟩
  · obtain ⟨c, hc⟩ := Option.isSome_iff_exists.mp (hheap _ hin)
    rw [h.keeps _ c hc]
    rfl
  · have hmem : (e'.chunkHash, e'.out.isSome) ∈
        (es.foldl (EcallFreqIndex.storeEntry env recvBuffer localFlag) st).entries.map
          (fun e => (e.chunkHash, e.out.isSome)) := by
      rw [entries_foldl_storeEntry localFlag es st (hbatch.entryOk fun _ _ => trivial)]
      exact List.mem_append_right _ (List.mem_map.mpr ⟨e', he', rfl⟩)
    obtain ⟨e'', he'', heq⟩ := List.mem_map.mp hmem
    obtain ⟨hhash', hout'⟩ := Prod.mk.injEq .. |>.mp heq
    have hne : e''.out ≠ none := by
      rw [← Option.isSome_iff_ne_none, hout', Option.isSome_iff_ne_none]
      exact hout
    have := h.done e'' he'' hne
    rwa [hhash', hhash] at this

end EcallFreqIndex

open EcallFreqIndex in
/-- `ProcessOneBatch`, for a message of the session's client. -/
theorem SessionOk.batch (henv : env.Lawful) {s : Session} (h : SessionOk env s F abs)
    (cs : List Chunk) (hP : ∀ c ∈ cs, P c) (stale : Nat → RecipeEntry)
    (hcreated : (processOneBatch env s (env.sessionKeyEnc s.client.sessionKey
      (frameChunks (cs.map Subtype.val))) cs.length stale).server.created ≤ 2 ^ 31) :
    ∃ F' abs', SessionOk env (processOneBatch env s (env.sessionKeyEnc s.client.sessionKey
        (frameChunks (cs.map Subtype.val))) cs.length stale) F' abs' ∧
      Progress env P s.server (processOneBatch env s (env.sessionKeyEnc s.client.sessionKey
        (frameChunks (cs.map Subtype.val))) cs.length stale).server abs abs' ∧
      ∀ c ∈ cs, (abs' (env.fp c.1)).isSome := by
  obtain ⟨sketch, es, hquery, hbatch⟩ := queryBatch_spec henv s.server cs stale
  unfold processOneBatch at hcreated ⊢
  simp only [henv.sessionKey, hquery] at hcreated ⊢
  have hstart : SessionOk env { s with server := { s.server with cmSketch := sketch } } F abs :=
    ⟨h.stocked.congr ⟨rfl, rfl, rfl⟩, h.ledger, h.heap⟩
  obtain ⟨F', abs', hstore⟩ := (storeOk_start hstart (localChecker env es) es).foldl henv
    hstart.listed_known es (hbatch.entryOk hP) hbatch.distinct hcreated
  have hknown := hstore.known hbatch h.heap
  generalize hst : es.foldl (storeEntry env (frameChunks (cs.map Subtype.val))
    (localChecker env es)) _ = st at hstore
  have hdb : (finishBatch env (localChecker env es) st).server.db =
      applied (localChecker env es) s.server.db st := by
    rw [db_finishBatch, hstore.db]
  refine ⟨F', abs', ⟨?_, ?_, ?_⟩, ⟨hstore.keeps, ?_, ?_, ?_⟩, ?_⟩
  · rw [hdb]
    exact hstore.stocked.congr ⟨rfl, rfl, rfl⟩
  · rw [hdb]
    exact hstore.ledger
  · intro k hk
    rcases contains_foldl_updateHeap st.entries hk with hk | ⟨e, he, rfl⟩
    · rw [hstore.heap] at hk
      obtain ⟨c, hc⟩ := Option.isSome_iff_exists.mp (h.heap k hk)
      rw [hstore.keeps _ c hc]
      rfl
    · have hmem : (e.chunkHash, e.out.isSome) ∈ st.entries.map
          (fun e => (e.chunkHash, e.out.isSome)) := List.mem_map.mpr ⟨e, he, rfl⟩
      rw [← hst, entries_foldl_storeEntry _ es _ (hbatch.entryOk hP), List.map_nil, List.nil_append] at hmem
      obtain ⟨e', he', heq⟩ := List.mem_map.mp hmem
      rw [← (Prod.mk.injEq .. |>.mp heq).1]
      exact hknown e' he'
  · intro hc
    have hc' := hstore.cache ⟨hc.valid, hc.cached⟩
    exact ⟨hc'.valid, hc'.cached⟩
  · exact fun hc => hstore.encodes ⟨hc.valid, hc.cached⟩
  · exact fun hc => hstore.sound ⟨hc.valid, hc.cached⟩
  · intro c hc
    have hmem : c.1 ∈ es.map InQueryEntry.chunk := by
      rw [hbatch.chunks]
      exact List.mem_map.mpr ⟨c, hc, rfl⟩
    obtain ⟨e, he, hec⟩ := List.mem_map.mp hmem
    rw [Env.fp, ← hec, ← hbatch.hash e he]
    exact hknown e he

open EcallFreqIndex in
theorem frame_batch (henv : env.Lawful) (s : Session) (cs : List Chunk) (stale : Nat → RecipeEntry)
    (head : Bytes) :
    SameFile s (processOneBatch env s (env.sessionKeyEnc s.client.sessionKey
        (frameChunks (cs.map Subtype.val))) cs.length stale) ∧
      ∀ hashes, RecipeOk env s.client head hashes →
        RecipeOk env (processOneBatch env s (env.sessionKeyEnc s.client.sessionKey
          (frameChunks (cs.map Subtype.val))) cs.length stale).client head
          (hashes ++ cs.map fun c => env.generateHash c.1) := by
  obtain ⟨sketch, es, hquery, hbatch⟩ := queryBatch_spec henv s.server cs stale
  unfold processOneBatch
  simp only [henv.sessionKey, hquery]
  obtain ⟨hsame, hrecipe⟩ := recipe_foldl_storeEntry (localChecker env es) head es
    ⟨{ s with server := { s.server with cmSketch := sketch } }, [], [], []⟩
    (hbatch.entryOk fun _ _ => trivial)
  refine ⟨⟨hsame.recipes, hsame.recipePath, hsame.sessionKey, hsame.masterKey, hsame.created⟩, ?_⟩
  intro hashes h
  rw [← hbatch.hashes]
  exact hrecipe hashes h

/-! ## All batches of a session -/

theorem receive_message (env : Env) (u : Upload) (b : Batch) {s : Session}
    (hkey : s.client.sessionKey = u.login.sessionKey) :
    s.receive env (u.message env b) = EcallFreqIndex.processOneBatch env s
      (env.sessionKeyEnc s.client.sessionKey (frameChunks (b.chunks.map Subtype.val)))
      b.chunks.length b.stale := by
  rw [hkey]
  rfl

theorem frame_batches (henv : env.Lawful) (u : Upload) (head : Bytes) : ∀ (bs : List Batch)
    (s : Session), s.client.sessionKey = u.login.sessionKey →
    SameFile s ((bs.map (u.message env)).foldl (Session.receive env) s) ∧
      ∀ hashes, RecipeOk env s.client head hashes →
        RecipeOk env ((bs.map (u.message env)).foldl (Session.receive env) s).client head
          (hashes ++ (bs.flatMap Batch.chunks).map fun c => env.generateHash c.1)
  | [], s, _ => ⟨.refl s, fun hashes h => by simpa using h⟩
  | b :: bs, s, hkey => by
      obtain ⟨hsame, hrecipe⟩ := frame_batch henv s b.chunks b.stale head
      rw [← receive_message env u b hkey] at hsame hrecipe
      obtain ⟨hsame', hrecipe'⟩ := frame_batches henv u head bs (s.receive env (u.message env b))
        (hsame.sessionKey.trans hkey)
      refine ⟨hsame.trans hsame', fun hashes h => ?_⟩
      have := hrecipe' _ (hrecipe hashes h)
      rwa [List.append_assoc, ← List.map_append] at this

theorem SessionOk.batches (henv : env.Lawful) (u : Upload) : ∀ (bs : List Batch) {s : Session}
    {F : Containers} {abs : Fp → Option Content}, SessionOk env s F abs →
    (∀ c ∈ bs.flatMap Batch.chunks, P c) →
    s.client.sessionKey = u.login.sessionKey →
    ((bs.map (u.message env)).foldl (Session.receive env) s).server.created ≤ 2 ^ 31 →
    ∃ F' abs', SessionOk env ((bs.map (u.message env)).foldl (Session.receive env) s) F' abs' ∧
      Progress env P s.server ((bs.map (u.message env)).foldl (Session.receive env) s).server abs
        abs' ∧
      ∀ c ∈ bs.flatMap Batch.chunks, (abs' (env.fp c.1)).isSome
  | [], s, F, abs, h, _, _, _ => ⟨F, abs, h, .refl env P s.server abs, fun c hc => by cases hc⟩
  | b :: bs, s, F, abs, h, hP, hkey, hcreated => by
      rw [List.flatMap_cons] at hP
      have hframe := (frame_batch henv s b.chunks b.stale []).1
      rw [← receive_message env u b hkey] at hframe
      have hkey' := hframe.sessionKey.trans hkey
      have hrest := (frame_batches henv u [] bs (s.receive env (u.message env b)) hkey').1.created
      have hbatch := h.batch henv b.chunks (fun c hc => hP c (List.mem_append_left _ hc)) b.stale
      rw [← receive_message env u b hkey] at hbatch
      obtain ⟨F₁, abs₁, h₁, hprogress₁, hknown₁⟩ := hbatch (le_trans hrest hcreated)
      obtain ⟨F', abs', h', hprogress, hknown⟩ := SessionOk.batches henv u bs h₁
        (fun c hc => hP c (List.mem_append_right _ hc)) hkey' hcreated
      refine ⟨F', abs', h', hprogress₁.trans hprogress, fun c hc => ?_⟩
      rw [List.flatMap_cons] at hc
      rcases List.mem_append.mp hc with hc | hc
      · exact hprogress.isSome (hknown₁ c hc)
      · exact hknown c hc

/-! ## The end of a session -/

namespace EcallFreqIndex

/-- One buffer is copied out. -/
theorem cur_copyOut {s : Session} {d : Dir} (hbody : (s.client.cur d).body = []) (d' : Dir) :
    (if (s.client.cur d).buf.length ≠ 0 then
        s.setCur d { s.client.cur d with body := (s.client.cur d).buf } else s).client.cur d' =
      if d' = d then { s.client.cur d with body := (s.client.cur d).buf } else s.client.cur d' := by
  by_cases hnil : (s.client.cur d).buf.length = 0
  · rw [if_neg (by simpa using hnil)]
    split
    · rename_i hd
      have hempty : (s.client.cur d).buf = [] := List.length_eq_zero_iff.mp hnil
      rw [hd, hempty, ← hbody]
    · rfl
  · rw [if_pos hnil]
    rfl

/-- `ProcessTailBatch` copies both buffers out. -/
theorem cur_processTailBatch (env : Env) {s : Session} (hbody : ∀ d, (s.client.cur d).body = [])
    (d : Dir) : (processTailBatch env s).client.cur d =
      { s.client.cur d with body := (s.client.cur d).buf } := by
  unfold processTailBatch
  dsimp only
  generalize hs' : (if s.client.inRecipe.length ≠ 0 then s.flushRecipe env else s) = s'
  have hcur : s'.client.cur = s.client.cur := by
    rw [← hs']
    split <;> rfl
  have hbase : (s'.client.cur .base).body = [] := by rw [hcur, hbody]
  have hdelta : ((if (s'.client.cur .base).buf.length ≠ 0 then s'.setCur .base
      { s'.client.cur .base with body := (s'.client.cur .base).buf } else s').client.cur
        .delta).body = [] := by
    rw [cur_copyOut hbase, if_neg (by simp), hcur, hbody]
  rw [cur_copyOut hdelta]
  cases d with
  | base => rw [if_neg (by simp), cur_copyOut hbase, if_pos rfl, hcur]
  | delta => rw [if_pos rfl, cur_copyOut hbase, if_neg (by simp), hcur]

theorem server_processTailBatch (env : Env) (s : Session) :
    (processTailBatch env s).server = s.server := by
  unfold processTailBatch
  dsimp only
  split <;> split <;> split <;> rfl

end EcallFreqIndex

/-- A finished recipe: full groups behind the head, and a last one for the
rest if there is one. -/
def FullRecipe (env : Env) (masterKey : Key) (head : Bytes) (hashes : List Fp) (recipe : Bytes) :
    Prop :=
  ∃ (gs : List (List Fp)) (last : List Fp),
    recipe = head ++ gs.flatMap (recipeGroup env masterKey) ++
      (if last = [] then [] else recipeGroup env masterKey last) ∧
    (∀ g ∈ gs, g.length = env.sendRecipeBatchSize) ∧ last.length < env.sendRecipeBatchSize ∧
    gs.flatten ++ last = hashes

/-- The tail of a session, and what the recipe is then. -/
theorem RecipeOk.recipeEnd {s : Session} {virtualEnd : BytesN 16} {hashes : List Fp}
    (h : RecipeOk env s.client virtualEnd.1 hashes) (head : BytesN 16) :
    FullRecipe env s.client.masterKey head.1 hashes
      (s.receive env (.recipeEnd head)).client.recipe := by
  obtain ⟨⟨gs, hrecipe, hfull, hall⟩, hrest⟩ := h
  have hlen : virtualEnd.1.length = head.1.length := virtualEnd.2.trans head.2.symm
  have htail : (s.receive env (.recipeEnd head)).client.recipe =
      writeAt (s.client.recipe ++ if s.client.inRecipe = [] then []
        else recipeGroup env s.client.masterKey s.client.inRecipe) 0 head.1 := by
    show writeAt (EcallFreqIndex.processTailBatch env s).client.recipe 0 head.1 = _
    congr 1
    have hsame : ∀ (s : Session) d c, (s.setCur d c).client.recipe = s.client.recipe :=
      fun _ _ _ => rfl
    have hflush : (if s.client.inRecipe.length ≠ 0 then s.flushRecipe env else s).client.recipe =
        s.client.recipe ++ if s.client.inRecipe = [] then []
          else recipeGroup env s.client.masterKey s.client.inRecipe := by
      by_cases hnil : s.client.inRecipe = []
      · simp [hnil]
      · rw [if_neg hnil, if_pos (by simpa using hnil)]
        rfl
    unfold EcallFreqIndex.processTailBatch
    dsimp only
    rw [← hflush]
    generalize (if s.client.inRecipe.length ≠ 0 then s.flushRecipe env else s) = t
    split <;> split <;> simp only [hsame]
  refine ⟨gs, s.client.inRecipe, ?_, hfull, hrest, hall⟩
  rw [htail, hrecipe, writeAt]
  simp [List.append_assoc, hlen]

/-! ## The server at rest -/

structure Rest (env : Env) (s : Server) (F : Containers) (abs : Fp → Option Content) : Prop where
  stock : Stock env F s.db.queryBuffer abs s.created
  view : s.view = viewOf F
  ledger : Ledger env s.db abs
  heap : HeapKnown env s abs

/-- The recipe files have nothing to do with it. -/
theorem Rest.withRecipes {s : Server} (h : Rest env s F abs) (recipes : UMap Fp Bytes) :
    Rest env { s with recipes := recipes } F abs := ⟨h.stock, h.view, h.ledger, h.heap⟩

theorem Rest.updateOnlineInfo {s : Server} (h : Rest env s F abs) :
    Rest env s.updateOnlineInfo F abs := ⟨h.stock, h.view, h.ledger, h.heap⟩

theorem Progress.withRecipes {s s' : Server} (h : Progress env P s s' abs abs')
    (recipes : UMap Fp Bytes) : Progress env P s { s' with recipes := recipes } abs abs' :=
  ⟨h.keeps, fun hc => ⟨(h.cache hc).valid, (h.cache hc).cached⟩, h.encodes, h.sound⟩

theorem Rest.boot (env : Env) (m : Residue) :
    Rest env (Server.boot env m) (fun _ => none) (fun _ => none) where
  stock := stock_boot env 0
  view := rfl
  ledger :=
    { contents := fun f c hc => by cases hc
      linked :=
        { base := by
            rintro f b ⟨c, hc, -⟩
            cases hc
          sf := fun i key f hf => by cases hf
          tracked := by
            rintro b (⟨i, key, hmem⟩ | ⟨b', hb'⟩ | ⟨b', hb'⟩)
            · cases hmem
            · cases hb'
            · cases hb'
          whole := by
            rintro b (⟨b', hb'⟩ | ⟨b', hb'⟩)
            · cases hb'
            · cases hb'
          keys := fun b hb => absurd rfl hb }
      log :=
        { keys := fun b v h => by cases h
          unlisted := by
            rintro v (⟨b', hb'⟩ | ⟨b', hb'⟩)
            · cases hb'
            · cases hb'
          inj := fun b b' v h => by cases h
          apart := fun b v b' h => by cases h }
      idle := ⟨rfl, fun _ => rfl, rfl, rfl⟩ }
  heap := fun h hh => by cases hh

/-- A session starts with two empty containers. -/
theorem Rest.start {s : Server} (h : Rest env s F abs) (l : Login) (hcreated : s.created + 2 ≤ 2 ^ 31) :
    ∃ F', SessionOk env (Session.start s l) F' abs := by
  obtain ⟨F', hF'⟩ := h.stock.start h.view l hcreated
  exact ⟨F', hF', h.ledger, h.heap⟩

theorem recipeOk_start (hB : 0 < env.sendRecipeBatchSize) (s : Server) (l : Login) :
    RecipeOk env (Session.start s l).client l.virtualRecipeEnd.1 [] :=
  ⟨⟨[], (List.append_nil _).symm, fun g hg => (by cases hg), rfl⟩, hB⟩

/-- What the end of a session does not touch. -/
structure Closed [ContainerNames] (s : Session) : Prop where
  db : s.close.server.db = s.server.db
  recipes : s.close.server.recipes = s.server.recipes
  heap : s.close.server.insideDedupIndex = s.server.insideDedupIndex
  cache : s.close.server.inContainercache = s.server.inContainercache
  encodes : s.close.server.encodes = s.server.encodes
  recipe : s.close.client.recipe = s.client.recipe
  recipePath : s.close.client.recipePath = s.client.recipePath

theorem Session.closed_close [ContainerNames] (s : Session) : Closed s := by
  constructor <;> unfold Session.close <;> dsimp only <;> split <;> split <;> rfl

/-- The end of a session whose buffers went out. -/
theorem SessionOk.close {s t : Session} (h : SessionOk env s F abs) (hserver : t.server = s.server)
    (hcur : ∀ d, t.client.cur d = { s.client.cur d with body := (s.client.cur d).buf }) :
    ∃ F', Rest env t.close.server F' abs ∧
      Progress env P s.server t.close.server abs abs := by
  have hshelved : Shelved t F := h.stocked.shelved.handedOver hserver hcur
  have hstock : Stock env F t.server.db.queryBuffer abs t.server.created := by
    rw [hserver]
    exact h.stocked.stock
  obtain ⟨F', hF', hview⟩ := hstock.close hshelved fun d => by rw [hcur]
  have hc := Session.closed_close t
  refine ⟨F', ⟨?_, hview, ?_, ?_⟩, ⟨fun _ _ hf => hf, fun hcache => ?_, ?_, fun _ _ hs => hs⟩⟩
  · rw [hc.db]
    exact hF'
  · rw [hc.db, hserver]
    exact h.ledger
  · intro k hk
    rw [hc.heap, hserver] at hk
    exact h.heap k hk
  · refine hcache.mono ?_ fun n file hfile => ?_
    · rw [hc.cache, hserver]
    · have hopen : n ≠ (t.client.cur .base).containerID := by
        rintro rfl
        have hnone := hshelved.closed .base
        rw [hserver, hfile] at hnone
        cases hnone
      rw [view_close, if_neg (fun hn => hopen hn.1), hserver, hfile]
  · intro _ call hcall
    rw [hc.encodes, hserver] at hcall
    exact Or.inl hcall

/-- What a session comes to before it ends. -/
def Upload.filled (env : Env) (s : Server) (u : Upload) : Session :=
  (u.batches.map (u.message env)).foldl (Session.receive env) (Session.start s u.login)

theorem created_filled (henv : env.Lawful) (s : Server) (u : Upload) :
    s.created + 2 ≤ (u.filled env s).server.created :=
  (frame_batches henv u [] u.batches (Session.start s u.login) rfl).1.created

/-- What a complete session comes to. -/
def Upload.finished (env : Env) (s : Server) (u : Upload) : Session :=
  ((u.filled env s).receive env (.recipeEnd u.head)).close

theorem receiveUpload_false (env : Env) (s : Server) (u : Upload) :
    s.receiveUpload env u false = { (u.filled env s).close.server with
      recipes := (u.filled env s).close.server.recipes.insert (u.filled env s).close.client.recipePath
        (u.filled env s).close.client.recipe } := by
  have hfold : (u.messages env false).foldl (Session.receive env) (Session.start s u.login) =
      u.filled env s := by
    rw [Upload.messages, if_neg (by simp), List.append_nil]
    rfl
  unfold Server.receiveUpload dataReceiverRun
  rw [hfold]

theorem receiveUpload_true (env : Env) (s : Server) (u : Upload) :
    s.receiveUpload env u true = { (u.finished env s).server with
      recipes := (u.finished env s).server.recipes.insert (u.finished env s).client.recipePath
        (u.finished env s).client.recipe } := by
  have hfold : (u.messages env true).foldl (Session.receive env) (Session.start s u.login) =
      (u.filled env s).receive env (.recipeEnd u.head) := by
    rw [Upload.messages, if_pos rfl, List.foldl_append, List.foldl_cons, List.foldl_nil]
    rfl
  unfold Server.receiveUpload dataReceiverRun Upload.finished
  rw [hfold]

theorem server_recipeEnd [ContainerNames] (env : Env) (s : Session) (head : BytesN 16) :
    (s.receive env (.recipeEnd head)).server = s.server :=
  EcallFreqIndex.server_processTailBatch env s

theorem cur_recipeEnd [ContainerNames] (env : Env) {s : Session} (head : BytesN 16)
    (hbody : ∀ d, (s.client.cur d).body = []) (d : Dir) :
    (s.receive env (.recipeEnd head)).client.cur d =
      { s.client.cur d with body := (s.client.cur d).buf } :=
  EcallFreqIndex.cur_processTailBatch env hbody d

theorem created_recipeEnd (env : Env) (s : Server) (u : Upload) :
    (u.filled env s).server.created ≤ (s.receiveUpload env u true).created := by
  have hcreated : (s.receiveUpload env u true).created = (u.finished env s).server.created := by
    rw [receiveUpload_true]
  rw [hcreated, Upload.finished, ← server_recipeEnd env (u.filled env s) u.head]
  exact created_close _

theorem created_upload (henv : env.Lawful) (s : Server) (u : Upload) :
    s.created ≤ (s.receiveUpload env u true).created :=
  le_trans (by have := created_filled henv s u; omega) (created_recipeEnd env s u)

/-- The state in which a session ends. -/
theorem Rest.filled (henv : env.Lawful) {s : Server} (h : Rest env s F abs) (u : Upload)
    (hP : ∀ c ∈ u.chunks, P c) (hcreated : (u.filled env s).server.created ≤ 2 ^ 31) :
    ∃ F' abs', SessionOk env (u.filled env s) F' abs' ∧
      Progress env P s (u.filled env s).server abs abs' ∧
      ∀ c ∈ u.chunks, (abs' (env.fp c.1)).isSome := by
  obtain ⟨F₀, h₀⟩ := h.start u.login (le_trans (created_filled henv s u) hcreated)
  unfold Upload.filled at hcreated ⊢
  obtain ⟨F', abs', h', hprogress, hknown⟩ := h₀.batches henv u u.batches hP rfl hcreated
  have hstart : Progress env P s (Session.start s u.login).server abs abs :=
    ⟨fun _ _ hf => hf, fun hc => ⟨hc.valid, hc.cached⟩, fun _ _ hcall => Or.inl hcall,
      fun _ _ hs => hs⟩
  exact ⟨F', abs', h', hstart.trans hprogress, hknown⟩

/-- **A complete upload** keeps the invariants of the server, stores the
chunks of the file, and takes nothing away. -/
theorem Rest.upload (henv : env.Lawful) {s : Server} (h : Rest env s F abs) (u : Upload)
    (hP : ∀ c ∈ u.chunks, P c) (hcreated : (s.receiveUpload env u true).created ≤ 2 ^ 31) :
    ∃ F' abs', Rest env (s.receiveUpload env u true) F' abs' ∧
      Progress env P s (s.receiveUpload env u true) abs abs' ∧
      ∀ c ∈ u.chunks, (abs' (env.fp c.1)).isSome := by
  obtain ⟨F₁, abs₁, h₁, hprogress, hknown⟩ :=
    h.filled henv u hP (le_trans (created_recipeEnd env s u) hcreated)
  obtain ⟨F', hrest, hprogress'⟩ := h₁.close
    (server_recipeEnd env (u.filled env s) u.head) (cur_recipeEnd env u.head h₁.stocked.body)
  rw [receiveUpload_true, Upload.finished]
  exact ⟨F', abs₁, hrest.withRecipes _, (hprogress.trans hprogress').withRecipes _, hknown⟩

/-- The recipe that a complete upload leaves. -/
theorem recipes_upload (henv : env.Lawful) (hB : 0 < env.sendRecipeBatchSize) (s : Server)
    (u : Upload) : ∃ recipe, (s.receiveUpload env u true).recipes =
        s.recipes.insert u.login.recipePath recipe ∧
      FullRecipe env u.login.masterKey u.head.1 (u.chunks.map fun c => env.generateHash c.1)
        recipe := by
  obtain ⟨hsame, hrecipe⟩ := frame_batches henv u u.login.virtualRecipeEnd.1 u.batches
    (Session.start s u.login) rfl
  have hfull := (hrecipe [] (recipeOk_start hB s u.login)).recipeEnd u.head
  rw [hsame.masterKey] at hfull
  have hc := Session.closed_close ((u.filled env s).receive env (.recipeEnd u.head))
  have hpath : ((u.filled env s).receive env (.recipeEnd u.head)).client.recipePath =
      (u.filled env s).client.recipePath := by
    show (EcallFreqIndex.processTailBatch env (u.filled env s)).client.recipePath = _
    unfold EcallFreqIndex.processTailBatch
    dsimp only
    split <;> split <;> split <;> rfl
  refine ⟨_, ?_, hfull⟩
  rw [receiveUpload_true]
  show AList.insert _ _ _ = _
  rw [Upload.finished, hc.recipes, hc.recipePath, hc.recipe, server_recipeEnd, hpath]
  exact congrArg₂ (fun m p => AList.insert p _ m) hsame.recipes hsame.recipePath

end ShieldReduce
