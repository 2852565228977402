import ShieldReduce.Guarantee.RecipeFile
import ShieldReduce.Invariant.Restoring

/-!
# Restores give back what was uploaded

After any complete uploads, restoring a file sends exactly its chunks, in
order: the recipe lists their fingerprints, every fingerprint leads to a
chunk of the run that it is the fingerprint of, and there is only one.
-/

namespace ShieldReduce

open ByteLib UMapLib CatalogLib

variable {env : Env} {F : Containers} {abs : Fp → Option Content} {P : Chunk → Prop}

theorem cacheOk_boot (env : Env) (m : Residue) : EcallFreqIndex.CacheOk (Server.boot env m) where
  valid := InContainercache.valid_empty m.containerPool
  cached := by
    rintro n data ⟨k, hk, -⟩
    cases hk

/-- What complete uploads keep, as long as no offline pass comes between. -/
structure Uploaded (env : Env) (P : Chunk → Prop) (s : Server) (F : Containers)
    (abs : Fp → Option Content) : Prop where
  rest : Rest env s F abs
  cache : EcallFreqIndex.CacheOk s
  sound : Sound env P abs

theorem Uploaded.boot (env : Env) (P : Chunk → Prop) (m : Residue) :
    Uploaded env P (Server.boot env m) (fun _ => none) (fun _ => none) :=
  ⟨.boot env m, cacheOk_boot env m, fun f c hc => by cases hc⟩

theorem Uploaded.updateOnlineInfo {s : Server} (h : Uploaded env P s F abs) :
    Uploaded env P s.updateOnlineInfo F abs :=
  ⟨h.rest.updateOnlineInfo, ⟨h.cache.valid, h.cache.cached⟩, h.sound⟩

theorem Uploaded.upload (henv : env.Lawful) (hraw : env.Lz4Raw) {s : Server}
    (h : Uploaded env P s F abs) (u : Upload) (hP : ∀ c ∈ u.chunks, P c)
    (hcreated : (s.serve env (.upload u)).created ≤ 2 ^ 31) :
    ∃ F' abs', Uploaded env P (s.serve env (.upload u)) F' abs' ∧
      (∀ f, (abs f).isSome → (abs' f).isSome) ∧ ∀ c ∈ u.chunks, (abs' (env.fp c.1)).isSome := by
  obtain ⟨F', abs', hrest, hprogress, hknown⟩ := h.rest.upload henv u hP hcreated
  have hnext : Uploaded env P (s.receiveUpload env u true) F' abs' :=
    ⟨hrest, hprogress.cache h.cache, hprogress.sound h.cache hraw h.sound⟩
  exact ⟨F', abs', hnext.updateOnlineInfo, fun f => hprogress.isSome, hknown⟩

theorem created_run_uploads (henv : env.Lawful) : ∀ (us : List Upload) (s : Server),
    s.created ≤ (s.run env (us.map .upload)).created
  | [], _ => le_refl _
  | u :: us, s => le_trans (created_upload henv s u)
      (created_run_uploads henv us (s.serve env (.upload u)))

theorem Uploaded.run (henv : env.Lawful) (hraw : env.Lz4Raw) : ∀ (us : List Upload) {s : Server}
    {F : Containers} {abs : Fp → Option Content}, Uploaded env P s F abs →
    (∀ c ∈ us.flatMap Upload.chunks, P c) → (s.run env (us.map .upload)).created ≤ 2 ^ 31 →
    ∃ F' abs', Uploaded env P (s.run env (us.map .upload)) F' abs' ∧
      ∀ f, (abs f).isSome → (abs' f).isSome
  | [], s, F, abs, h, _, _ => ⟨F, abs, h, fun _ hf => hf⟩
  | u :: us, s, F, abs, h, hP, hcreated => by
      rw [List.flatMap_cons] at hP
      obtain ⟨F₁, abs₁, h₁, hkeep, -⟩ := h.upload henv hraw u
        (fun c hc => hP c (List.mem_append_left _ hc))
        (le_trans (created_run_uploads henv us (s.serve env (.upload u))) hcreated)
      obtain ⟨F', abs', h', hkeep'⟩ := Uploaded.run henv hraw us h₁
        (fun c hc => hP c (List.mem_append_right _ hc)) hcreated
      exact ⟨F', abs', h', fun f hf => hkeep' f (hkeep f hf)⟩

/-- Uploads of other files leave a recipe alone. -/
theorem lookup_recipes_run (henv : env.Lawful) (hB : 0 < env.sendRecipeBatchSize) {path : Fp} :
    ∀ (us : List Upload) (s : Server), (∀ u ∈ us, u.login.recipePath ≠ path) →
      (s.run env (us.map .upload)).recipes.lookup path = s.recipes.lookup path
  | [], _, _ => rfl
  | u :: us, s, hpath => by
      obtain ⟨recipe, hrecipes, -⟩ := recipes_upload henv hB s u
      have hstep : (s.serve env (.upload u)).recipes.lookup path = s.recipes.lookup path := by
        show (s.receiveUpload env u true).recipes.lookup path = _
        rw [hrecipes, lookup_eq_if, if_neg (Ne.symm (hpath u (by simp)))]
      have hrest := lookup_recipes_run henv hB us (s.serve env (.upload u))
        fun u' hu' => hpath u' (by simp [hu'])
      exact hrest.trans hstep

/-! ## Restoring from it -/

/-- What is known is present. -/
theorem Rest.present (henv : env.Lawful) {s : Server} (h : Rest env s F abs) {f : Fp} {c : Content}
    (hc : abs f = some c) : Restore.Present env s f ∧ ∃ v, s.db.queryBuffer f = some v ∧
      (env.decEntry v).deltaFlag = c.deltaFlag ∧ (env.decEntry v).basechunkHash = c.basechunkHash := by
  obtain ⟨d, n, t, ht, -, hidx, rfl⟩ := h.stock.rep.found hc
  have hplaced := h.stock.rep.placed ht
  obtain ⟨rs, hrs, hmem⟩ := ht
  have hentry := henv.decEntry_encEntry t.entry
  have hfound := (h.stock.rep.holds hrs).found hmem (List.prefix_refl _)
  refine ⟨⟨env.encEntry t.entry, records.flat rs, hidx, ?_, ?_⟩, _, hidx, ?_, ?_⟩
  all_goals rw [hentry]
  · rw [hplaced.1, h.view, h.stock.rep.file hrs]
  · exact Restore.inside_of_found hfound hplaced
  · rfl
  · rfl

/-- What is known can be read. -/
theorem Rest.readable (henv : env.Lawful) {s : Server} (h : Rest env s F abs) {f : Fp}
    (hf : (abs f).isSome) : Restore.Readable env s f := by
  obtain ⟨c, hc⟩ := Option.isSome_iff_exists.mp hf
  obtain ⟨hself, v, hv, hflag, hbase⟩ := h.present henv hc
  refine ⟨hself, fun b hb => ?_⟩
  simp only [Restore.baseOf?, hv] at hb
  split at hb
  · rename_i hdelta
    obtain ⟨cb, hcb, -⟩ := h.ledger.linked.base f b
      ⟨c, hc, hflag ▸ hdelta, hbase ▸ Option.some.inj hb⟩
    exact (h.present henv hcb).1
  · cases hb

/-- The chunks of known fingerprints. -/
theorem Uploaded.chunksOf (henv : env.Lawful) {s : Server} (h : Uploaded env P s F abs) {fs : List Fp}
    {ps : List Bytes} (hplain : Restore.PlainOf env s fs ps) (hknown : ∀ f ∈ fs, (abs f).isSome) :
    ∃ cs : List Chunk, ps = cs.map Subtype.val ∧
      List.Forall₂ (fun f c => P c ∧ env.fp c.1 = f) fs cs := by
  induction hplain with
  | nil => exact ⟨[], rfl, .nil⟩
  | @cons f p fs ps hp _ ih =>
      obtain ⟨cs, rfl, hcs⟩ := ih fun f hf => hknown f (by simp [hf])
      obtain ⟨c, hc⟩ := Option.isSome_iff_exists.mp (hknown f (by simp))
      obtain ⟨chunk, hP, hfp, hchunk⟩ := h.sound f c hc
      rw [Server.plaintext, h.rest.view, h.rest.stock.rep.plaintext_eq henv, hchunk] at hp
      exact ⟨chunk :: cs, by rw [← Option.some.inj hp]; rfl, .cons ⟨hP, hfp⟩ hcs⟩

/-- The chunks in messages. -/
theorem restoredChunks_messages (hdec : ∀ k x, env.sessionKeyDec k (env.sessionKeyEnc k x) = x)
    (sessionKey : Key) {msgs : List RestoreMessage} :
    ∀ (gs : List (List Bytes)) {cs : List Chunk},
      List.Forall₂ (fun m g => ∃ final, m = Restore.message env sessionKey final g) msgs gs →
      gs.flatten = cs.map Subtype.val →
      restoredChunks env sessionKey msgs = cs.map Subtype.val := by
  induction msgs with
  | nil =>
      intro gs cs hm hall
      cases hm
      exact hall
  | cons m msgs ih =>
      intro gs cs hm hall
      cases hm with
      | @cons _ g _ gs hm hms =>
          obtain ⟨final, rfl⟩ := hm
          rw [List.flatten_cons] at hall
          obtain ⟨as, bs, rfl, rfl, hbs⟩ := List.map_eq_append_iff.mp hall.symm
          have hparse := (parseChunks_frame as []).1
          rw [List.nil_append, List.length_nil] at hparse
          have hrest := ih gs hms hbs.symm
          unfold restoredChunks at hrest ⊢
          rw [List.flatMap_cons, hrest, Restore.message, List.map_append]
          simp only [hdec, List.length_map, hparse]

/-- Different chunks of the run have different fingerprints. -/
theorem eq_of_chunksOf (henv : env.Lawful) {all : List Chunk}
    (hhash : ∀ c ∈ all, ∀ c' ∈ all, env.generateHash c.1 = env.generateHash c'.1 → c = c') :
    ∀ {us cs : List Chunk}, (∀ c ∈ us, c ∈ all) →
      List.Forall₂ (fun f (c : Chunk) => c ∈ all ∧ env.fp c.1 = f) (us.map fun c => env.fp c.1) cs →
      cs = us
  | [], _, _, h => by
      cases h
      rfl
  | u :: us, _, hus, h => by
      cases h with
      | @cons _ c _ cs hc hcs =>
          have hcu : c = u := hhash c hc.1 u (hus u (by simp)) (henv.cmc_injective hc.2)
          rw [hcu, eq_of_chunksOf henv hhash (fun c hc => hus c (by simp [hc])) hcs]

/-- A restore of a finished recipe whose fingerprints are stored. -/
theorem Uploaded.restore (henv : env.Lawful) {s : Server} (h : Uploaded env P s F abs)
    {l : RestoreLogin} (hl : Restore.Evicts l) {head : BytesN 16} {hashes : List Fp} {recipe : Bytes}
    (hfull : FullRecipe env l.masterKey head.1 hashes recipe)
    (hrecipe : s.recipes.lookup l.recipePath = some recipe)
    (hknown : ∀ f ∈ hashes, (abs (env.indexAESCMCEnc f)).isSome) :
    ∃ msgs cs, enclaveRecvDecoderRun env s l = some msgs ∧
      List.Forall₂ (fun f (c : Chunk) => P c ∧ env.fp c.1 = f) (hashes.map env.indexAESCMCEnc) cs ∧
      restoredChunks env l.sessionKey msgs = cs.map Subtype.val := by
  obtain ⟨groups, hall, hread⟩ := hfull.recipeBuffers henv
  have hkeys : (recipeBuffers env recipe).flatMap (Restore.recipeKeys env l) =
      hashes.map env.indexAESCMCEnc := by
    rw [hread, ← hall, ← flatMap_recipeFps henv l.masterKey groups, List.map_flatMap]
    rfl
  have hknown' : ∀ f ∈ hashes.map env.indexAESCMCEnc, (abs f).isSome := by
    intro f hf
    obtain ⟨f', hf', rfl⟩ := List.mem_map.mp hf
    exact hknown f' hf'
  obtain ⟨r, hbatches, hr⟩ := (Restore.restoreOk_start env s l).procRecipeBatches hl
    (recipeBuffers env recipe) fun buf hbuf f hf => h.rest.readable henv (hknown' f (by
      rw [← hkeys]
      exact List.mem_flatMap.mpr ⟨buf, hbuf, hf⟩))
  rw [List.nil_append, hkeys] at hr
  obtain ⟨r', ps, htail, hps, gs, last, hsent, hflat, -⟩ := hr.procRecipeTailBatch hl
  obtain ⟨cs, rfl, hcs⟩ := h.chunksOf henv hps hknown'
  refine ⟨r'.sent, cs, ?_, hcs, ?_⟩
  · rw [recipeBuffers, ← Restore.readRecipe_eq] at hbatches
    simp only [enclaveRecvDecoderRun, hrecipe, Option.bind_eq_bind, Option.bind_some, hbatches, htail]
    rfl
  · refine restoredChunks_messages henv.sessionKey l.sessionKey (gs ++ [last]) ?_ (by simpa using hflat)
    rw [hsent]
    refine List.rel_append (List.forall₂_map_left_iff.mpr ?_) (.cons ⟨true, rfl⟩ .nil)
    exact List.forall₂_same.mpr fun g _ => ⟨false, rfl⟩

/-- **Upload and restore.** Whatever files are uploaded, in whatever chunks
and batches, restoring one of them sends exactly its chunks, in order. -/
theorem restore_uploads (henv : env.Lawful) (hraw : env.Lz4Raw) (hB : 1 ≤ env.sendRecipeBatchSize)
    (m : Residue) (before : List Upload) (u : Upload) (after : List Upload)
    (hhash : ∀ c ∈ (before ++ u :: after).flatMap Upload.chunks,
      ∀ c' ∈ (before ++ u :: after).flatMap Upload.chunks,
        env.generateHash c.1 = env.generateHash c'.1 → c = c')
    (hpath : ∀ u' ∈ after, u'.login.recipePath ≠ u.login.recipePath)
    (hcounts : ((Server.boot env m).run env ((before ++ u :: after).map .upload)).Counts)
    (l : RestoreLogin) (hl : Restore.Evicts l) (hfile : l.recipePath = u.login.recipePath)
    (hkey : l.masterKey = u.login.masterKey) :
    ∃ msgs, enclaveRecvDecoderRun env
        ((Server.boot env m).run env ((before ++ u :: after).map .upload)) l = some msgs ∧
      restoredChunks env l.sessionKey msgs = u.chunks.map Subtype.val := by
  generalize hall : (before ++ u :: after).flatMap Upload.chunks = all at hhash
  have hmem : ∀ us : List Upload, us ⊆ before ++ u :: after →
      ∀ c ∈ us.flatMap Upload.chunks, c ∈ all := by
    intro us hus c hc
    rw [← hall]
    obtain ⟨u', hu', hc⟩ := List.mem_flatMap.mp hc
    exact List.mem_flatMap.mpr ⟨u', hus hu', hc⟩
  have hsplit : (Server.boot env m).run env ((before ++ u :: after).map .upload) =
      ((((Server.boot env m).run env (before.map .upload)).serve env (.upload u)).run env
        (after.map .upload)) := by
    rw [List.map_append, Server.run, List.foldl_append]
    rfl
  unfold Server.Counts at hcounts
  rw [hsplit] at hcounts ⊢
  have hafter := created_run_uploads henv after
    (((Server.boot env m).run env (before.map .upload)).serve env (.upload u))
  have hbefore : _ ≤ (((Server.boot env m).run env (before.map .upload)).serve env
      (.upload u)).created := created_upload henv _ u
  have hchunks : ∀ c ∈ u.chunks, c ∈ all :=
    fun c hc => hmem [u] (by simp) c (by simpa using hc)
  obtain ⟨F₀, abs₀, h₀, -⟩ := (Uploaded.boot env (· ∈ all) m).run henv hraw before
    (hmem before (by simp)) (by omega)
  obtain ⟨F₁, abs₁, h₁, -, hknown⟩ := h₀.upload henv hraw u hchunks (by omega)
  obtain ⟨F₂, abs₂, h₂, hkeep⟩ := h₁.run henv hraw after (hmem after (by simp)) hcounts
  obtain ⟨recipe, hrecipes, hfull⟩ := recipes_upload henv hB
    ((Server.boot env m).run env (before.map .upload)) u
  rw [← hkey] at hfull
  have hlookup : ((((Server.boot env m).run env (before.map .upload)).serve env (.upload u)).run env
      (after.map .upload)).recipes.lookup l.recipePath = some recipe := by
    rw [hfile, lookup_recipes_run henv hB after _ hpath]
    show (((Server.boot env m).run env (before.map .upload)).receiveUpload env u
      true).recipes.lookup u.login.recipePath = some recipe
    rw [hrecipes, lookup_eq_if, if_pos rfl]
  obtain ⟨msgs, cs, hrun, hcs, hsent⟩ := h₂.restore henv hl hfull hlookup (by
    intro f hf
    obtain ⟨c, hc, rfl⟩ := List.mem_map.mp hf
    exact hkeep _ (hknown c hc))
  rw [List.map_map] at hcs
  exact ⟨msgs, hrun, by rw [hsent, eq_of_chunksOf henv hhash hchunks hcs]⟩

/-- Twenty-four times the byte 1, and one more byte. -/
def onesChunk (n : UInt8) : Chunk := ⟨List.replicate 24 1 ++ [n], by simp [MAX_CHUNK_SIZE]⟩

/-- A chunk that is similar to the one of `baseUpload`, and that one again. -/
def deltaUpload : Upload where
  login := ⟨BytesN.ofBytes 32 [1], BytesN.ofBytes 32 [2], BytesN.ofBytes 32 [3],
    BytesN.ofBytes 16 [], BytesN.ofBytes 16 []⟩
  batches := [⟨[onesChunk 1, onesChunk 0], fun _ => RecipeEntry.ofBytes []⟩]
  head := BytesN.ofBytes 16 [9]

def baseUpload : Upload where
  login := ⟨BytesN.ofBytes 32 [0], BytesN.ofBytes 32 [2], BytesN.ofBytes 32 [3],
    BytesN.ofBytes 16 [], BytesN.ofBytes 16 []⟩
  batches := [⟨[onesChunk 0], fun _ => RecipeEntry.ofBytes []⟩]
  head := BytesN.ofBytes 16 [9]

/-- One of the restored chunks is stored as a delta. -/
theorem restore_deltaUpload :
    (((Server.boot inlineEnv ⟨[], fun _ => []⟩).run inlineEnv
      (([baseUpload] ++ [deltaUpload]).map .upload)).db.deltaIndex.lookup
        (BytesN.ofBytes 32 (onesChunk 0).1)).isSome = true ∧
    ∃ msgs, enclaveRecvDecoderRun inlineEnv ((Server.boot inlineEnv ⟨[], fun _ => []⟩).run inlineEnv
      (([baseUpload] ++ [deltaUpload]).map .upload))
      ⟨BytesN.ofBytes 32 [1], BytesN.ofBytes 32 [4], BytesN.ofBytes 32 [3], id, fun _ => [],
        fun _ => zeroCipher⟩ = some msgs ∧
      restoredChunks inlineEnv (BytesN.ofBytes 32 [4]) msgs = [(onesChunk 1).1, (onesChunk 0).1] :=
  ⟨by decide +kernel, restore_uploads lawful_inline lz4Strict_inline.raw (by decide) ⟨[], fun _ => []⟩
    [baseUpload] deltaUpload [] (by decide +kernel) (fun u hu => by cases hu)
    (by unfold Server.Counts; decide +kernel)
    ⟨BytesN.ofBytes 32 [1], BytesN.ofBytes 32 [4], BytesN.ofBytes 32 [3], id, fun _ => [],
      fun _ => zeroCipher⟩ (fun _ _ _ h => h) rfl rfl⟩

end ShieldReduce
