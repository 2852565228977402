import ShieldReduce.Invariant.Restoring

/-!
# Restores send the recipe in order

On any server, for any recipe whose fingerprints lead to records and any
split of it into calls: the messages carry the chunks of the recipe in
its order, none of them more than a batch, and the last one and no other
is final. Whenever chunks are written out, the bases that were looked up
are those of the delta chunks among them, one by one (`Aligned`).
-/

namespace ShieldReduce

open ByteLib UMapLib

namespace Restore

variable {env : Env} {s : Server} {l : RestoreLogin}

/-- The `k`-th base belongs to the `k`-th delta chunk, and its slot to its
container. -/
def Aligned (env : Env) (s : Server) (r : Restore) : Prop :=
  List.Forall₂ (fun e b => Located env s r.idBuffer b e.chunkAddr.basechunkHash)
    (r.enclaveRecipeBuffer.filter fun e => e.chunkAddr.deltaFlag = DELTA) r.baseRecipeBuffer

theorem forall₂_bases {ids : List ContainerName} {es : List EnclaveRecipeEntry} {fs : List Fp}
    (h : List.Forall₂ (Located env s ids) es fs) : ∀ {bs : List EnclaveRecipeEntry},
    List.Forall₂ (Located env s ids) bs (fs.filterMap (baseOf? env s)) →
    List.Forall₂ (fun e b => Located env s ids b e.chunkAddr.basechunkHash)
      (es.filter fun e => e.chunkAddr.deltaFlag = DELTA) bs := by
  induction h with
  | nil =>
      intro bs hb
      cases hb
      exact .nil
  | @cons e f es fs he _ ih =>
      intro bs hb
      obtain ⟨⟨v, hv, haddr⟩, -⟩ := he
      by_cases hdelta : e.chunkAddr.deltaFlag = DELTA
      · have hbase : baseOf? env s f = some e.chunkAddr.basechunkHash := by
          simp only [baseOf?, hv, ← haddr, if_pos hdelta]
        rw [List.filterMap_cons, hbase] at hb
        rw [List.filter_cons, if_pos (by simpa using hdelta)]
        cases hb with
        | cons hb hbs => exact .cons hb (ih hbs)
      · have hbase : baseOf? env s f = none := by
          simp only [baseOf?, hv, ← haddr, if_neg hdelta]
        rw [List.filterMap_cons, hbase] at hb
        rw [List.filter_cons, if_neg (by simpa using hdelta)]
        exact ih hb

/-- What is collected is aligned once the pending bases are looked up. -/
theorem Collected.aligned {r : Restore} {fs : List Fp} (hread : ∀ f ∈ fs, Readable env s f)
    (hc : Collected env s r fs (fs.filterMap (baseOf? env s))) : Aligned env s (r.lookUp env s) := by
  obtain ⟨hc₁, hquery, -⟩ := hc.lookUp (present_filterMap hread)
  obtain ⟨done, hdone, hall⟩ := hc₁.bases
  rw [hquery, List.append_nil] at hall
  subst hall
  exact forall₂_bases hc₁.entries hdone

/-- The values of fingerprints that lead to records. -/
def ReadableValue (env : Env) (s : Server) (v : Cipher) : Prop :=
  ∃ f, s.db.queryBuffer f = some v ∧ Readable env s f

theorem readableValue_of_mem : ∀ (fs : List Fp) (value : Cipher), (∀ f ∈ fs, Readable env s f) →
    ∀ v ∈ readIndexStoreBatch s value fs, ReadableValue env s v
  | [], _, _, _, hv => by cases hv
  | f :: fs, value, hread, v, hv => by
      have hf := hread f (by simp)
      obtain ⟨v₀, -, hv₀, -⟩ := id hf.self
      rw [readIndexStoreBatch, hv₀, Option.getD_some] at hv
      rcases List.mem_cons.mp hv with rfl | hv
      · exact ⟨f, hv₀, hf⟩
      · exact readableValue_of_mem fs v₀ (fun g hg => hread g (by simp [hg])) v hv

/-- Every flush finds its bases aligned. -/
theorem aligned_flushes (hl : Evicts l) {bufs : List Bytes}
    (hread : ∀ buf ∈ bufs, ∀ f ∈ recipeKeys env l buf, Readable env s f) :
    ∀ t ∈ flushes env s l bufs, Aligned env s t := by
  have hmap : ∀ r, (∃ all, RestoreOk env s l r all) →
      ∃ all, RestoreOk env s l { r with tmpContainerMap := ∅ } all :=
    fun r ⟨all, hr⟩ => ⟨all, hr.clearMap⟩
  have hstep : ∀ r value r', ReadableValue env s value → (∃ all, RestoreOk env s l r all) →
      r.procEntry env s l value = some r' → ∃ all, RestoreOk env s l r' all := by
    rintro r value r' ⟨f, hv, hf⟩ ⟨all, hr⟩ hnext
    obtain ⟨r₁, h₁, hr₁⟩ := hr.procEntry hl hf hv
    rw [h₁] at hnext
    exact ⟨_, Option.some.inj hnext ▸ hr₁⟩
  have hvalues := fun buf hbuf => readableValue_of_mem (recipeKeys env l buf) zeroCipher
    (hread buf hbuf)
  intro t ht
  rcases List.mem_append.mp ht with ht | ht
  · obtain ⟨⟨r, v⟩, hp, hflush⟩ := List.mem_filterMap.mp ht
    obtain ⟨⟨all, done, out, fs, -, -, hfs, hc, -⟩, f, hv, hf⟩ :=
      invariant_batchSteps hmap hstep bufs (start l) hvalues ⟨[], restoreOk_start env s l⟩ _ hp
    simp only at hflush
    split at hflush
    · obtain rfl := Option.some.inj hflush
      refine (hc.addEntry hfs hf.self hv).1.aligned fun g hg => ?_
      rcases List.mem_append.mp hg with hg | hg
      · exact hfs g hg
      · rw [List.mem_singleton.mp hg]
        exact hf
    · cases hflush
  · obtain ⟨r, hr, rfl⟩ := List.mem_map.mp ht
    obtain ⟨all, done, out, fs, -, -, hfs, hc, -⟩ := invariant_tailState hmap hstep hvalues
      ⟨[], restoreOk_start env s l⟩ (Option.mem_toList.mp hr)
    exact hc.aligned hfs

/-- **Restore order.** The messages of a restore, whatever the calls it comes
in. -/
theorem restore_in_order (env : Env) (s : Server) (l : RestoreLogin) (hl : Evicts l)
    (bufs : List Bytes) (hread : ∀ buf ∈ bufs, ∀ f ∈ recipeKeys env l buf, Readable env s f) :
    ∃ (r : Restore) (groups : List (List Bytes)) (last : List Bytes),
      ((start l).procRecipeBatches env s l bufs).bind (procRecipeTailBatch env s l) = some r ∧
      r.sent = groups.map (message env l.sessionKey false) ++ [message env l.sessionKey true last] ∧
      PlainOf env s (bufs.flatMap (recipeKeys env l)) (groups.flatten ++ last) ∧
      (1 ≤ env.sendChunkBatchSize → ∀ m ∈ r.sent, m.currentItemNum ≤ env.sendChunkBatchSize) ∧
      ∀ t ∈ flushes env s l bufs, Aligned env s t := by
  obtain ⟨r, hbatches, hr⟩ := (restoreOk_start env s l).procRecipeBatches hl bufs hread
  obtain ⟨r', ps, htail, hps, groups, last, hsent, hall, hfit⟩ := hr.procRecipeTailBatch hl
  refine ⟨r', groups, last, ?_, hsent, ?_, fun hn m hm => ?_, aligned_flushes hl hread⟩
  · rw [hbatches]
    exact htail
  · rw [hall]
    exact hps
  · rw [hsent] at hm
    rcases List.mem_append.mp hm with hm | hm
    · obtain ⟨g, hg, rfl⟩ := List.mem_map.mp hm
      exact hfit hn g (List.mem_append_left _ hg)
    · rw [List.mem_singleton.mp hm]
      exact hfit hn last (List.mem_append_right _ (List.mem_singleton.mpr rfl))

/-- A base chunk of 25 bytes and a delta of it, which copies 24 of them, in a container
each. -/
def baseAndDelta : Server :=
  let base : RecipeEntry := ⟨BytesN.ofBytes 7 [49], NO_DELTA, 0, 25, BytesN.ofBytes 32 [],
    BytesN.ofBytes 96 []⟩
  let delta : RecipeEntry := ⟨BytesN.ofBytes 7 [50], DELTA, 0, 13, BytesN.ofBytes 32 [1],
    BytesN.ofBytes 96 []⟩
  let file := fun (e : RecipeEntry) (payload : Bytes) =>
    (⟨e, BytesN.ofBytes 32 [], BytesN.ofBytes 96 [], payload, BytesN.ofBytes 16 []⟩ : Record).toBytes
  let s := { Server.boot .plain ⟨[], fun _ => []⟩ with
    db := (InMemoryDatabase.empty.insertBothBuffer (BytesN.ofBytes 32 [1])
      (Env.plain.encEntry base)).insertBothBuffer (BytesN.ofBytes 32 [2]) (Env.plain.encEntry delta) }
  (s.saveToFile .base base.containerName (file base (List.replicate 24 7 ++ [8]))).saveToFile .delta
    delta.containerName (file delta (Edelta.unitsBytes [.copy 0 24, .lit [9]]))

theorem readable_baseAndDelta : Readable .plain baseAndDelta (BytesN.ofBytes 32 [1]) ∧
    Readable .plain baseAndDelta (BytesN.ofBytes 32 [2]) := by
  have hbase : Present .plain baseAndDelta (BytesN.ofBytes 32 [1]) :=
    ⟨_, _, rfl, rfl, by unfold Inside; decide +kernel⟩
  have hdelta : Present .plain baseAndDelta (BytesN.ofBytes 32 [2]) :=
    ⟨_, _, rfl, rfl, by unfold Inside; decide +kernel⟩
  refine ⟨⟨hbase, fun b hb => ?_⟩, ⟨hdelta, fun b hb => ?_⟩⟩
  · cases (show none = some b from hb)
  · rw [← (show BytesN.ofBytes 32 [1] = b from Option.some.inj hb)]
    exact hbase

/-- A login for a server without keys. -/
def plainLogin : RestoreLogin :=
  ⟨BytesN.ofBytes 32 [], BytesN.ofBytes 32 [], BytesN.ofBytes 32 [], id, fun _ => [],
    fun _ => zeroCipher⟩

/-- The recipe of the two chunks, in two calls. -/
def baseAndDeltaRecipe : List Bytes := [(BytesN.ofBytes 32 [1]).1, (BytesN.ofBytes 32 [2]).1]

theorem readable_baseAndDeltaRecipe : ∀ buf ∈ baseAndDeltaRecipe,
    ∀ f ∈ recipeKeys .plain plainLogin buf, Readable .plain baseAndDelta f := by
  intro buf hbuf f hf
  rcases List.mem_cons.mp hbuf with rfl | hbuf
  · rw [List.mem_singleton.mp (show f ∈ [BytesN.ofBytes 32 [1]] from hf)]
    exact readable_baseAndDelta.1
  · obtain rfl := List.mem_singleton.mp hbuf
    rw [List.mem_singleton.mp (show f ∈ [BytesN.ofBytes 32 [2]] from hf)]
    exact readable_baseAndDelta.2

theorem restore_in_order_baseAndDelta : ∃ (r : Restore) (groups : List (List Bytes))
    (last : List Bytes),
      ((start plainLogin).procRecipeBatches .plain baseAndDelta plainLogin baseAndDeltaRecipe).bind
        (procRecipeTailBatch .plain baseAndDelta plainLogin) = some r ∧
      r.sent = groups.map (message .plain plainLogin.sessionKey false) ++
        [message .plain plainLogin.sessionKey true last] ∧
      PlainOf .plain baseAndDelta [BytesN.ofBytes 32 [1], BytesN.ofBytes 32 [2]]
        (groups.flatten ++ last) := by
  obtain ⟨r, groups, last, hrun, hsent, hplain, -, -⟩ := restore_in_order .plain baseAndDelta
    plainLogin (fun _ _ _ h => h) baseAndDeltaRecipe readable_baseAndDeltaRecipe
  exact ⟨r, groups, last, hrun, hsent, hplain⟩

end Restore

end ShieldReduce
