import ShieldReduce.Invariant.Rebase
import ShieldReduce.System.Accounting
import ShieldReduce.System.Encryptions

/-!
# The replay of the log of base replacements

Uploads log pairs of a base and the chunk that is to replace it. What a
later offline pass works on are the pairs that `Ocall_GetLocal` answers:
each base with its last replacement, and each superseded replacement
with the last one of its base. The pass itself does not touch the log
(`SameLog`), so that no pair is lost or comes twice.
-/

namespace ShieldReduce

open ByteLib UMapLib LoopLib

variable {env : Env}

/-! ## The log and its revision -/

namespace InMemoryDatabase

/-- `Ocall_LocalInsert` of the pairs in the buffer. -/
def localInserts (db : InMemoryDatabase) (log : List (Fp × Fp)) : InMemoryDatabase :=
  log.foldl (fun db p => db.localInsert p.1 p.2) db

/-- The replacements of a base, first one first. -/
def newsOf (log : List (Fp × Fp)) (old : Fp) : List Fp :=
  (log.filter fun p => p.1 = old).map Prod.snd

/-- What is asked for `old`: the last replacement of it, or of the base whose
superseded replacement it is. -/
def Asks (log : List (Fp × Fp)) (old new : Fp) : Prop :=
  (newsOf log old).getLast? = some new ∨
    ∃ base, (newsOf log base).getLast? = some new ∧ old ∈ (newsOf log base).dropLast

theorem newsOf_concat (log : List (Fp × Fp)) (p : Fp × Fp) (old : Fp) :
    newsOf (log ++ [p]) old = if p.1 = old then newsOf log old ++ [p.2] else newsOf log old := by
  unfold newsOf
  rw [List.filter_append, List.map_append]
  split
  · rename_i h
    rw [List.filter_cons_of_pos (by simpa using h)]
    rfl
  · rename_i h
    rw [List.filter_cons_of_neg (by simpa using h), List.filter_nil, List.map_nil, List.append_nil]

theorem mem_newsOf {log : List (Fp × Fp)} {old new : Fp} : new ∈ newsOf log old ↔ (old, new) ∈ log := by
  unfold newsOf
  rw [List.mem_map]
  constructor
  · rintro ⟨⟨o, n⟩, hp, rfl⟩
    obtain ⟨hp, ho⟩ := List.mem_filter.mp hp
    rwa [← of_decide_eq_true ho]
  · intro h
    exact ⟨(old, new), List.mem_filter.mpr ⟨h, decide_eq_true rfl⟩, rfl⟩

theorem mem_of_getLast?_newsOf {log : List (Fp × Fp)} {old new : Fp}
    (h : (newsOf log old).getLast? = some new) : (old, new) ∈ log :=
  mem_newsOf.mp (List.mem_of_getLast? h)

theorem mem_of_dropLast_newsOf {log : List (Fp × Fp)} {old new : Fp}
    (h : new ∈ (newsOf log old).dropLast) : (old, new) ∈ log :=
  mem_newsOf.mp (List.dropLast_subset _ h)

/-- The log, after pairs were put into an empty one. -/
theorem localInserts_log {db : InMemoryDatabase} (htmp : db.localTmpMap = ∅) (hskip : db.skipMap = ∅)
    (log : List (Fp × Fp)) (old : Fp) :
    (db.localInserts log).localTmpMap.lookup old = (newsOf log old).getLast? ∧
      getList (db.localInserts log).skipMap old = (newsOf log old).dropLast := by
  induction log using List.reverseRecOn generalizing old with
  | nil =>
      rw [localInserts, List.foldl_nil, htmp, hskip]
      exact ⟨rfl, rfl⟩
  | append_singleton log p ih =>
      rw [show db.localInserts (log ++ [p]) = (db.localInserts log).localInsert p.1 p.2 from
        List.foldl_append, newsOf_concat]
      obtain ⟨hlast, hearlier⟩ := ih old
      obtain ⟨hlast', hearlier'⟩ := ih p.1
      generalize db.localInserts log = db' at hlast hearlier hlast' hearlier' ⊢
      have htmp' : (db'.localInsert p.1 p.2).localTmpMap.lookup old =
          if old = p.1 then some p.2 else db'.localTmpMap.lookup old := lookup_eq_if
      refine ⟨?_, ?_⟩
      · rw [htmp']
        split
        · rename_i h
          rw [if_pos h.symm, List.getLast?_concat]
        · rename_i h
          rw [if_neg fun heq => h heq.symm, hlast]
      · unfold localInsert
        dsimp only
        rw [hlast']
        cases hnews : (newsOf log p.1).getLast? with
        | none =>
            -- the first replacement of the base
            have hnil := List.getLast?_eq_none_iff.mp hnews
            dsimp only
            rw [hearlier]
            split
            · rename_i h
              rw [← h, hnil]
              rfl
            · rfl
        | some earlier =>
            dsimp only
            rw [getList_pushBack, hearlier, hearlier']
            by_cases h : p.1 = old
            · rw [if_pos h.symm, if_pos h, List.dropLast_concat, ← h]
              exact List.dropLast_append_getLast? _ hnews
            · rw [if_neg fun heq => h heq.symm, if_neg h]

/-- The replacements are all different, and none of them is a base of the log. -/
structure LogApart (log : List (Fp × Fp)) : Prop where
  nodup : (log.map Prod.snd).Nodup
  apart : ∀ p ∈ log, ∀ q ∈ log, p.2 ≠ q.1

theorem LogApart.base_unique {log : List (Fp × Fp)} (h : LogApart log) {b b' v : Fp}
    (hb : (b, v) ∈ log) (hb' : (b', v) ∈ log) : b = b' :=
  congrArg Prod.fst (List.inj_on_of_nodup_map h.nodup hb hb' rfl)

/-- At most one replacement is asked for. -/
theorem LogApart.asks_unique {log : List (Fp × Fp)} (h : LogApart log) {old new new' : Fp}
    (ha : Asks log old new) (ha' : Asks log old new') : new = new' := by
  rcases ha with hlast | ⟨base, hlast, hskip⟩ <;> rcases ha' with hlast' | ⟨base', hlast', hskip'⟩
  · exact Option.some.inj (hlast.symm.trans hlast')
  · exact absurd rfl (h.apart _ (mem_of_dropLast_newsOf hskip') _ (mem_of_getLast?_newsOf hlast))
  · exact absurd rfl (h.apart _ (mem_of_dropLast_newsOf hskip) _ (mem_of_getLast?_newsOf hlast'))
  · rw [h.base_unique (mem_of_dropLast_newsOf hskip) (mem_of_dropLast_newsOf hskip')] at hlast
    exact Option.some.inj (hlast.symm.trans hlast')

/-- The replacement that is asked for is no base, and none of those that are
superseded. -/
theorem LogApart.asks_apart {log : List (Fp × Fp)} (h : LogApart log) {old new old' new' : Fp}
    (ha : Asks log old new) (ha' : Asks log old' new') : new ≠ old' := by
  obtain ⟨base, hlast⟩ : ∃ base, (newsOf log base).getLast? = some new := by
    rcases ha with hlast | ⟨base, hlast, -⟩
    · exact ⟨old, hlast⟩
    · exact ⟨base, hlast⟩
  rintro rfl
  rcases ha' with hlast' | ⟨base', -, hskip'⟩
  · exact h.apart _ (mem_of_getLast?_newsOf hlast) _ (mem_of_getLast?_newsOf hlast') rfl
  · -- it would stand twice among the replacements of its base
    obtain rfl := h.base_unique (mem_of_getLast?_newsOf hlast) (mem_of_dropLast_newsOf hskip')
    have hnd : (newsOf log base).Nodup :=
      h.nodup.sublist ((List.filter_sublist).map _)
    rw [← List.dropLast_append_getLast? new hlast] at hnd
    exact (List.nodup_append.mp hnd).2.2 _ hskip' _ (List.mem_singleton_self _) rfl

/-- The pairs of the revised log are what is asked for. -/
theorem lookup_greedyBasemap {w : WalkOrder} {db : InMemoryDatabase} (htmp : db.localTmpMap = ∅)
    (hskip : db.skipMap = ∅) {log : List (Fp × Fp)} (h : LogApart log) (old new : Fp) :
    (greedyBasemap w (db.localInserts log)).lookup old = some new ↔ Asks log old new := by
  have hlog := localInserts_log htmp hskip log
  have hasks : ∀ {new}, (greedyBasemap w (db.localInserts log)).lookup old = some new →
      Asks log old new := by
    intro new hnew
    rcases replaces_of_greedyBasemap hnew with hlast | ⟨base, hlast, hmem⟩
    · exact Or.inl ((hlog old).1.symm.trans hlast)
    · exact Or.inr ⟨base, (hlog base).1.symm.trans hlast, (hlog base).2 ▸ hmem⟩
  refine ⟨hasks, fun ha => ?_⟩
  have hin : old ∈ greedyBasemap w (db.localInserts log) := by
    rcases id ha with hlast | ⟨base, hlast, hmem⟩
    · refine mem_greedyBasemap (AList.lookup_isSome.mp ?_) (Or.inl rfl)
      rw [(hlog old).1, hlast]
      rfl
    · have hmem' : old ∈ getList (db.localInserts log).skipMap base := by rwa [(hlog base).2]
      refine mem_greedyBasemap (AList.lookup_isSome.mp ?_) (Or.inr hmem')
      rw [(hlog base).1, hlast]
      rfl
  obtain ⟨new', hnew'⟩ := Option.isSome_iff_exists.mp (AList.lookup_isSome.mpr hin)
  rw [hnew', h.asks_unique (hasks hnew') ha]

/-- So are those that `Ocall_Localrevise` leaves in `_local_map`, each once. -/
theorem localMap_revised {w : WalkOrder} {db : InMemoryDatabase} (htmp : db.localTmpMap = ∅)
    (hskip : db.skipMap = ∅) (hmap : db.localMap = []) {log : List (Fp × Fp)} (h : LogApart log) :
    (∀ old new, (old, new) ∈ ((db.localInserts log).localrevise w).localMap ↔ Asks log old new) ∧
      (((db.localInserts log).localrevise w).localMap.map Prod.fst).Nodup := by
  have hmap' : (db.localInserts log).localMap = [] := by
    refine foldl_inv (I := fun db : InMemoryDatabase => db.localMap = []) ?_ log db hmap
    exact fun db p hdb => hdb
  constructor
  · intro old new
    rw [mem_localMap_localrevise, hmap']
    simp only [List.not_mem_nil, false_or]
    exact lookup_greedyBasemap htmp hskip h old new
  · simp only [localrevise, hmap', List.nil_append]
    refine ((List.mergeSort_perm _ _).map _).nodup_iff.mpr ?_
    exact ((w.perm _).map _).nodup_iff.mpr (pairs_nodup_fst _)

end InMemoryDatabase

/-! ## The pass leaves the log alone -/

structure SameLog (db db' : InMemoryDatabase) : Prop where
  localMap : db'.localMap = db.localMap
  localTmpMap : db'.localTmpMap = db.localTmpMap
  skipMap : db'.skipMap = db.skipMap

theorem SameLog.refl (db : InMemoryDatabase) : SameLog db db := ⟨rfl, rfl, rfl⟩

theorem SameLog.trans {db db' db'' : InMemoryDatabase} (h : SameLog db db') (h' : SameLog db' db'') :
    SameLog db db'' :=
  ⟨h'.localMap.trans h.localMap, h'.localTmpMap.trans h.localTmpMap, h'.skipMap.trans h.skipMap⟩

theorem SamePass.sameLog {p p' : Pass} (h : SamePass p p') : SameLog p.server.db p'.server.db := by
  rw [h.db]
  exact .refl _

theorem sameLog_queryDeltaIndex (p : Pass) (f : Fp) :
    SameLog p.server.db (p.queryDeltaIndex f).2.server.db := by
  show SameLog p.server.db (p.server.db.queryDeltaIndex f).2
  unfold InMemoryDatabase.queryDeltaIndex
  split <;> exact ⟨rfl, rfl, rfl⟩

theorem sameLog_oneContainer {p p' : Pass} {n : ContainerName} (h : p.oneContainer n = some p') :
    SameLog p.server.db p'.server.db := by
  obtain ⟨file, -, rfl⟩ := Option.map_eq_some_iff.mp h
  exact .refl _

namespace OFFLineBackward

theorem sameLog_moveToHot (p : Pass) (f new : Fp) (e : RecipeEntry) (delta : Bytes) (fp : Fp) (sf : Sf)
    (iv : Iv) : SameLog p.server.db (moveToHot env p f new e delta fp sf iv).server.db := by
  obtain ⟨q, hq, heq⟩ := p.insertHotContainer_cases (env.encryptWithKeyIV delta iv)
    { e with length := UInt32.ofNat delta.length, basechunkHash := new } fp sf iv
  unfold moveToHot
  rw [heq]
  rcases hq with ⟨rfl, -⟩ | rfl <;> exact ⟨rfl, rfl, rfl⟩

theorem sameLog_rebaseDelta (oldChunk newChunk : Bytes) (new : Fp) (st : Bool × Pass) (f : Fp) :
    SameLog st.2.server.db (rebaseDelta env oldChunk newChunk new st f).2.server.db := by
  have hread := ((@samePass_oneRecipe env st.2 f).trans (samePass_askFor _
    (oneRecipe env st.2 f).1.containerName)).trans (samePass_oneDeltaContainer _
      (oneRecipe env st.2 f).1.containerName)
  unfold rebaseDelta
  dsimp only
  generalize Pass.oneDeltaContainer _ _ = p at hread ⊢
  generalize env.decryptionWithKeyIV _ _ = delta
  have hmade := hread.trans (@samePass_getNewDeltachunk env p delta oldChunk newChunk)
  generalize getNewDeltachunk env p delta oldChunk newChunk = q at hmade ⊢
  obtain ⟨made, q⟩ := q
  cases made with
  | none => exact hmade.sameLog
  | some newDelta => exact hmade.sameLog.trans (sameLog_moveToHot _ _ _ _ _ _ _ _)

theorem sameLog_convertBase (oldChunk newChunk : Bytes) (pair : Fp × Fp) (e : RecipeEntry) (iv : Iv)
    (st : Bool × Pass) :
    SameLog st.2.server.db (convertBase env oldChunk newChunk pair e iv st).server.db := by
  have hmade := @samePass_ed3EncodeBuffer env st.2 oldChunk newChunk
  unfold convertBase
  dsimp only
  generalize ed3EncodeBuffer env st.2 oldChunk newChunk = q at hmade ⊢
  obtain ⟨delta, q⟩ := q
  split
  · exact hmade.sameLog
  · have hsized := hmade.trans (samePass_resize q e.length.toNat delta.length)
    split
    · exact hsized.sameLog.trans (sameLog_moveToHot _ _ _ _ _ _ _ _)
    · exact hsized.sameLog

theorem sameLog_rebase (p : Pass) (pair : Fp × Fp) (e e' : RecipeEntry) (old new : Bytes) :
    SameLog p.server.db (rebase env p pair e e' old new).server.db := by
  unfold rebase
  refine SameLog.trans ?_ (sameLog_convertBase _ _ _ _ _ _)
  refine (sameLog_queryDeltaIndex p pair.1).trans ?_
  refine foldl_inv (I := fun st : Bool × Pass =>
    SameLog (p.queryDeltaIndex pair.1).2.server.db st.2.server.db) ?_ _ (true, _) (.refl _)
  exact fun st f h => h.trans (sameLog_rebaseDelta _ _ _ st f)

theorem sameLog_greedyPair (p : Pass) (pair : Fp × Fp) :
    SameLog p.server.db (greedyPair env p pair).server.db := by
  unfold greedyPair
  dsimp only
  refine SameLog.trans ?_ (sameLog_queryDeltaIndex _ pair.1)
  exact ⟨rfl, rfl, rfl⟩

theorem sameLog_updatePair (p : Pass) (pair : Fp × Fp) :
    SameLog p.server.db (updatePair env p pair).server.db := by
  unfold updatePair
  split
  · exact sameLog_greedyPair p pair
  dsimp only
  split
  · exact .refl _
  rename_i p₁ hp₁
  have h₁ : SameLog p.server.db p₁.server.db := by
    have := sameLog_oneContainer hp₁
    exact this
  split
  · exact ⟨h₁.localMap, h₁.localTmpMap, h₁.skipMap⟩
  rename_i p₂ hp₂
  have h₂ : SameLog p₁.server.db p₂.server.db := by
    obtain ⟨hmap, htmp, hskip⟩ := sameLog_oneContainer hp₂
    exact ⟨hmap, htmp, hskip⟩
  refine SameLog.trans ?_ (sameLog_rebase _ _ _ _ _ _)
  obtain ⟨hmap, htmp, hskip⟩ := h₁.trans h₂
  exact ⟨hmap, htmp, hskip⟩

theorem sameLog_updateBatch (p : Pass) (batch : List (Fp × Fp)) :
    SameLog p.server.db (updateBatch env p batch).server.db := by
  unfold updateBatch
  refine foldl_inv (I := fun q : Pass => SameLog p.server.db q.server.db) ?_ _ p (.refl _)
  exact fun q pair h => h.trans (sameLog_updatePair q pair)

/-! ### Compaction and merging -/

/-- Only the index and the bookkeeping of cold chunks are different. -/
structure SameRest (db db' : InMemoryDatabase) : Prop extends SameLog db db' where
  deltaIndex : db'.deltaIndex = db.deltaIndex

theorem SameRest.refl (db : InMemoryDatabase) : SameRest db db := ⟨.refl db, rfl⟩

theorem SameRest.trans {db db' db'' : InMemoryDatabase} (h : SameRest db db')
    (h' : SameRest db' db'') : SameRest db db'' :=
  ⟨h.toSameLog.trans h'.toSameLog, h'.deltaIndex.trans h.deltaIndex⟩

theorem sameRest_moveUpTo (change : RecipeEntry → RecipeEntry) (container : Bytes) (limit : Nat)
    (m : Moving) : SameRest m.db (moveUpTo env change container limit m).db := by
  refine whileLoop_inv (I := fun m' : Moving => SameRest m.db m'.db) ?_ limit m (.refl _)
  exact fun m' h _ => h.trans ⟨⟨rfl, rfl, rfl⟩, rfl⟩

theorem sameRest_skipColds (container : Bytes) (ranges : List (Nat × Nat)) (st : Nat × Moving) :
    SameRest st.2.db (ranges.foldl (skipCold env container) st).2.db := by
  refine foldl_inv (I := fun st' : Nat × Moving => SameRest st.2.db st'.2.db) ?_ ranges st (.refl _)
  exact fun st' r h => h.trans (sameRest_moveUpTo _ _ _ _)

theorem db_oneColdContainer (p : Pass) (n : ContainerName) :
    (p.oneColdContainer n).2.server.db = p.server.db := by
  unfold Pass.oneColdContainer
  dsimp only
  split
  · rfl
  · split <;> rfl

theorem sameRest_updateColdContainer (p : Pass) (n : ContainerName) (ranges : List (Nat × Nat)) :
    SameRest p.server.db (updateColdContainer env p n ranges).server.db := by
  have hdb := db_oneColdContainer (p.askFor n) n
  unfold updateColdContainer
  dsimp only
  generalize Pass.oneColdContainer _ n = q at hdb ⊢
  obtain ⟨d, q⟩ := q
  have h := @sameRest_skipColds env q.server.tmpOcallcontainer
    (ranges.insertionSort fun a b => a.1 ≤ b.1) (0, ⟨0, [], q.server.db⟩)
  rw [show q.server.db = p.server.db from hdb] at h ⊢
  exact h.trans (sameRest_moveUpTo _ _ _ _)

theorem sameRest_updateCold (fuel : Nat) (p : Pass) :
    SameRest p.server.db (updateCold env fuel p).server.db := by
  induction fuel generalizing p with
  | zero => exact .refl _
  | succ fuel ih =>
      rw [updateCold]
      have hgot : SameRest p.server.db p.server.db.getCold.2 := by
        unfold InMemoryDatabase.getCold
        split <;> exact ⟨⟨rfl, rfl, rfl⟩, rfl⟩
      split
      · exact .refl _
      · rename_i n ranges db heq
        rw [heq] at hgot
        exact (hgot.trans (sameRest_updateColdContainer (p.mapDb fun _ => db) n ranges)).trans (ih _)

theorem sameRest_mergeContainer (p : Pass) :
    SameRest p.server.db (mergeContainer env p).server.db := by
  unfold mergeContainer
  refine foldl_inv (I := fun q : Pass => SameRest p.server.db q.server.db) ?_ _ p (.refl _)
  exact fun q pair h => h.trans (sameRest_moveUpTo _ _ _ ⟨0, [], q.server.db⟩)

/-- What comes after the pairs. -/
theorem sameRest_easyUpdate (p : Pass) :
    SameRest (updateLocal env (p.server.db.localMap.length + 1) p).server.db
      (easyUpdate env p).server.db := by
  unfold easyUpdate
  generalize updateLocal env _ p = q
  dsimp only
  refine SameRest.trans ?_ (sameRest_mergeContainer _)
  refine SameRest.trans ?_ (sameRest_updateCold _ _)
  split <;> exact ⟨⟨rfl, rfl, rfl⟩, rfl⟩

/-! ## The batches -/

/-- The pairs of a batch, in the order of the map they are put into. -/
def walkedPairs (env : Env) (batch : List (Fp × Fp)) : List (Fp × Fp) :=
  env.walkOrder.walk (pairs (batch.foldl (fun m q => m.insert q.1 q.2) (∅ : UMap Fp Fp)))

/-- The map has no more pairs than the batch, and the same old bases. -/
theorem walkedPairs_within (batch : List (Fp × Fp)) :
    (walkedPairs env batch).length ≤ batch.length ∧
      ∀ q ∈ walkedPairs env batch, q.1 ∈ batch.map Prod.fst := by
  have hwalk := env.walkOrder.perm
    (pairs (batch.foldl (fun m q => m.insert q.1 q.2) (∅ : UMap Fp Fp)))
  have hfst : ∀ b ∈ (pairs (batch.foldl (fun m q => m.insert q.1 q.2)
      (∅ : UMap Fp Fp))).map Prod.fst, b ∈ batch.map Prod.fst := fun b hb =>
    (mem_fst_pairs_foldl_insert _ hb).resolve_left fun hnone => by cases hnone
  constructor
  · have hlen := (List.subperm_of_subset (pairs_nodup_fst _) hfst).length_le
    rwa [List.length_map, List.length_map, ← hwalk.length_eq] at hlen
  · exact fun q hq => hfst q.1 (List.mem_map_of_mem (hwalk.mem_iff.mp hq))

/-- A round of the loop over the batches: a batch comes off the log, and its pairs
are worked through, which leaves the rest of the log as it is. -/
structure Round (env : Env) (fuel : Nat) (p : Pass) (batch rest : List (Fp × Fp)) (p₁ p₂ : Pass) :
    Prop where
  perm : p.server.db.localMap.Perm (batch ++ rest)
  taken : p₁ = p.mapDb fun db => { db with localMap := rest }
  worked : p₂ = (walkedPairs env batch).foldl (updatePair env) p₁
  rest : p₂.server.db.localMap = rest
  goesOn : updateLocal env (fuel + 1) p = updateLocal env fuel p₂
  visits : updateLocalVisits env (fuel + 1) p =
    visits (updatePair env) p₁ (walkedPairs env batch) ++ updateLocalVisits env fuel p₂

theorem updateLocal_round (env : Env) (fuel : Nat) (p : Pass) :
    (updateLocal env (fuel + 1) p = p ∧ updateLocalVisits env (fuel + 1) p = []) ∨
      ∃ batch rest p₁ p₂, Round env fuel p batch rest p₁ p₂ := by
  obtain ⟨rest, hdb, hperm⟩ := p.server.db.getLocal_perm
  rw [updateLocal, updateLocalVisits]
  cases hgot : p.server.db.getLocal with
  | mk batch db =>
      rw [hgot] at hdb hperm
      dsimp only at hdb hperm
      cases batch with
      | nil => exact Or.inl ⟨rfl, rfl⟩
      | cons q batch =>
          refine Or.inr ⟨q :: batch, rest, p.mapDb fun _ => db,
            updateBatch env (p.mapDb fun _ => db) (q :: batch), hperm, by rw [hdb]; rfl, rfl, ?_, ?_,
            ?_⟩
          · exact (sameLog_updateBatch _ _).localMap.trans (by rw [hdb]; rfl)
          · rw [updateLocal, hgot]
          · rw [updateLocalVisits, hgot]
            rfl

variable (env) in
/-- The batches of `Ocall_GetLocal` that `updateLocal` works through. -/
def localBatches : (fuel : Nat) → Pass → List (List (Fp × Fp))
  | 0, _ => []
  | fuel + 1, p =>
      match p.server.db.getLocal with
      | ([], _) => []
      | (q :: batch, db) =>
          (q :: batch) :: localBatches fuel (updateBatch env (p.mapDb fun _ => db) (q :: batch))

/-- Every pair of `_local_map` is in one batch, and then the list is empty. -/
theorem localBatches_perm (fuel : Nat) {p : Pass} (hfuel : p.server.db.localMap.length < fuel) :
    (localBatches env fuel p).flatten.Perm p.server.db.localMap ∧
      (updateLocal env fuel p).server.db.localMap = [] ∧
      (updateLocal env fuel p).server.db.localTmpMap = p.server.db.localTmpMap ∧
      (updateLocal env fuel p).server.db.skipMap = p.server.db.skipMap := by
  induction fuel generalizing p with
  | zero => exact absurd hfuel (Nat.not_lt_zero _)
  | succ fuel ih =>
      rw [localBatches, updateLocal]
      obtain ⟨rest, hdb, hperm⟩ := p.server.db.getLocal_perm
      have hnil := @InMemoryDatabase.getLocal_eq_nil_iff p.server.db
      generalize p.server.db.getLocal = got at hdb hperm hnil ⊢
      obtain ⟨batch, db⟩ := got
      dsimp only at hdb hperm hnil
      cases batch with
      | nil =>
          rw [hnil.mp rfl]
          exact ⟨.nil, rfl, rfl, rfl⟩
      | cons q batch =>
          have hsame := @sameLog_updateBatch env (p.mapDb fun _ => db) (q :: batch)
          have hrest : (updateBatch env (p.mapDb fun _ => db) (q :: batch)).server.db.localMap = rest :=
            hsame.localMap.trans (by rw [hdb]; rfl)
          have hlen := hperm.length_eq
          rw [List.length_append, List.length_cons] at hlen
          obtain ⟨hbatches, hmap, htmp, hskip⟩ := @ih
            (updateBatch env (p.mapDb fun _ => db) (q :: batch)) (by rw [hrest]; omega)
          rw [hrest] at hbatches
          refine ⟨?_, hmap, ?_, ?_⟩
          · exact (hbatches.append_left _).trans hperm.symm
          · exact htmp.trans (hsame.localTmpMap.trans (by rw [hdb]; rfl))
          · exact hskip.trans (hsame.skipMap.trans (by rw [hdb]; rfl))

end OFFLineBackward

/-- **The log is replayed completely.** The pairs that the batches of a pass
bring are those that the log asks for, each of them once, and no target is a
source. Afterwards the log is empty. -/
theorem replay_complete (env : Env) (s : Server) (m : PassResidue) (log : List (List (Fp × Fp)))
    (htmp : s.db.localTmpMap = ∅) (hskip : s.db.skipMap = ∅) (hmap : s.db.localMap = [])
    (hnew : (log.flatten.map Prod.snd).Nodup)
    (hold : ∀ p ∈ log.flatten, ∀ q ∈ log.flatten, p.2 ≠ q.1) :
    let p := Pass.start { s with
      db := (log.foldl InMemoryDatabase.localInserts s.db).localrevise env.walkOrder } m
    let got := (OFFLineBackward.localBatches env (p.server.db.localMap.length + 1) p).flatten
    (∀ old new, (old, new) ∈ got ↔ InMemoryDatabase.Asks log.flatten old new) ∧
      (got.map Prod.fst).Nodup ∧ (∀ a ∈ got, ∀ b ∈ got, a.2 ≠ b.1) ∧
      (OFFLineBackward.easyUpdate env p).server.db.localTmpMap = ∅ ∧
      (OFFLineBackward.easyUpdate env p).server.db.skipMap = ∅ ∧
      (OFFLineBackward.easyUpdate env p).server.db.localMap = [] := by
  intro p got
  have hflat : log.foldl InMemoryDatabase.localInserts s.db = s.db.localInserts log.flatten := by
    rw [InMemoryDatabase.localInserts, List.foldl_flatten]
    rfl
  have hlog : InMemoryDatabase.LogApart log.flatten := ⟨hnew, hold⟩
  obtain ⟨hasks, hnodup⟩ := InMemoryDatabase.localMap_revised (w := env.walkOrder) htmp hskip hmap hlog
  rw [← hflat] at hasks hnodup
  obtain ⟨hperm, hmap', htmp', hskip'⟩ :=
    @OFFLineBackward.localBatches_perm env _ p (Nat.lt_succ_self _)
  have hgot : ∀ old new, (old, new) ∈ got ↔ InMemoryDatabase.Asks log.flatten old new :=
    fun old new => hperm.mem_iff.trans (hasks old new)
  have hpass := @OFFLineBackward.sameRest_easyUpdate env p
  refine ⟨hgot, (hperm.map _).nodup_iff.mpr hnodup, ?_, ?_, ?_, ?_⟩
  · rintro ⟨old, new⟩ ha ⟨old', new'⟩ hb
    exact hlog.asks_apart ((hgot old new).mp ha) ((hgot old' new').mp hb)
  · exact hpass.localTmpMap.trans htmp'
  · exact hpass.skipMap.trans hskip'
  · exact hpass.localMap.trans hmap'

/-- A base that is replaced twice, in two batches, and another base. -/
def twiceReplaced : List (List (Fp × Fp)) :=
  [[(BytesN.ofBytes 32 [1], BytesN.ofBytes 32 [2])],
    [(BytesN.ofBytes 32 [1], BytesN.ofBytes 32 [3]), (BytesN.ofBytes 32 [4], BytesN.ofBytes 32 [5])]]

/-- The pass over this log. -/
def twiceReplacedPass : Pass :=
  let s := Server.boot .plain ⟨[], fun _ => []⟩
  Pass.start { s with
    db := (twiceReplaced.foldl InMemoryDatabase.localInserts s.db).localrevise .stored }
    ⟨zeroCipher, 0, [], []⟩

/-- The superseded replacement is to be a delta chunk of the last one. -/
theorem replay_complete_twiceReplaced :
    (BytesN.ofBytes 32 [2], BytesN.ofBytes 32 [3]) ∈ (OFFLineBackward.localBatches .plain
      (twiceReplacedPass.server.db.localMap.length + 1) twiceReplacedPass).flatten :=
  ((replay_complete .plain (.boot .plain ⟨[], fun _ => []⟩) ⟨zeroCipher, 0, [], []⟩ twiceReplaced
    rfl rfl rfl (by decide +kernel) (by decide +kernel)).1 _ _).mpr
      (Or.inr ⟨BytesN.ofBytes 32 [1], by decide +kernel, by decide +kernel⟩)

end ShieldReduce
