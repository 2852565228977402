import ShieldReduce.Lib.Counter
import ShieldReduce.Guarantee.Accounting

/-!
# The size counters of an offline pass

`_offlineCurrBackup_size` begins with the bytes that the session's upload has
stored, `_offlineCompress_size` with those of all sessions. For every chunk
that the pass re-encodes, both lose its stored size and get the size of the
new delta. The chunks are from any earlier session, so nothing bounds what is
taken by what is there, and a single old chunk that is larger than what the
session has stored makes both wrap. A pass re-encodes each chunk once, and only
the bases that its log replaces and the delta chunks of these
(`OFFLineBackward.cost_updateLocal`): as long as they are together no larger
than what the session has stored, the counters are right (`sizes_covered`).
-/

namespace ShieldReduce

open ByteLib UMapLib LoopLib CounterLib

variable {env : Env}

/-! ## What is subtracted and added -/

namespace OFFLineBackward

variable (env : Env)

/-- The change of the counters in `GetNew_deltachunk`, for a delta chunk of the old base. -/
def deltaExchange (oldChunk newChunk : Bytes) (v : (Bool × Pass) × Fp) : List Exchange :=
  let (recipe, p) := oneRecipe env v.1.2 v.2
  let p := (p.askFor recipe.containerName).oneDeltaContainer recipe.containerName
  let container := p.server.tmpOcallcontainer
  let iv := getChunkIV container recipe
  let delta := env.decryptionWithKeyIV (getChunkContent container recipe) iv
  match (getNewDeltachunk env p delta oldChunk newChunk).1 with
  | none => []
  | some newDelta => [⟨recipe.length.toNat, newDelta.length⟩]

/-- The change in `Easy_update`, for the old base. -/
def baseExchange (oldChunk newChunk : Bytes) (oldRecipe : RecipeEntry) (st : Bool × Pass) :
    List Exchange :=
  let delta := (ed3EncodeBuffer env st.2 oldChunk newChunk).1
  if oldChunk.length < delta.length then [] else [⟨oldRecipe.length.toNat, delta.length⟩]

def RebaseCall.exchanges (k : RebaseCall) (pair : Fp × Fp) : List Exchange :=
  (visits (rebaseDelta env (k.oldChunk env) (k.newChunk env) pair.2) (true, (k.asked pair).2)
    (k.asked pair).1).flatMap (deltaExchange env (k.oldChunk env) (k.newChunk env)) ++
  baseExchange env (k.oldChunk env) (k.newChunk env) k.oldRecipe (k.afterDeltas env pair)

/-- The changes of the counters in one round of the loop over `local_basemap`. -/
def pairExchanges (v : Pass × (Fp × Fp)) : List Exchange :=
  match rebaseCall env v.1 v.2 with
  | some k => k.exchanges env v.2
  | none => []

end OFFLineBackward

/-- The changes of the counters in a pass. -/
def processOffExchanges (env : Env) (s : Server) (m : PassResidue) : List Exchange :=
  (processOffVisits env s m).flatMap (OFFLineBackward.pairExchanges env)

/-! ## The counter of the pass goes through them -/

namespace OFFLineBackward

theorem size_insertHotContainer (p : Pass) (content : Bytes) (recipe : RecipeEntry) (fp : Fp) (sf : Sf)
    (iv : Iv) : (p.insertHotContainer content recipe fp sf iv).2.offlineCurrBackupSize =
      p.offlineCurrBackupSize := by
  unfold Pass.insertHotContainer
  dsimp only
  split <;> rfl

theorem size_moveToHot (p : Pass) (chunkHash newBase : Fp) (recipe : RecipeEntry) (delta : Bytes)
    (fp : Fp) (sf : Sf) (iv : Iv) :
    (moveToHot env p chunkHash newBase recipe delta fp sf iv).offlineCurrBackupSize =
      p.offlineCurrBackupSize :=
  size_insertHotContainer p (env.encryptWithKeyIV delta iv) _ fp sf iv

theorem size_oneDeltaContainer (p : Pass) (name : ContainerName) :
    (p.oneDeltaContainer name).offlineCurrBackupSize = p.offlineCurrBackupSize := by
  unfold Pass.oneDeltaContainer
  split <;> rfl

theorem size_getNewDeltachunk (p : Pass) (delta oldChunk newChunk : Bytes) :
    (getNewDeltachunk env p delta oldChunk newChunk).2.offlineCurrBackupSize =
      match (getNewDeltachunk env p delta oldChunk newChunk).1 with
      | none => p.offlineCurrBackupSize
      | some newDelta => Exchange.apply p.offlineCurrBackupSize ⟨delta.length, newDelta.length⟩ := by
  unfold getNewDeltachunk
  dsimp only
  split <;> rfl

theorem size_rebaseDelta (henv : env.Lawful) (oldChunk newChunk : Bytes) (newBase : Fp)
    (st : Bool × Pass) (deltaHash : Fp) :
    (rebaseDelta env oldChunk newChunk newBase st deltaHash).2.offlineCurrBackupSize =
      (deltaExchange env oldChunk newChunk (st, deltaHash)).foldl Exchange.apply
        st.2.offlineCurrBackupSize := by
  unfold rebaseDelta deltaExchange
  dsimp only
  generalize hasked : oneRecipe env st.2 deltaHash = asked
  have hsize : asked.2.offlineCurrBackupSize = st.2.offlineCurrBackupSize := by
    rw [← hasked]
    rfl
  have hread : ((asked.2.askFor asked.1.containerName).oneDeltaContainer
      asked.1.containerName).offlineCurrBackupSize = st.2.offlineCurrBackupSize := by
    rw [size_oneDeltaContainer]
    exact hsize
  generalize (asked.2.askFor asked.1.containerName).oneDeltaContainer asked.1.containerName = p at hread ⊢
  have hlength : (env.decryptionWithKeyIV (getChunkContent p.server.tmpOcallcontainer asked.1)
      (getChunkIV p.server.tmpOcallcontainer asked.1)).length = asked.1.length.toNat := by
    rw [henv.length_decKeyIV, getChunkContent, length_slice]
  have hnew := @size_getNewDeltachunk env p (env.decryptionWithKeyIV
    (getChunkContent p.server.tmpOcallcontainer asked.1)
    (getChunkIV p.server.tmpOcallcontainer asked.1)) oldChunk newChunk
  rw [hlength, hread] at hnew
  generalize getNewDeltachunk env p _ oldChunk newChunk = result at hnew ⊢
  obtain ⟨newDelta?, p'⟩ := result
  cases newDelta? with
  | none => exact hnew
  | some newDelta =>
      dsimp only at hnew ⊢
      rw [size_moveToHot]
      exact hnew

theorem size_convertBase (oldChunk newChunk : Bytes) (pair : Fp × Fp) (oldRecipe : RecipeEntry)
    (oldIV : Iv) (st : Bool × Pass) :
    (convertBase env oldChunk newChunk pair oldRecipe oldIV st).offlineCurrBackupSize =
      (baseExchange env oldChunk newChunk oldRecipe st).foldl Exchange.apply
        st.2.offlineCurrBackupSize := by
  unfold convertBase baseExchange
  dsimp only
  split
  · rfl
  · split
    · rw [size_moveToHot]
      rfl
    · rfl

theorem size_oneContainer {p p' : Pass} {name : ContainerName} (h : p.oneContainer name = some p') :
    p'.offlineCurrBackupSize = p.offlineCurrBackupSize := by
  obtain ⟨file, -, rfl⟩ := Option.map_eq_some_iff.mp h
  rfl

/-- The pass at a pair: as it was, up to the re-encoding. -/
theorem size_rebaseCall (p : Pass) (pair : Fp × Fp) :
    match rebaseCall env p pair with
    | some k => k.pass.offlineCurrBackupSize = p.offlineCurrBackupSize
    | none => (updatePair env p pair).offlineCurrBackupSize = p.offlineCurrBackupSize := by
  unfold rebaseCall updatePair
  split_ifs with hgreedy
  · unfold greedyPair Pass.queryDeltaIndex oneRecipe
    rfl
  · dsimp only
    cases hold : Pass.oneContainer _ (oneRecipe env p pair.1).1.containerName with
    | none => rfl
    | some p₁ =>
        have hp₁ : p₁.offlineCurrBackupSize = p.offlineCurrBackupSize := by
          rw [size_oneContainer hold]
          rfl
        dsimp only
        cases hnew : Pass.oneContainer _ (oneRecipe env (p₁.mapDb _) pair.2).1.containerName with
        | none => exact hp₁
        | some p₂ =>
            have hp₂ : p₂.offlineCurrBackupSize = p₁.offlineCurrBackupSize := by
              rw [size_oneContainer hnew]
              rfl
            exact hp₂.trans hp₁

/-- A round of the loop over `local_basemap`. -/
theorem size_updatePair (henv : env.Lawful) (p : Pass) (pair : Fp × Fp) :
    (updatePair env p pair).offlineCurrBackupSize =
      (pairExchanges env (p, pair)).foldl Exchange.apply p.offlineCurrBackupSize := by
  have hcall := @size_rebaseCall env p pair
  unfold pairExchanges
  cases hk : rebaseCall env p pair with
  | none =>
      rw [hk] at hcall
      exact hcall
  | some k =>
      rw [hk] at hcall
      have hasked : (k.asked pair).2.offlineCurrBackupSize = p.offlineCurrBackupSize := hcall
      have hdeltas := foldl_visits (f := fun st : Bool × Pass => st.2.offlineCurrBackupSize)
        (fun st d => size_rebaseDelta henv (k.oldChunk env) (k.newChunk env) pair.2 st d)
        (k.asked pair).1 (true, (k.asked pair).2)
      dsimp only at hdeltas hcall ⊢
      rw [updatePair_of_call env hk, k.rebase_eq, size_convertBase, RebaseCall.exchanges,
        List.foldl_append, ← hasked, ← hdeltas]
      rfl

/-- Every pair meets the counter as the pairs before it have left it. -/
theorem tracks_updateLocal (henv : env.Lawful) (fuel : Nat) (p : Pass) :
    Tracks Pass.offlineCurrBackupSize Exchange.apply (pairExchanges env) p.offlineCurrBackupSize
      (updateLocalVisits env fuel p) := by
  induction fuel generalizing p with
  | zero => trivial
  | succ fuel ih =>
      rcases updateLocal_round env fuel p with ⟨-, hnone⟩ | ⟨batch, rest, p₁, p₂, hround⟩
      · rw [hnone]
        trivial
      · -- the pairs of the batch, then those of the batches after it
        have hpairs := tracks_visits (size_updatePair henv) (walkedPairs env batch) p₁
        have hbatch := foldl_visits (size_updatePair henv) (walkedPairs env batch) p₁
        rw [← hround.worked] at hbatch
        have hstart : p₁.offlineCurrBackupSize = p.offlineCurrBackupSize := by
          rw [hround.taken]
          rfl
        rw [hround.visits, ← hstart]
        refine hpairs.append ?_
        rw [← hbatch]
        exact ih _

end OFFLineBackward

theorem tracks_processOff (henv : env.Lawful) (s : Server) (m : PassResidue) :
    Tracks Pass.offlineCurrBackupSize Exchange.apply (OFFLineBackward.pairExchanges env)
      s.onlineBackupSize (processOffVisits env s m) := by
  unfold processOffVisits
  dsimp only
  split
  · exact OFFLineBackward.tracks_updateLocal henv _
      (Pass.start { s with db := s.db.localrevise env.walkOrder } m)
  · trivial

/-! ## What hangs on the bases that are replaced -/

/-- The base chunk that a chunk is stored with: the base of a delta chunk, or the
chunk itself. -/
def ownerOf (f : Fp) (e : RecipeEntry) : Fp := if e.deltaFlag = DELTA then e.basechunkHash else f

/-- The weight of the base chunks `olds` and of all their delta chunks. -/
def hanging (env : Env) (w : RecipeEntry → Nat) (olds : List Fp) (index : UMap Fp Cipher) : Nat :=
  totalOn (fun f v => if olds.contains (ownerOf f (env.decEntry v)) then w (env.decEntry v) else 0)
    index

section Hanging

variable {w : RecipeEntry → Nat} {olds olds' : List Fp} {index : UMap Fp Cipher} {f : Fp}
  {e moved : RecipeEntry}

theorem hanging_eq : hanging env w olds index =
    totalOn (fun f v => if ownerOf f (env.decEntry v) ∈ olds then w (env.decEntry v) else 0) index := by
  simp only [hanging, List.contains_iff_mem]

theorem hanging_subset (h : olds ⊆ olds') : hanging env w olds index ≤ hanging env w olds' index := by
  rw [hanging_eq, hanging_eq]
  refine totalOn_mono fun f v _ => ?_
  split_ifs with hin hin'
  · exact le_refl _
  · exact absurd (h hin) hin'
  · exact Nat.zero_le _
  · exact le_refl _

/-- A base counts for itself. -/
theorem hanging_cons (henv : env.Lawful) (hnot : f ∉ olds) (hf : index.lookup f = some (env.encEntry e))
    (he : e.deltaFlag ≠ DELTA) : w e + hanging env w olds index ≤ hanging env w (f :: olds) index := by
  have howner : ownerOf f e = f := if_neg he
  rw [hanging_eq, hanging_eq, totalOn_erase hf, totalOn_erase hf, henv.decEntry_encEntry, howner,
    if_neg hnot, if_pos (List.mem_cons_self ..), Nat.zero_add]
  rw [← hanging_eq, ← hanging_eq]
  exact Nat.add_le_add_left (hanging_subset (List.subset_cons_self f olds)) _

/-- A chunk that gets another base does not hang on the old ones any more. -/
theorem hanging_insert (henv : env.Lawful) (hf : index.lookup f = some (env.encEntry e))
    (hmoved : ownerOf f moved ∉ olds) :
    hanging env w olds (index.insert f (env.encEntry moved)) +
      (if ownerOf f e ∈ olds then w e else 0) = hanging env w olds index := by
  rw [hanging_eq, hanging_eq, totalOn_insert, totalOn_erase hf, henv.decEntry_encEntry,
    henv.decEntry_encEntry, if_neg hmoved, Nat.zero_add, Nat.add_comm]

end Hanging

namespace OFFLineBackward

section Paid

/-! An exchange costs at most what its chunk weighs, if the new delta is no
longer than a chunk can be. -/

variable {cost : Exchange → Nat} {w : RecipeEntry → Nat} {s₀ : Server} {abs₀ : Fp → Option Content}
  {news : Fp → Prop} {rest : List (Fp × Fp)} {pending : Fp → Prop} {old new : Fp} {cOld cNew : Content}
  {olds : List Fp}

theorem hanging_moveToHot (henv : env.Lawful) {p : Pass} {f : Fp} {e : RecipeEntry}
    (hf : p.server.db.queryBuffer f = some (env.encEntry e)) (hnew : new ∉ olds) {delta : Bytes}
    (hsmall : delta.length ≤ MAX_CHUNK_SIZE) (fp : Fp) (sf : Sf) (iv : Iv) :
    hanging env w olds (moveToHot env p f new e delta fp sf iv).server.db.indexObj +
      (if ownerOf f e ∈ olds then w e else 0) = hanging env w olds p.server.db.indexObj := by
  obtain ⟨moved, hflag, hbase, -, hidx⟩ := @indexObj_moveToHot env p f new e delta fp sf iv hsmall
  rw [hidx]
  refine hanging_insert henv hf ?_
  rw [ownerOf, if_pos hflag, hbase]
  exact hnew

variable (hcost : ∀ e : RecipeEntry, ∀ n ≤ MAX_CHUNK_SIZE, cost ⟨e.length.toNat, n⟩ ≤ w e)

include hcost

/-- A delta chunk that is re-encoded has hung on the old base. -/
theorem cost_rebaseDelta (henv : env.Lawful) {e : RecipeEntry} (hold : ¬ news old)
    (hin : old ∈ olds) (hnew : new ∉ olds) {v : (Bool × Pass) × Fp}
    (hv : Rebasing.DeltaTurn env s₀ abs₀ news rest pending old new cOld cNew e v) :
    ((deltaExchange env (env.unpackOffline cOld.data) (env.unpackOffline cNew.data) v).map
        cost).sum +
      hanging env w olds (rebaseDelta env (env.unpackOffline cOld.data)
        (env.unpackOffline cNew.data) new v.1 v.2).2.server.db.indexObj ≤
      hanging env w olds v.1.2.server.db.indexObj := by
  obtain ⟨st, f⟩ := v
  obtain ⟨F, abs, h, -, hf⟩ := hv
  obtain ⟨n, r, p, -, -, hidx, hc, hflag, hbase, hrecipe, hp, hsame, hdata, hkey⟩ :=
    h.readDelta henv hold hf
  unfold deltaExchange rebaseDelta
  dsimp only
  rw [hrecipe, hp, hdata, hkey]
  have hcases := @getNewDeltachunk_cases env p (r.content env).data
    (env.unpackOffline cOld.data) (env.unpackOffline cNew.data)
  have hsame' := hsame.trans (@samePass_getNewDeltachunk env p (r.content env).data
    (env.unpackOffline cOld.data) (env.unpackOffline cNew.data))
  generalize getNewDeltachunk env p (r.content env).data (env.unpackOffline cOld.data)
    (env.unpackOffline cNew.data) = q at hcases hsame' ⊢
  obtain ⟨made, q⟩ := q
  dsimp only at hcases hsame' ⊢
  rw [← hsame'.db]
  rcases hcases with rfl | ⟨rfl, hle⟩
  · simp
  · have hsmall := le_trans (not_lt.mp hle) (Rebasing.length_text (h.contents _ _ hc) hflag _)
    have howner : ownerOf f r.entry = old := (if_pos hflag).trans hbase
    have hmoved := @hanging_moveToHot env w new olds henv q f r.entry
      (by rw [hsame'.db]; exact hidx) hnew _ hsmall f (getChunkSF p.server.tmpOcallcontainer r.entry)
      (getChunkIV p.server.tmpOcallcontainer r.entry)
    rw [howner, if_pos hin] at hmoved
    have hpaid := hcost r.entry _ hsmall
    simp only [List.map_cons, List.map_nil, List.sum_cons, List.sum_nil]
    omega

/-- The old base counts for itself, and afterwards nothing is asked of it. -/
theorem cost_convertBase (henv : env.Lawful) (hout : old ∉ olds) (hnew : new ∉ olds)
    {st : Bool × Pass} {F : Containers} {abs : Fp → Option Content}
    (h : Rebasing env s₀ abs₀ news rest pending st.2 F abs) {e : RecipeEntry}
    (ht : Turn env st.2 abs pending old new cOld cNew e) (iv : Iv) :
    ((baseExchange env (env.unpackOffline cOld.data) (env.unpackOffline cNew.data) e st).map
        cost).sum +
      hanging env w olds (convertBase env (env.unpackOffline cOld.data)
        (env.unpackOffline cNew.data) (old, new) e iv st).server.db.indexObj ≤
      hanging env w (old :: olds) st.2.server.db.indexObj := by
  have hsame := @samePass_ed3EncodeBuffer env st.2 (env.unpackOffline cOld.data)
    (env.unpackOffline cNew.data)
  have hwhole : e.deltaFlag ≠ DELTA := by
    obtain ⟨d, n, r, -, -, hidx, hcontent⟩ := h.rep.found ht.known
    obtain rfl := henv.encEntry_inj (Option.some.inj (hidx.symm.trans ht.entry))
    have hno : r.entry.deltaFlag = NO_DELTA := by
      rw [← ht.whole, ← hcontent]
      rfl
    rw [hno]
    exact noDelta_ne_delta
  have hself := @hanging_cons env w olds st.2.server.db.indexObj old e henv hout ht.entry hwhole
  unfold baseExchange convertBase
  dsimp only
  split
  · rw [hsame.db, List.map_nil, List.sum_nil, Nat.zero_add]
    exact hanging_subset (List.subset_cons_self old olds)
  rename_i hle
  have hsmall := le_trans (not_lt.mp hle) (henv.length_unpackOffline (h.contents _ _ ht.known).size)
  have hpaid := hcost e _ hsmall
  have hsame' := hsame.trans (samePass_resize (ed3EncodeBuffer env st.2
    (env.unpackOffline cOld.data) (env.unpackOffline cNew.data)).2 e.length.toNat
    (ed3EncodeBuffer env st.2 (env.unpackOffline cOld.data) (env.unpackOffline cNew.data)).1.length)
  simp only [List.map_cons, List.map_nil, List.sum_cons, List.sum_nil]
  split
  · have hmoved := @hanging_moveToHot env w new olds henv _ old e
      (by rw [hsame'.db]; exact ht.entry) hnew _ hsmall old e.superfeature iv
    rw [ownerOf, if_neg hwhole, if_neg hout, Nat.add_zero, hsame'.db] at hmoved
    rw [hmoved]
    omega
  · rw [hsame'.db]
    omega

/-- **A pair** takes no more than what hangs on its old base. -/
theorem cost_updatePair (henv : env.Lawful) {v : Pass × (Fp × Fp)}
    (hv : Rebasing.Visited env s₀ abs₀ news v) (hout : v.2.1 ∉ olds) (hnew : v.2.2 ∉ v.2.1 :: olds) :
    ((pairExchanges env v).map cost).sum +
      hanging env w olds (updatePair env v.1 v.2).server.db.indexObj ≤
      hanging env w (v.2.1 :: olds) v.1.server.db.indexObj := by
  obtain ⟨p, old, new⟩ := v
  obtain ⟨rest, pending, pending', F, abs, hdue, hcreated⟩ := hv
  dsimp only at hdue hcreated hout hnew ⊢
  unfold pairExchanges
  dsimp only
  rcases hdue.cases henv with ⟨hcall, hgreedy⟩ | ⟨k, cOld, cNew, hcall, hok, hidx⟩
  · have hsame : (greedyPair env p (old, new)).server.db.indexObj = p.server.db.indexObj := by
      unfold greedyPair Pass.queryDeltaIndex InMemoryDatabase.queryDeltaIndex
      dsimp only
      split <;> rfl
    rw [hcall, hgreedy, hsame, List.map_nil, List.sum_nil, Nat.zero_add]
    exact hanging_subset (List.subset_cons_self old olds)
  · rw [updatePair_of_call env hcall, k.rebase_eq] at hcreated ⊢
    rw [hcall]
    dsimp only
    obtain ⟨⟨F', abs', h', hturn', -⟩, hvisits⟩ := hok.deltas henv hdue.isNew hdue.notNew
      (le_trans (created_convertBase _ _ _ _ _ _) hcreated)
    have hasked : (k.asked (old, new)).2.server.db.indexObj = p.server.db.indexObj := by
      rw [← hidx]
      unfold RebaseCall.asked Pass.queryDeltaIndex InMemoryDatabase.queryDeltaIndex
      dsimp only
      split <;> rfl
    -- the delta chunks of the old base, then the base itself
    have hdeltas := @sum_visits_le _ _ _ (rebaseDelta env (k.oldChunk env) (k.newChunk env) new)
      (deltaExchange env (k.oldChunk env) (k.newChunk env)) cost
      (fun st => hanging env w (old :: olds) st.2.server.db.indexObj)
      (k.asked (old, new)).1 (true, (k.asked (old, new)).2) fun v hv => by
        have hstep := cost_rebaseDelta hcost henv hdue.notNew (List.mem_cons_self ..) hnew
          (hvisits v hv)
        rw [← hok.oldChunk, ← hok.newChunk] at hstep
        exact hstep
    have hbase := cost_convertBase hcost henv hout (fun hin => hnew (List.mem_cons_of_mem _ hin)) h'
      hturn' (getChunkIV k.oldContainer k.oldRecipe)
    rw [← hok.oldChunk, ← hok.newChunk] at hbase
    rw [RebaseCall.exchanges, List.map_append, List.sum_append, ← hasked]
    exact (Nat.add_assoc ..).trans_le ((Nat.add_le_add_left hbase _).trans hdeltas)

/-- The pairs of a batch; `others` are the old bases behind them. -/
theorem cost_updatePairs (henv : env.Lawful) (l : List (Fp × Fp)) {others : List Fp} {p : Pass}
    (hnodup : (l.map Prod.fst ++ others).Nodup)
    (hapart : ∀ q ∈ l, q.2 ∉ l.map Prod.fst ++ others)
    (hv : ∀ v ∈ visits (updatePair env) p l, Rebasing.Visited env s₀ abs₀ news v) :
    (((visits (updatePair env) p l).flatMap (pairExchanges env)).map cost).sum +
      hanging env w others (l.foldl (updatePair env) p).server.db.indexObj ≤
      hanging env w (l.map Prod.fst ++ others) p.server.db.indexObj := by
  induction l generalizing p with
  | nil => exact le_of_eq (Nat.zero_add _)
  | cons q l ih =>
      rw [visits_cons, List.forall_mem_cons] at hv
      rw [List.map_cons, List.cons_append] at hnodup hapart ⊢
      obtain ⟨hout, hnodup'⟩ := List.nodup_cons.mp hnodup
      have hfirst := cost_updatePair hcost henv hv.1 hout (hapart q (List.mem_cons_self ..))
      have hrest := ih hnodup' (fun q' hq' hin => hapart q' (List.mem_cons_of_mem _ hq')
        (List.mem_cons_of_mem _ hin)) hv.2
      rw [visits_cons, List.flatMap_cons, List.map_append, List.sum_append, List.foldl_cons]
      dsimp only at hfirst
      omega

/-- **The pairs of a pass** take no more than what hangs on their old bases. -/
theorem cost_updateLocal (henv : env.Lawful) (fuel : Nat) {p : Pass}
    (hok : PairsOk news p.server.db.localMap)
    (hv : ∀ v ∈ updateLocalVisits env fuel p, Rebasing.Visited env s₀ abs₀ news v) :
    (((updateLocalVisits env fuel p).flatMap (pairExchanges env)).map cost).sum ≤
      hanging env w (p.server.db.localMap.map Prod.fst) p.server.db.indexObj := by
  induction fuel generalizing p with
  | zero => exact Nat.zero_le _
  | succ fuel ih =>
      rcases updateLocal_round env fuel p with ⟨-, hnone⟩ | ⟨batch, rest, p₁, p₂, hround⟩
      · rw [hnone]
        exact Nat.zero_le _
      · rw [hround.visits] at hv ⊢
        have hperm : p.server.db.localMap.Perm (walkedPairs env batch ++ rest) := by
          have hnodup := (hok.perm hround.perm).nodup
          rw [List.map_append] at hnodup
          have hwalk := @Rebasing.walk_batch_perm env batch (List.nodup_append.mp hnodup).1
          exact hround.perm.trans (hwalk.symm.append_right rest)
        have hwalked := hok.perm hperm
        have hnodup := hwalked.nodup
        rw [List.map_append] at hnodup
        -- no new base is an old one, of this batch or of a later one
        have hapart : ∀ q ∈ walkedPairs env batch,
            q.2 ∉ (walkedPairs env batch).map Prod.fst ++ rest.map Prod.fst := by
          intro q hq hin
          rw [← List.map_append] at hin
          obtain ⟨q', hq', heq⟩ := List.mem_map.mp hin
          exact (hwalked.apart q' hq').2
            (heq ▸ (hwalked.apart q (List.mem_append_left _ hq)).1)
        have hbatch := cost_updatePairs (w := w) hcost henv _ hnodup hapart
          fun v hmem => hv v (List.mem_append_left _ hmem)
        have hlater := ih (p := p₂)
          (by
            rw [hround.rest]
            exact ⟨(List.nodup_append.mp hnodup).2.1,
              fun q hq => hwalked.apart q (List.mem_append_right _ hq)⟩)
          fun v hmem => hv v (List.mem_append_right _ hmem)
        rw [hround.rest, hround.worked] at hlater
        have hstart : p₁.server.db.indexObj = p.server.db.indexObj := by
          rw [hround.taken]
          rfl
        rw [hstart] at hbatch
        rw [List.flatMap_append, List.map_append, List.sum_append, hround.worked]
        refine ((Nat.add_le_add_left hlater _).trans hbatch).trans (hanging_subset ?_)
        rw [← List.map_append]
        exact List.map_subset _ fun q hq => hperm.mem_iff.mpr hq

end Paid

end OFFLineBackward

/-- The weight of the bases that the log replaces, and of their delta chunks. -/
def Server.replaced (env : Env) (w : RecipeEntry → Nat) (s : Server) : Nat :=
  hanging env w ((s.revisedLog env).map Prod.fst) s.db.indexObj

/-- **A pass** takes no more than what is replaced. -/
theorem cost_processOff {cost : Exchange → Nat} {w : RecipeEntry → Nat}
    (hcost : ∀ e : RecipeEntry, ∀ n ≤ MAX_CHUNK_SIZE, cost ⟨e.length.toNat, n⟩ ≤ w e)
    (henv : env.Lawful) {s : Server} {F : Containers} {abs : Fp → Option Content}
    (h : Rest env s F abs) (m : PassResidue) (hcreated : (processOff env s m).created ≤ 2 ^ 31) :
    ((processOffExchanges env s m).map cost).sum ≤ s.replaced env w := by
  unfold processOffExchanges processOffVisits
  dsimp only
  rw [processOff_eq] at hcreated
  split at hcreated
  · rename_i hon
    rw [if_pos hon]
    exact OFFLineBackward.cost_updateLocal hcost henv _ (p := .revised env s m)
      (h.ledger.log.pairsOk h.ledger.idle.localMap) (h.updateLocal henv m hcreated).2
  · rename_i hoff
    rw [if_neg hoff]
    exact Nat.zero_le _

/-! ## Sessions -/

/-- `_onlineCompress_size` and `_offlineCompress_size`. -/
structure SizeInfo where
  onlineCompressSize : UInt64
  offlineCompressSize : UInt64

/-- `_onlineCompress_size` gets the same additions as `_onlineBackupSize`. -/
def Upload.sizeInfo (env : Env) (s : Server) (u : Upload) (i : SizeInfo) : SizeInfo :=
  { i with onlineCompressSize := i.onlineCompressSize +
      ((s.receiveUpload env u true).onlineBackupSize - s.onlineBackupSize) }

/-- `ProcessOffline` copies the size, and the pass changes the copy. -/
def processOffSizes (env : Env) (s : Server) (m : PassResidue) (i : SizeInfo) : SizeInfo :=
  { i with offlineCompressSize :=
      (processOffExchanges env s m).foldl Exchange.apply i.onlineCompressSize }

/-- `Ecall_UpdateOnlineInfo`. -/
def SizeInfo.updateOnlineInfo (i : SizeInfo) : SizeInfo :=
  { i with onlineCompressSize := i.offlineCompressSize }

/-- A server and its sizes. -/
structure SizedServer where
  server : Server
  info : SizeInfo

namespace SizedServer

variable (env : Env)

def boot (m : Residue) : SizedServer := ⟨.boot env m, ⟨0, 0⟩⟩

def serve (t : SizedServer) (e : Event) : SizedServer where
  server := t.server.serve env e
  info := match e with
    | .upload u => (u.sizeInfo env t.server t.info).updateOnlineInfo
    | .offline u m => (processOffSizes env (t.server.receiveUpload env u true) m
        (u.sizeInfo env t.server t.info)).updateOnlineInfo

/-- No subtraction in the pass of the session underflows, and wherever the pass
compares the size of the backup, it is the real one. -/
def Holds (t : SizedServer) : Event → Prop
  | .upload _ => True
  | .offline u m =>
      let s := t.server.receiveUpload env u true
      NoUnderflow s.onlineBackupSize (processOffExchanges env s m) ∧
      NoUnderflow (u.sizeInfo env t.server t.info).onlineCompressSize (processOffExchanges env s m) ∧
      ∀ done v rest, processOffVisits env s m = done ++ v :: rest →
        v.1.offlineCurrBackupSize.toNat + taken (done.flatMap (OFFLineBackward.pairExchanges env)) =
          s.onlineBackupSize.toNat + given (done.flatMap (OFFLineBackward.pairExchanges env))

/-- The session's upload has stored at least as much as the bases that the log
replaces and their delta chunks, before the pass. -/
def CoveredPass (t : SizedServer) : Event → Prop
  | .upload _ => True
  | .offline u _ =>
      let s := t.server.receiveUpload env u true
      s.replaced env (fun e => e.length.toNat) ≤ s.onlineBackupSize.toNat

instance (t : SizedServer) : (e : Event) → Decidable (t.CoveredPass env e)
  | .upload _ => isTrue trivial
  | .offline u _ => inferInstanceAs (Decidable
      ((t.server.receiveUpload env u true).replaced env (fun e => e.length.toNat) ≤
        (t.server.receiveUpload env u true).onlineBackupSize.toNat))

/-- What is stored fits into 64 bits, and so it does with a new delta of the size
of a chunk for each chunk that may be re-encoded. -/
def Fits (t : SizedServer) : Event → Prop
  | .upload _ => True
  | .offline u _ =>
      let s := t.server.receiveUpload env u true
      t.info.onlineCompressSize.toNat + s.onlineBackupSize.toNat +
        s.replaced env (fun _ => MAX_CHUNK_SIZE) < 2 ^ 64

instance (t : SizedServer) : (e : Event) → Decidable (t.Fits env e)
  | .upload _ => isTrue trivial
  | .offline u _ => inferInstanceAs (Decidable (t.info.onlineCompressSize.toNat +
      (t.server.receiveUpload env u true).onlineBackupSize.toNat +
        (t.server.receiveUpload env u true).replaced env (fun _ => MAX_CHUNK_SIZE) < 2 ^ 64))

variable {env}

/-- One pass. -/
theorem holds_offline (henv : env.Lawful) {t : SizedServer} (hzero : t.server.onlineBackupSize = 0)
    {u : Upload} {m : PassResidue} {F : Containers} {abs : Fp → Option Content}
    (hrest : Rest env (t.server.receiveUpload env u true) F abs)
    (hcreated : (processOff env (t.server.receiveUpload env u true) m).created ≤ 2 ^ 31)
    (hcovered : t.CoveredPass env (.offline u m)) (hfits : t.Fits env (.offline u m)) :
    t.Holds env (.offline u m) := by
  have htaken := @cost_processOff env Exchange.taken (fun e => e.length.toNat)
    (fun _ _ _ => le_refl _) henv _ F abs hrest m hcreated
  have hgiven := @cost_processOff env Exchange.given (fun _ => MAX_CHUNK_SIZE)
    (fun _ _ hle => hle) henv _ F abs hrest m hcreated
  unfold CoveredPass at hcovered
  unfold Fits at hfits
  unfold Holds
  dsimp only at hcovered hfits ⊢
  have htracks := tracks_processOff henv (t.server.receiveUpload env u true) m
  have hcompress : (u.sizeInfo env t.server t.info).onlineCompressSize.toNat =
      t.info.onlineCompressSize.toNat +
        (t.server.receiveUpload env u true).onlineBackupSize.toNat := by
    rw [Upload.sizeInfo, hzero, UInt64.sub_zero, UInt64.toNat_add]
    exact Nat.mod_eq_of_lt (by omega)
  have hexchanges : processOffExchanges env (t.server.receiveUpload env u true) m =
    (processOffVisits env (t.server.receiveUpload env u true) m).flatMap
      (OFFLineBackward.pairExchanges env) := rfl
  generalize processOffExchanges env (t.server.receiveUpload env u true) m = xs at *
  generalize t.server.receiveUpload env u true = s at *
  have hall : Covered s.onlineBackupSize.toNat xs := covered_of_taken_le (htaken.trans hcovered)
  have hgiven' : given xs ≤ s.replaced env fun _ => MAX_CHUNK_SIZE := hgiven
  have hno : NoUnderflow s.onlineBackupSize xs := (noUnderflow_iff (by omega)).mpr hall
  refine ⟨hno, (noUnderflow_iff (by rw [hcompress]; omega)).mpr (hall.mono ?_), ?_⟩
  · rw [hcompress]
    exact Nat.le_add_left _ _
  · intro done v rest hsplit
    rw [hexchanges, hsplit, List.flatMap_append] at hno hgiven'
    rw [given_append] at hgiven'
    rw [hsplit] at htracks
    rw [htracks.at]
    exact toNat_foldl_apply (by omega) (noUnderflow_append.mp hno).1

/-- Every session begins with a backup of size 0. -/
theorem zero_serve (t : SizedServer) (e : Event) : (t.serve env e).server.onlineBackupSize = 0 := by
  cases e <;> rfl

/-- Sessions one after the other. -/
theorem holds_sessions (henv : env.Lawful) : ∀ (es : List Event) {t : SizedServer} {F : Containers}
    {abs : Fp → Option Content}, Rest env t.server F abs → t.server.onlineBackupSize = 0 →
    (t.server.run env es).Counts →
    (∀ v ∈ visits (serve env) t es, v.1.CoveredPass env v.2 ∧ v.1.Fits env v.2) →
    ∀ v ∈ visits (serve env) t es, v.1.Holds env v.2
  | [], _, _, _, _, _, _, _ => fun v hv => by cases hv
  | e :: es, t, F, abs, h, hzero, hcounts, hsteps => by
      rw [visits_cons, List.forall_mem_cons] at hsteps ⊢
      obtain ⟨hcovered, hfits⟩ := hsteps.1
      have hle : (t.server.serve env e).Counts := le_trans (created_run henv es _) hcounts
      have hsession : t.Holds env e ∧ ∃ F' abs', Rest env (t.server.serve env e) F' abs' := by
        cases e with
        | upload u =>
            obtain ⟨F', abs', h', -, -⟩ := h.upload (P := fun _ => True) henv u (fun _ _ => trivial) hle
            exact ⟨trivial, F', abs', h'.updateOnlineInfo⟩
        | offline u m =>
            obtain ⟨F₁, abs₁, h₁, -, -⟩ := h.upload (P := fun _ => True) henv u (fun _ _ => trivial)
              (le_trans (created_processOff env _ m) hle)
            obtain ⟨F', abs', h', -, -⟩ := h₁.processOff henv m hle
            exact ⟨holds_offline henv hzero h₁ hle hcovered hfits, F', abs', h'.updateOnlineInfo⟩
      obtain ⟨hholds, F', abs', h'⟩ := hsession
      exact ⟨hholds, holds_sessions henv es (t := t.serve env e) h' (zero_serve t e) hcounts hsteps.2⟩

/-- **The sizes never wrap** in the runs before each of whose passes the session's
upload has stored as much as the chunks that the pass may re-encode. -/
theorem sizes_covered (henv : env.Lawful) (m : Residue) (es : List Event)
    (hcounts : ((Server.boot env m).run env es).Counts)
    (hsteps : ∀ v ∈ visits (serve env) (boot env m) es, v.1.CoveredPass env v.2 ∧ v.1.Fits env v.2) :
    ∀ v ∈ visits (serve env) (boot env m) es, v.1.Holds env v.2 :=
  holds_sessions henv es (t := boot env m) (.boot env m) rfl hcounts hsteps

/-- The size of the backup, in the pass of a second session. -/
theorem noUnderflow_second {t : SizedServer} {e : Event} {u : Upload} {m : PassResidue}
    (h : ∀ v ∈ visits (serve env) t [e, .offline u m], v.1.Holds env v.2) :
    decide (NoUnderflow ((serve env t e).server.receiveUpload env u true).onlineBackupSize
      (processOffExchanges env ((serve env t e).server.receiveUpload env u true) m)) = true :=
  decide_eq_true (h (serve env t e, .offline u m)
    (List.mem_cons_of_mem _ (List.mem_cons_self ..))).1

/-- The second chunk is as long as the first one. -/
theorem sizes_covered_similar : decide (NoUnderflow
    ((serve .plain (boot .plain blankResidue) (.upload (similarUpload 1))).server.receiveUpload .plain
      (similarUpload 2) true).onlineBackupSize
    (processOffExchanges .plain
      ((serve .plain (boot .plain blankResidue) (.upload (similarUpload 1))).server.receiveUpload
        .plain (similarUpload 2) true) ⟨zeroCipher, 0, [], []⟩)) = true :=
  noUnderflow_second (sizes_covered Env.lawful_plain blankResidue
    [.upload (similarUpload 1), .offline (similarUpload 2) ⟨zeroCipher, 0, [], []⟩]
    (by unfold Server.Counts; decide +kernel) (by decide +kernel))

/-- A file of one chunk. -/
def uploadOf (k : UInt8) (c : Chunk) : Upload :=
  { similarUpload k with batches := [⟨[c], fun _ => RecipeEntry.ofBytes []⟩] }

/-- A chunk, and one that has it twice. -/
def onceChunk : Chunk := ⟨(List.range 20).map UInt8.ofNat, by simp [MAX_CHUNK_SIZE]⟩

def twiceChunk : Chunk := ⟨onceChunk.1 ++ onceChunk.1, by simp [onceChunk, MAX_CHUNK_SIZE]⟩

/-- The session stores 20 bytes, and its pass takes the 40 bytes of the old chunk
from them. -/
theorem not_holds_twiceChunk : ¬ ∀ v ∈ visits (serve .plain) (boot .plain blankResidue)
    [.upload (uploadOf 1 twiceChunk), .offline (uploadOf 2 onceChunk) ⟨zeroCipher, 0, [], []⟩],
      v.1.Holds .plain v.2 := by
  intro h
  have hpass := noUnderflow_second h
  revert hpass
  decide +kernel

end SizedServer

end ShieldReduce
