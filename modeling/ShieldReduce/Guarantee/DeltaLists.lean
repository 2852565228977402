import ShieldReduce.Guarantee.Replay
import ShieldReduce.Invariant.Offline
import ShieldReduce.Invariant.Upload
import ShieldReduce.System.DeltaIndex

/-!
# The exchange buffer for delta chunks

`Ocall_QueryDeltaIndex` copies the delta chunks of a base behind its
fingerprint into `_process_buffer`, which has room for 100000
fingerprints. Nothing limits how many delta chunks a base may have: every
chunk that is encoded against it makes its list longer by one, and a pass
moves the list of a base that is replaced to the new base, which may get
several lists. The lists stay within the buffer as long as the uploads bring
fewer than 100000 chunks together, and in any longer run before each of whose
sessions there is room for what the session brings (`Server.deltas_fit`).
-/

namespace ShieldReduce

open ByteLib UMapLib LoopLib DrawerLib

variable {env : Env}

/-! ## The index goes through the accesses -/

namespace InMemoryDatabase

theorem deltas_insertDeltaIndex (db : InMemoryDatabase) (base delta : Fp) :
    (db.insertDeltaIndex base delta).deltas = apply db.deltas (.push base delta) := by
  funext b
  rw [deltas, insertDeltaIndex, getList_pushBack, apply, Function.update_apply]
  rfl

theorem deltas_queryDeltaIndex (db : InMemoryDatabase) (base : Fp) :
    (db.queryDeltaIndex base).2.deltas = apply db.deltas (.take base) := by
  funext b
  rw [apply, Function.update_apply, queryDeltaIndex]
  cases hl : db.deltaIndex.lookup base with
  | some result => exact getList_erase _ _ _
  | none =>
      dsimp only
      split
      · rename_i hb
        rw [deltas, hb, lookup_eq_none_iff_getList.mp hl]
      · rfl

end InMemoryDatabase

namespace EcallFreqIndex

theorem deltas_foldl_updateOutIndex (os : List OutQueryEntry) (db : InMemoryDatabase) :
    (os.foldl updateOutIndex db).deltas = db.deltas := by
  refine foldl_inv (I := fun db' : InMemoryDatabase => db'.deltas = db.deltas) ?_ os db rfl
  intro db' o h
  unfold updateOutIndex
  split
  · dsimp only
    split <;> exact h
  · exact h

theorem deltas_applied (localFlag : Bool) (db : InMemoryDatabase) (st : Storing) :
    (applied localFlag db st).deltas =
      (if localFlag then [] else st.processBuffer.map fun p => Access.push p.1 p.2).foldl apply
        db.deltas := by
  rw [applied, deltas_foldl_updateOutIndex, insertPairs]
  cases localFlag with
  | true =>
      refine foldl_inv (I := fun db' : InMemoryDatabase => db'.deltas = db.deltas) ?_
        st.batchBasemap db rfl
      exact fun db' p h => h
  | false =>
      simp only [Bool.false_eq_true, if_false, List.foldl_map]
      induction st.processBuffer generalizing db with
      | nil => rfl
      | cons p ps ih => rw [List.foldl_cons, ih, db.deltas_insertDeltaIndex, List.foldl_cons]

/-- Storing a chunk does not touch the index store. -/
theorem db_storeEntry (recvBuffer : Bytes) (localFlag : Bool) (st : Storing) (e : InQueryEntry) :
    (storeEntry env recvBuffer localFlag st e).session.server.db = st.session.server.db := by
  unfold storeEntry
  dsimp only
  rw [server_updateFileRecipe]
  split
  · rename_i o _
    split
    · rfl
    · rw [(storeUnique_call env recvBuffer localFlag st e o).1]
      refine (carried_processSheUniqueChunk ..).1.db.trans ?_
      obtain ⟨b, c, calls, table, hsession⟩ := session_uniqueCall env recvBuffer localFlag st e o
      rw [hsession]
  · rfl

theorem deltas_processOneBatch (s : Session) (data : Bytes) (chunkNum : Nat)
    (stale : Nat → RecipeEntry) :
    (processOneBatch env s data chunkNum stale).server.db.deltas =
      (batchAccesses env s data chunkNum stale).foldl apply s.server.db.deltas := by
  unfold processOneBatch batchAccesses
  dsimp only
  rw [db_finishBatch, deltas_applied]
  congr 1
  refine congrArg InMemoryDatabase.deltas ?_
  refine foldl_inv (I := fun st : Storing => st.session.server.db = s.server.db) ?_ _ _ rfl
  exact fun st e h => (db_storeEntry _ _ st e).trans h

end EcallFreqIndex

theorem Session.deltas_receive (s : Session) (m : Message) :
    (s.receive env m).server.db.deltas = (s.accesses env m).foldl apply s.server.db.deltas := by
  cases m with
  | chunk data currentItemNum stale =>
      exact EcallFreqIndex.deltas_processOneBatch s data currentItemNum stale
  | recipeEnd head =>
      show (EcallFreqIndex.processTailBatch env s).server.db.deltas = s.server.db.deltas
      rw [EcallFreqIndex.server_processTailBatch]

theorem Server.db_receiveUpload (s : Server) (u : Upload) : (s.receiveUpload env u true).db =
    ((u.messages env true).foldl (Session.receive env) (Session.start s u.login)).server.db :=
  (Session.closed_close _).db

theorem Server.deltas_receiveUpload (s : Server) (u : Upload) :
    (s.receiveUpload env u true).db.deltas = (u.accesses env s).foldl apply s.db.deltas := by
  rw [s.db_receiveUpload]
  exact foldl_visits (f := fun t : Session => t.server.db.deltas)
    (fun t m => @Session.deltas_receive env t m) _ _

/-! ### Passes -/

namespace OFFLineBackward

theorem deltas_moveToHot (p : Pass) (f new : Fp) (e : RecipeEntry) (delta : Bytes) (fp : Fp)
    (sf : Sf) (iv : Iv) : (moveToHot env p f new e delta fp sf iv).server.db.deltas =
      apply p.server.db.deltas (.push new f) := by
  obtain ⟨q, hq, heq⟩ := p.insertHotContainer_cases (env.encryptWithKeyIV delta iv)
    { e with length := UInt32.ofNat delta.length, basechunkHash := new } fp sf iv
  unfold moveToHot
  rw [heq]
  rcases hq with ⟨rfl, -⟩ | rfl <;> exact InMemoryDatabase.deltas_insertDeltaIndex _ new f

theorem deltas_rebaseDelta (oldChunk newChunk : Bytes) (new : Fp) (st : Bool × Pass) (f : Fp) :
    (rebaseDelta env oldChunk newChunk new st f).2.server.db.deltas =
      (rebaseDeltaAccesses env oldChunk newChunk new (st, f)).foldl apply
        st.2.server.db.deltas := by
  have hread := ((@samePass_oneRecipe env st.2 f).trans (samePass_askFor _
    (oneRecipe env st.2 f).1.containerName)).trans (samePass_oneDeltaContainer _
      (oneRecipe env st.2 f).1.containerName)
  unfold rebaseDelta rebaseDeltaAccesses
  dsimp only
  generalize Pass.oneDeltaContainer _ _ = p at hread ⊢
  generalize env.decryptionWithKeyIV _ _ = delta
  have hmade := hread.trans (@samePass_getNewDeltachunk env p delta oldChunk newChunk)
  generalize getNewDeltachunk env p delta oldChunk newChunk = q at hmade ⊢
  obtain ⟨made, q⟩ := q
  cases made with
  | none => exact congrArg InMemoryDatabase.deltas hmade.db
  | some newDelta =>
      dsimp only
      rw [deltas_moveToHot, hmade.db]
      rfl

theorem deltas_convertBase (oldChunk newChunk : Bytes) (pair : Fp × Fp) (e : RecipeEntry) (iv : Iv)
    (st : Bool × Pass) :
    (convertBase env oldChunk newChunk pair e iv st).server.db.deltas =
      (convertBaseAccesses env oldChunk newChunk pair st).foldl apply st.2.server.db.deltas := by
  have hmade := @samePass_ed3EncodeBuffer env st.2 oldChunk newChunk
  unfold convertBase convertBaseAccesses
  dsimp only
  generalize ed3EncodeBuffer env st.2 oldChunk newChunk = q at hmade ⊢
  obtain ⟨delta, q⟩ := q
  split_ifs with hlonger hall
  · exact congrArg InMemoryDatabase.deltas hmade.db
  · rw [deltas_moveToHot, (samePass_resize q e.length.toNat delta.length).db, hmade.db]
    rfl
  · exact congrArg InMemoryDatabase.deltas
      ((samePass_resize q e.length.toNat delta.length).db.trans hmade.db)

/-- The pass as it comes to the re-encoding of a pair. -/
theorem deltas_rebaseCall {p : Pass} {pair : Fp × Fp} {k : RebaseCall}
    (h : rebaseCall env p pair = some k) : k.pass.server.db.deltas = p.server.db.deltas := by
  unfold rebaseCall at h
  split at h
  · cases h
  · dsimp only at h
    split at h
    · cases h
    · rename_i p₁ hp₁
      obtain ⟨file, -, rfl⟩ := Option.map_eq_some_iff.mp hp₁
      split at h
      · cases h
      · rename_i p₂ hp₂
        obtain ⟨file', -, rfl⟩ := Option.map_eq_some_iff.mp hp₂
        obtain rfl := Option.some.inj h
        rfl

/-- A pair whose containers are missing leaves the index alone. -/
theorem deltas_of_no_call {p : Pass} {pair : Fp × Fp} (hsize : ¬ p.offlineCurrBackupSize ≤ 0)
    (h : rebaseCall env p pair = none) :
    (updatePair env p pair).server.db.deltas = p.server.db.deltas := by
  unfold rebaseCall at h
  unfold updatePair
  rw [if_neg hsize] at h ⊢
  cases hone : ((oneRecipe env p pair.1).2.askFor (oneRecipe env p pair.1).1.containerName)
      |>.oneContainer (oneRecipe env p pair.1).1.containerName with
  | none => simp only [hone]; rfl
  | some p₁ =>
      simp only [hone] at h ⊢
      obtain ⟨file, -, rfl⟩ := Option.map_eq_some_iff.mp hone
      generalize hasked : Pass.askFor _ _ = q at h ⊢
      cases hother : q.oneContainer _ with
      | none =>
          rw [← hasked]
          rfl
      | some p₂ =>
          rw [hother] at h
          cases h

theorem deltas_updatePair (p : Pass) (pair : Fp × Fp) :
    (updatePair env p pair).server.db.deltas =
      (pairAccesses env (p, pair)).foldl apply p.server.db.deltas := by
  unfold pairAccesses
  dsimp only
  split
  · rename_i hgreedy
    unfold updatePair
    rw [if_pos hgreedy]
    unfold greedyPair
    exact InMemoryDatabase.deltas_queryDeltaIndex _ pair.1
  · rename_i hsize
    cases hk : rebaseCall env p pair with
    | none => exact deltas_of_no_call hsize hk
    | some k =>
        have hasked : (k.asked pair).2.server.db.deltas =
            apply p.server.db.deltas (.take pair.1) := by
          rw [← deltas_rebaseCall hk]
          exact InMemoryDatabase.deltas_queryDeltaIndex _ pair.1
        have hdeltas : (k.afterDeltas env pair).2.server.db.deltas = _ :=
          foldl_visits (f := fun st : Bool × Pass => st.2.server.db.deltas)
            (fun st d => deltas_rebaseDelta (k.oldChunk env) (k.newChunk env) pair.2 st d)
            (k.asked pair).1 (true, (k.asked pair).2)
        dsimp only at hdeltas ⊢
        rw [updatePair_of_call env hk, k.rebase_eq, deltas_convertBase, RebaseCall.accesses,
          List.foldl_cons, List.foldl_append, hdeltas, hasked]

theorem deltas_updateLocal (fuel : Nat) (p : Pass) :
    (updateLocal env fuel p).server.db.deltas =
      ((updateLocalVisits env fuel p).flatMap (pairAccesses env)).foldl apply
        p.server.db.deltas := by
  induction fuel generalizing p with
  | zero => rfl
  | succ fuel ih =>
      rcases updateLocal_round env fuel p with ⟨hstop, hnone⟩ | ⟨batch, rest, p₁, p₂, hround⟩
      · rw [hstop, hnone]
        rfl
      · have hbatch := foldl_visits (f := fun p : Pass => p.server.db.deltas)
          (@deltas_updatePair env) (walkedPairs env batch) p₁
        have hstart : p₁.server.db.deltas = p.server.db.deltas := by
          rw [hround.taken]
          rfl
        rw [← hround.worked, hstart] at hbatch
        rw [hround.goesOn, hround.visits, List.flatMap_append, List.foldl_append, ih, hbatch]

end OFFLineBackward

theorem deltas_processOff (s : Server) (m : PassResidue) :
    (processOff env s m).db.deltas = (processOffAccesses env s m).foldl apply s.db.deltas := by
  have hrevised : (s.db.localrevise env.walkOrder).deltas = s.db.deltas := rfl
  unfold processOff processOffAccesses processOffVisits EcallFreqIndex.processOffline
  dsimp only
  split
  · refine (congrArg getList (OFFLineBackward.sameRest_easyUpdate _).deltaIndex).trans ?_
    exact (OFFLineBackward.deltas_updateLocal _ _).trans (by rw [← hrevised]; rfl)
  · rfl

theorem Server.db_serve_upload (s : Server) (u : Upload) :
    (s.serve env (.upload u)).db = (s.receiveUpload env u true).db := by
  rw [Server.serve, Server.updateOnlineInfo]

theorem Server.db_serve_offline (s : Server) (u : Upload) (m : PassResidue) :
    (s.serve env (.offline u m)).db = (processOff env (s.receiveUpload env u true) m).db := by
  rw [Server.serve, Server.updateOnlineInfo]

/-- A session. -/
theorem Server.deltas_serve (s : Server) (e : Event) :
    (s.serve env e).db.deltas = (s.accesses env e).foldl apply s.db.deltas := by
  cases e with
  | upload u => rw [s.db_serve_upload, s.deltas_receiveUpload, Server.accesses]
  | offline u m =>
      rw [s.db_serve_offline, deltas_processOff, Server.accesses, List.foldl_append,
        s.deltas_receiveUpload]

/-! ## What an upload inserts -/

namespace EcallFreqIndex

/-- A round of the store loop notes at most one pair. -/
theorem length_storeEntry (recvBuffer : Bytes) (localFlag : Bool) (st : Storing) (e : InQueryEntry) :
    (storeEntry env recvBuffer localFlag st e).processBuffer.length ≤ st.processBuffer.length + 1 ∧
      (storeEntry env recvBuffer localFlag st e).batchBasemap.length ≤
        st.batchBasemap.length + 1 := by
  have hpairs : ∀ o, (offlinedeltaTure localFlag st.session.server e o).2.2.length ≤ 1 := by
    intro o
    unfold offlinedeltaTure
    dsimp only
    split
    · simp
    · split
      · split
        · simp
        · split
          · simp
          · split <;> simp
      · simp
  unfold storeEntry
  dsimp only
  cases e.out with
  | none => exact ⟨Nat.le_succ _, Nat.le_succ _⟩
  | some o =>
      dsimp only
      split
      · exact ⟨Nat.le_succ _, Nat.le_succ _⟩
      · have hlogged := hpairs o
        unfold storeUnique
        dsimp only
        generalize (offlinedeltaTure localFlag st.session.server e o).2.2 = logged at hlogged ⊢
        split
        · simp only [List.length_append, List.length_singleton]
          omega
        · simp only [List.length_append, List.length_nil]
          omega

theorem length_foldl_storeEntry (recvBuffer : Bytes) (localFlag : Bool) (es : List InQueryEntry)
    (st : Storing) :
    (es.foldl (storeEntry env recvBuffer localFlag) st).processBuffer.length ≤
        st.processBuffer.length + es.length ∧
      (es.foldl (storeEntry env recvBuffer localFlag) st).batchBasemap.length ≤
        st.batchBasemap.length + es.length := by
  induction es generalizing st with
  | nil => exact ⟨le_refl _, le_refl _⟩
  | cons e es ih =>
      obtain ⟨hprocess, hlogged⟩ := @length_storeEntry env recvBuffer localFlag st e
      obtain ⟨hprocess', hlogged'⟩ := ih (storeEntry env recvBuffer localFlag st e)
      rw [List.foldl_cons, List.length_cons]
      omega

end EcallFreqIndex

/-- How many base replacements the log and the pairs for a pass hold. -/
def InMemoryDatabase.logSize (db : InMemoryDatabase) : Nat :=
  (pairs db.localTmpMap).length + listed db.skipMap + db.localMap.length

theorem InMemoryDatabase.logSize_localInsert (db : InMemoryDatabase) (old new : Fp) :
    (db.localInsert old new).logSize = db.logSize + 1 := by
  have hone : ∀ m : UMap Fp Fp, (pairs m).length = total (fun _ => 1) m := fun m => by
    simp only [total, List.map_const', List.sum_replicate_nat, Nat.mul_one]
  have hmap : (db.localInsert old new).localMap = db.localMap := rfl
  have htmp : (db.localInsert old new).localTmpMap = db.localTmpMap.insert old new := rfl
  rw [logSize, logSize, hmap, htmp, hone, hone]
  unfold localInsert
  dsimp only
  cases hold : db.localTmpMap.lookup old with
  | none =>
      dsimp only
      rw [total_insert_new hold]
      omega
  | some earlier =>
      dsimp only
      rw [listed_pushBack, total_insert, total_erase hold]
      omega

/-- The revised log has no more pairs than the log. -/
theorem InMemoryDatabase.length_localrevise_le (w : WalkOrder) (db : InMemoryDatabase) :
    (db.localrevise w).localMap.length ≤ db.logSize := by
  have hkeys : (pairs (greedyBasemap w db)).length ≤
      ((pairs db.localTmpMap).flatMap fun p => p.1 :: getList db.skipMap p.1).length := by
    rw [← List.length_map Prod.fst]
    refine (List.subperm_of_subset (pairs_nodup_fst _) fun old hold => ?_).length_le
    obtain ⟨⟨old, new⟩, hpair, rfl⟩ := List.mem_map.mp hold
    rcases replaces_of_greedyBasemap (mem_pairs.mp hpair) with hlast | ⟨base, hlast, hskip⟩
    · exact List.mem_flatMap.mpr ⟨_, mem_pairs.mpr hlast, List.mem_cons_self ..⟩
    · exact List.mem_flatMap.mpr ⟨_, mem_pairs.mpr hlast, List.mem_cons_of_mem _ hskip⟩
  have hskip := @sum_length_getList_le _ _ _ ((pairs db.localTmpMap).map Prod.fst) db.skipMap
    (pairs_nodup_fst _)
  rw [List.map_map] at hskip
  have hsum : ((pairs db.localTmpMap).flatMap fun p => p.1 :: getList db.skipMap p.1).length =
      (pairs db.localTmpMap).length +
        ((pairs db.localTmpMap).map ((fun k => (getList db.skipMap k).length) ∘ Prod.fst)).sum := by
    induction pairs db.localTmpMap with
    | nil => rfl
    | cons p l ih =>
        rw [List.flatMap_cons, List.length_append, ih, List.length_cons, List.length_cons,
          List.map_cons, List.sum_cons, Function.comp_apply]
        omega
  simp only [localrevise, List.length_append, List.length_mergeSort, (w.perm _).length_eq, logSize]
  omega

theorem EcallFreqIndex.logSize_applied (localFlag : Bool) (db : InMemoryDatabase) (st : Storing) :
    (applied localFlag db st).logSize =
      db.logSize + if localFlag then st.batchBasemap.length else 0 := by
  have hindex : ∀ (os : List OutQueryEntry) (db : InMemoryDatabase),
      (os.foldl updateOutIndex db).logSize = db.logSize := by
    intro os db
    refine foldl_inv (I := fun db' : InMemoryDatabase => db'.logSize = db.logSize) ?_ os db rfl
    intro db' o h
    unfold updateOutIndex
    split
    · dsimp only
      split <;> exact h
    · exact h
  rw [applied, hindex, insertPairs]
  cases localFlag with
  | false =>
      simp only [Bool.false_eq_true, if_false]
      refine foldl_inv (I := fun db' : InMemoryDatabase => db'.logSize = db.logSize) ?_
        st.processBuffer db rfl
      exact fun db' p h => h
  | true =>
      simp only [if_true]
      induction st.batchBasemap generalizing db with
      | nil => rfl
      | cons p ps ih =>
          rw [List.foldl_cons, ih, db.logSize_localInsert, List.length_cons]
          omega

/-- The chunks that come in with a message. -/
def Message.chunkNum : Message → Nat
  | .chunk _ currentItemNum _ => currentItemNum
  | .recipeEnd _ => 0

theorem Upload.sum_chunkNum (env : Env) (u : Upload) :
    ((u.messages env true).map Message.chunkNum).sum = u.chunks.length := by
  rw [messages, if_pos rfl, List.map_append, List.sum_append, List.map_map, chunks,
    List.length_flatMap]
  exact Nat.add_zero _

/-- What an upload or a part of it, with `n` chunks, does to the delta chunks and
to the log: each chunk brings at most one delta chunk or one replacement. -/
structure Brings (n : Nat) (db db' : InMemoryDatabase) (as : List DeltaAccess) : Prop where
  pushes : Pushes as
  logSize : db.logSize ≤ db'.logSize
  length : db'.logSize + as.length ≤ db.logSize + n

theorem Brings.trans {n n' : Nat} {db db' db'' : InMemoryDatabase} {as as' : List DeltaAccess}
    (h : Brings n db db' as) (h' : Brings n' db' db'' as') : Brings (n + n') db db'' (as ++ as') where
  pushes := fun a ha => (List.mem_append.mp ha).elim (h.pushes a) (h'.pushes a)
  logSize := le_trans h.logSize h'.logSize
  length := by
    have hone := h.length
    have hrest := h'.length
    rw [List.length_append]
    omega

theorem Session.brings_receive (s : Session) (m : Message) :
    Brings m.chunkNum s.server.db (s.receive env m).server.db (s.accesses env m) := by
  cases m with
  | recipeEnd head =>
      have hserver : (s.receive env (.recipeEnd head)).server = s.server :=
        EcallFreqIndex.server_processTailBatch env s
      rw [hserver]
      exact ⟨fun a ha => (by cases ha), le_refl _, le_refl _⟩
  | chunk data currentItemNum stale =>
      simp only [Session.receive, Session.accesses, EcallFreqIndex.processOneBatch,
        EcallFreqIndex.batchAccesses, Message.chunkNum]
      generalize env.sessionKeyDec s.client.sessionKey data = recvBuffer
      have hlength := @EcallFreqIndex.length_queryBatch env s.server recvBuffer currentItemNum stale
      have hdb : (EcallFreqIndex.queryBatch env s.server recvBuffer currentItemNum stale).1.db =
          s.server.db := rfl
      generalize EcallFreqIndex.queryBatch env s.server recvBuffer currentItemNum stale = queried
        at hlength hdb ⊢
      obtain ⟨server, es⟩ := queried
      dsimp only at hlength hdb ⊢
      generalize EcallFreqIndex.localChecker env es = localFlag
      obtain ⟨hprocess, hlogged⟩ := @EcallFreqIndex.length_foldl_storeEntry env recvBuffer localFlag es
        ⟨{ s with server := server }, [], [], []⟩
      have hstored := foldl_inv (I := fun st : EcallFreqIndex.Storing => st.session.server.db = s.server.db)
        (fun st e h => (@EcallFreqIndex.db_storeEntry env recvBuffer localFlag st e).trans h) es
        ⟨{ s with server := server }, [], [], []⟩ hdb
      generalize es.foldl (EcallFreqIndex.storeEntry env recvBuffer localFlag)
        ⟨{ s with server := server }, [], [], []⟩ = st at hprocess hlogged hstored ⊢
      simp only [List.length_nil] at hprocess hlogged
      constructor
      · split
        · exact fun a ha => by cases ha
        · intro a ha
          obtain ⟨p, -, rfl⟩ := List.mem_map.mp ha
          exact ⟨p.1, p.2, rfl⟩
      · rw [EcallFreqIndex.db_finishBatch, EcallFreqIndex.logSize_applied, hstored]
        exact Nat.le_add_right _ _
      · rw [EcallFreqIndex.db_finishBatch, EcallFreqIndex.logSize_applied, hstored]
        cases localFlag with
        | true =>
            simp only [if_true, List.length_nil]
            omega
        | false =>
            simp only [Bool.false_eq_true, if_false, List.length_map]
            omega

theorem Session.brings_foldl : ∀ (ms : List Message) (s : Session),
    Brings (ms.map Message.chunkNum).sum s.server.db
      (ms.foldl (Session.receive env) s).server.db
      ((visits (Session.receive env) s ms).flatMap fun v => v.1.accesses env v.2)
  | [], _ => ⟨fun a ha => (by cases ha), le_refl _, le_refl _⟩
  | m :: ms, s => (s.brings_receive m).trans (Session.brings_foldl ms (s.receive env m))

theorem Upload.brings (s : Server) (u : Upload) :
    Brings u.chunks.length s.db (s.receiveUpload env u true).db (u.accesses env s) := by
  have h := @Session.brings_foldl env (u.messages env true) (Session.start s u.login)
  rwa [u.sum_chunkNum, ← s.db_receiveUpload] at h

/-! ## What a pass moves -/

namespace OFFLineBackward

/-- The delta chunks of the old base go to the new one, and with them the old base. -/
theorem moves_pairAccesses (p : Pass) (pair : Fp × Fp) :
    Moves p.server.db.deltas pair.1 (pairAccesses env (p, pair)) := by
  unfold pairAccesses
  dsimp only
  split
  · exact Or.inr ⟨[], rfl, fun a ha => (by cases ha), Nat.zero_le _⟩
  · cases hk : rebaseCall env p pair with
    | none => exact Or.inl rfl
    | some k =>
        have hlist : (k.asked pair).1 = p.server.db.deltas pair.1 := by
          rw [← deltas_rebaseCall hk, RebaseCall.asked, Pass.queryDeltaIndex,
            InMemoryDatabase.deltas, getList, InMemoryDatabase.queryDeltaIndex]
          cases k.pass.server.db.deltaIndex.lookup pair.1 <;> rfl
        refine Or.inr ⟨_, rfl, ?_, ?_⟩
        · intro a ha
          rcases List.mem_append.mp ha with ha | ha
          · obtain ⟨v, -, ha⟩ := List.mem_flatMap.mp ha
            unfold rebaseDeltaAccesses at ha
            dsimp only at ha
            split at ha
            · cases ha
            · exact ⟨_, _, List.mem_singleton.mp ha⟩
          · unfold convertBaseAccesses at ha
            dsimp only at ha
            split_ifs at ha
            · cases ha
            · exact ⟨_, _, List.mem_singleton.mp ha⟩
            · cases ha
        · have hdeltas : ∀ vs : List ((Bool × Pass) × Fp), (vs.flatMap
              (rebaseDeltaAccesses env (k.oldChunk env) (k.newChunk env) pair.2)).length ≤
                vs.length := by
            intro vs
            induction vs with
            | nil => exact le_refl _
            | cons v vs ih =>
                have hone : (rebaseDeltaAccesses env (k.oldChunk env) (k.newChunk env) pair.2
                    v).length ≤ 1 := by
                  unfold rebaseDeltaAccesses
                  dsimp only
                  split <;> simp
                rw [List.flatMap_cons, List.length_append, List.length_cons]
                omega
          have hbase : (convertBaseAccesses env (k.oldChunk env) (k.newChunk env) pair
              (k.afterDeltas env pair)).length ≤ 1 := by
            unfold convertBaseAccesses
            dsimp only
            split_ifs <;> simp
          have hvisits := hdeltas (visits (rebaseDelta env (k.oldChunk env) (k.newChunk env) pair.2)
            (true, (k.asked pair).2) (k.asked pair).1)
          rw [length_visits] at hvisits
          refine (List.length_append).trans_le ?_
          exact Nat.add_le_add (hvisits.trans_eq (congrArg List.length hlist)) hbase

variable {n k : Nat} {S : Finset Fp}

/-- The pairs of a batch. -/
theorem room_updatePairs (l : List (Fp × Fp)) {p : Pass} (hl : ∀ q ∈ l, q.1 ∈ S)
    (h : Room n (k + l.length) S p.server.db.deltas) :
    Safe n p.server.db.deltas ((visits (updatePair env) p l).flatMap (pairAccesses env)) ∧
      Room n k S (l.foldl (updatePair env) p).server.db.deltas := by
  induction l generalizing p with
  | nil => exact ⟨safe_nil, h⟩
  | cons q l ih =>
      obtain ⟨hsafe, hroom⟩ := Room.moves h (hl q (List.mem_cons_self ..)) (moves_pairAccesses p q)
      rw [← deltas_updatePair] at hroom
      obtain ⟨hsafe', hend⟩ := ih (fun q' hq' => hl q' (List.mem_cons_of_mem _ hq')) hroom
      rw [visits_cons, List.flatMap_cons]
      refine ⟨safe_append.mpr ⟨hsafe, ?_⟩, hend⟩
      rw [← deltas_updatePair]
      exact hsafe'

/-- All batches of the pairs. -/
theorem room_updateLocal (fuel : Nat) {p : Pass} (hmap : ∀ q ∈ p.server.db.localMap, q.1 ∈ S)
    (h : Room n (k + p.server.db.localMap.length) S p.server.db.deltas) :
    Safe n p.server.db.deltas ((updateLocalVisits env fuel p).flatMap (pairAccesses env)) ∧
      Room n k S (updateLocal env fuel p).server.db.deltas := by
  induction fuel generalizing p with
  | zero => exact ⟨safe_nil, h.mono (Nat.le_add_right _ _)⟩
  | succ fuel ih =>
      rcases updateLocal_round env fuel p with ⟨hstop, hnone⟩ | ⟨batch, rest, p₁, p₂, hround⟩
      · rw [hstop, hnone]
        exact ⟨safe_nil, h.mono (Nat.le_add_right _ _)⟩
      · obtain ⟨hlen, hfst⟩ := @walkedPairs_within env batch
        have htotal := hround.perm.length_eq
        rw [List.length_append] at htotal
        have hdeltas : p₁.server.db.deltas = p.server.db.deltas := by
          rw [hround.taken]
          rfl
        have hsource : ∀ q ∈ walkedPairs env batch, q.1 ∈ S := by
          intro q hq
          obtain ⟨q', hq', heq⟩ := List.mem_map.mp (hfst q hq)
          rw [← heq]
          exact hmap q' (hround.perm.mem_iff.mpr (List.mem_append_left _ hq'))
        obtain ⟨hsafe, hroom⟩ := room_updatePairs (k := k + rest.length) (walkedPairs env batch)
          (p := p₁) hsource (by rw [hdeltas]; exact h.mono (by omega))
        have hafter : p₂.server.db.deltas = ((visits (updatePair env) p₁ (walkedPairs env
            batch)).flatMap (pairAccesses env)).foldl apply p.server.db.deltas := by
          rw [hround.worked, ← hdeltas]
          exact foldl_visits (f := fun p : Pass => p.server.db.deltas) deltas_updatePair _ _
        rw [← hround.worked] at hroom
        obtain ⟨hsafe', hend⟩ := ih (p := p₂)
          (fun q hq => hmap q (hround.perm.mem_iff.mpr
            (List.mem_append_right _ (hround.rest ▸ hq))))
          (by rw [hround.rest]; exact hroom)
        rw [hround.visits, hround.goesOn, List.flatMap_append]
        refine ⟨safe_append.mpr ⟨hdeltas ▸ hsafe, ?_⟩, hend⟩
        rw [← hafter]
        exact hsafe'

end OFFLineBackward

/-- The lists of the old bases are moved, and the old bases come to the new ones. -/
theorem room_processOff {n k : Nat} {S : Finset Fp} {s : Server} (m : PassResidue)
    (hS : ∀ q ∈ s.revisedLog env, q.1 ∈ S)
    (h : env.offlineFlag = true → Room n (k + (s.revisedLog env).length) S s.db.deltas)
    (hoff : env.offlineFlag = false → Room n k S s.db.deltas) :
    Safe n s.db.deltas (processOffAccesses env s m) ∧ Room n k S (processOff env s m).db.deltas := by
  rw [deltas_processOff]
  unfold processOffAccesses processOffVisits
  dsimp only
  split
  · rename_i hon
    obtain ⟨hsafe, hroom⟩ := @OFFLineBackward.room_updateLocal env n k S
      ((s.revisedLog env).length + 1) (.revised env s m) hS (h hon)
    rw [OFFLineBackward.deltas_updateLocal] at hroom
    exact ⟨hsafe, hroom⟩
  · rename_i hon
    exact ⟨safe_nil, hoff (Bool.not_eq_true _ ▸ hon)⟩

/-! ## Runs -/

/-- What `_process_buffer` has room for, in bytes. -/
def processBufferSize : Nat := 100000 * CHUNK_HASH_SIZE

/-- `Ocall_QueryDeltaIndex`, asked for any base, writes within the buffer. -/
def DeltasFit (L : Drawers Fp Fp) : Prop :=
  ∀ base, (1 + (L base).length) * CHUNK_HASH_SIZE ≤ processBufferSize

theorem deltasFit_iff (L : Drawers Fp Fp) : DeltasFit L ↔ Within 99999 L := by
  refine forall_congr' fun base => ?_
  simp only [processBufferSize, CHUNK_HASH_SIZE]
  omega

/-- The chunks that come in with a session. -/
def Event.chunks : Event → List Chunk
  | .upload u => u.chunks
  | .offline u _ => u.chunks

namespace Server

variable (env) in
/-- The buffer suffices before and after the session, and behind every access to
the index of delta chunks on the way. -/
structure FitsThrough (s : Server) (e : Event) : Prop where
  before : DeltasFit s.db.deltas
  during : ∀ v ∈ LoopLib.visits apply s.db.deltas (s.accesses env e), DeltasFit (apply v.1 v.2)
  after : DeltasFit (s.serve env e).db.deltas

variable (env) in
/-- Before the upload every base has room for one more delta chunk for each chunk
that comes in. Before the pass every base has room for the delta chunks of the
bases that the log replaces, and for these bases. -/
def RoomFor (s : Server) : Event → Prop
  | .upload u => Room 99999 u.chunks.length ∅ s.db.deltas
  | .offline u _ =>
      let t := s.receiveUpload env u true
      Room 99999 u.chunks.length ∅ s.db.deltas ∧
        (env.offlineFlag = true → Room 99999 (t.revisedLog env).length
          ((t.revisedLog env).map Prod.fst).toFinset t.db.deltas)

theorem fitsThrough_of_room {s : Server} {e : Event} (h : s.RoomFor env e) :
    s.FitsThrough env e := by
  cases e with
  | upload u =>
      have hbrings := @Upload.brings env s u
      have hlength := hbrings.length
      have hlog := hbrings.logSize
      obtain ⟨hsafe, hroom⟩ := @Room.pushes _ _ _ 99999 0 ∅ s.db.deltas (u.accesses env s)
        (Room.mono h (by omega)) hbrings.pushes
      refine ⟨(deltasFit_iff _).mpr h.within, fun v hv => (deltasFit_iff _).mpr (hsafe v hv), ?_⟩
      rw [deltas_serve]
      exact (deltasFit_iff _).mpr hroom.within
  | offline u m =>
      obtain ⟨hupload, hpass⟩ := h
      have hbrings := @Upload.brings env s u
      have hlength := hbrings.length
      have hlog := hbrings.logSize
      obtain ⟨hsafe, hroom⟩ := @Room.pushes _ _ _ 99999 0 ∅ s.db.deltas (u.accesses env s)
        (hupload.mono (by omega)) hbrings.pushes
      rw [← s.deltas_receiveUpload] at hroom
      obtain ⟨hsafe', hfit⟩ : Safe 99999 (s.receiveUpload env u true).db.deltas
          (processOffAccesses env (s.receiveUpload env u true) m) ∧
          Within 99999 (processOff env (s.receiveUpload env u true) m).db.deltas := by
        cases hon : env.offlineFlag with
        | true =>
            obtain ⟨hsafe', hend⟩ := @room_processOff env 99999 0 _ (s.receiveUpload env u true) m
              (fun q hq => List.mem_toFinset.mpr (List.mem_map_of_mem hq))
              (fun _ => by rw [Nat.zero_add]; exact hpass hon) (fun hoff => by rw [hon] at hoff; cases hoff)
            exact ⟨hsafe', hend.within⟩
        | false =>
            have hnone : processOffAccesses env (s.receiveUpload env u true) m = [] := by
              unfold processOffAccesses processOffVisits
              rw [hon]
              rfl
            rw [deltas_processOff, hnone]
            exact ⟨safe_nil, hroom.within⟩
      refine ⟨(deltasFit_iff _).mpr hupload.within, fun v hv => (deltasFit_iff _).mpr ?_, ?_⟩
      · rw [s.deltas_receiveUpload] at hsafe'
        exact safe_append.mpr ⟨hsafe, hsafe'⟩ v hv
      · rw [s.db_serve_offline]
        exact (deltasFit_iff _).mpr hfit

/-- A pass works the log off. -/
theorem logSize_processOff (s : Server) (m : PassResidue) :
    (processOff env s m).db.logSize = 0 := by
  have hempty : ∀ db : InMemoryDatabase, db.localTmpMap = ∅ → db.skipMap = ∅ → db.localMap = [] →
      db.logSize = 0 := by
    intro db htmp hskip hmap
    rw [InMemoryDatabase.logSize, htmp, hskip, hmap]
    rfl
  rw [processOff_eq]
  split
  · have hpass := @OFFLineBackward.sameRest_easyUpdate env (.revised env s m)
    obtain ⟨-, hmap, htmp, hskip⟩ :=
      @OFFLineBackward.localBatches_perm env _ (Pass.revised env s m) (Nat.lt_succ_self _)
    exact hempty _ (hpass.localTmpMap.trans htmp) (hpass.skipMap.trans hskip)
      (hpass.localMap.trans hmap)
  · exact hempty _ rfl rfl rfl

/-- A session uses up the room for its chunks. -/
theorem room_serve {k : Nat} {s : Server} {e : Event}
    (h : ∀ S, Room 99999 (s.db.logSize + (e.chunks.length + k)) S s.db.deltas) :
    s.RoomFor env e ∧
      ∀ S, Room 99999 ((s.serve env e).db.logSize + k) S (s.serve env e).db.deltas := by
  have hupload : ∀ u : Upload, u.chunks.length = e.chunks.length → ∀ S,
      Room 99999 ((s.receiveUpload env u true).db.logSize + k) S
        (s.receiveUpload env u true).db.deltas := by
    intro u hu S
    have hbrings := @Upload.brings env s u
    have hlength := hbrings.length
    rw [s.deltas_receiveUpload]
    exact (Room.pushes ((h S).mono (by omega)) hbrings.pushes).2
  cases e with
  | upload u =>
      have hend := hupload u rfl
      rw [← s.db_serve_upload] at hend
      exact ⟨(h ∅).mono (show u.chunks.length ≤ s.db.logSize + (u.chunks.length + k) by omega), hend⟩
  | offline u m =>
      have hroom := hupload u rfl
      have hlog : ((s.receiveUpload env u true).revisedLog env).length ≤
          (s.receiveUpload env u true).db.logSize :=
        InMemoryDatabase.length_localrevise_le _ _
      refine ⟨⟨(h ∅).mono (show u.chunks.length ≤ s.db.logSize + (u.chunks.length + k) by omega),
        fun _ => (hroom _).mono (by omega)⟩, fun S => ?_⟩
      rw [s.db_serve_offline, logSize_processOff, Nat.zero_add]
      have hpass := @room_processOff env 99999 k
        (S ∪ (((s.receiveUpload env u true).revisedLog env).map Prod.fst).toFinset)
        (s.receiveUpload env u true) m
        (fun q hq => Finset.mem_union_right _ (List.mem_toFinset.mpr (List.mem_map_of_mem hq)))
        (fun _ => (hroom _).mono (by omega)) (fun _ => (hroom _).mono (by omega))
      exact hpass.2.anti Finset.subset_union_left

theorem roomFor_visits (es : List Event) {s : Server} (h : ∀ S, Room 99999
    (s.db.logSize + (es.map fun e => e.chunks.length).sum) S s.db.deltas) :
    ∀ v ∈ LoopLib.visits (serve env) s es, v.1.RoomFor env v.2 := by
  induction es generalizing s with
  | nil => exact fun v hv => by cases hv
  | cons e es ih =>
      obtain ⟨hroom, hrest⟩ := room_serve h
      rw [visits_cons, List.forall_mem_cons]
      exact ⟨hroom, ih hrest⟩

/-- **The buffer suffices** in every run that brings fewer than 100000 chunks, and in
every longer one in which there is room before each session. -/
theorem deltas_fit (env : Env) (m : Residue) (es : List Event)
    (h : (es.map fun e => e.chunks.length).sum < 100000 ∨
      ∀ v ∈ LoopLib.visits (serve env) (boot env m) es, v.1.RoomFor env v.2) :
    ∀ v ∈ LoopLib.visits (serve env) (boot env m) es, v.1.FitsThrough env v.2 := by
  rcases h with hfew | hroom
  · refine fun v hv => fitsThrough_of_room (roomFor_visits es (fun S key => ?_) v hv)
    have hnone : held (boot env m).db.deltas (insert key S) = 0 := Finset.sum_eq_zero fun _ _ => rfl
    have hlog : (boot env m).db.logSize = 0 := rfl
    omega
  · exact fun v hv => fitsThrough_of_room (hroom v hv)

end Server

/-! ## A base with a hundred thousand delta chunks

A base of 24 bytes, and chunks that have a number behind them. Each of them is
found similar to the base and stored as a delta of 16 bytes. -/

section Growing

open EcallFreqIndex

/-- A chunk that neither the batch nor the heap knows. -/
theorem checkEntry_unknown (env : Env) {heap : EntryHeap} (minFreq : UInt32) {e : InQueryEntry}
    (h : heap.getPriority e.chunkHash = none) :
    (checkEntry env heap minFreq ⟨[], ∅⟩ e).entries = [askOutside env e] := by
  unfold checkEntry
  rw [AList.lookup_empty]
  dsimp only
  rw [h, ite_self]
  rfl

/-- A batch of one chunk that the heap does not know. -/
theorem queryBatch_single (env : Env) (s : Server) (c : Chunk) (stale : Nat → RecipeEntry)
    (hheap : s.insideDedupIndex.contains (env.generateHash c.1) = false) :
    ∃ sketch freq, queryBatch env s (frameChunks [c.1]) 1 stale = ({ s with cmSketch := sketch },
      [answer env s.db (frameChunks [c.1])
        (askOutside env (readEntry env (stale 0) freq (4, c.1)))]) := by
  have hparse : parseChunks (frameChunks [c.1]) 1 0 = [(4, c.1)] := by
    obtain ⟨x, hx⟩ : ∃ x, parseChunks (frameChunks [c.1]) 1 0 = [(4, x)] := ⟨_, rfl⟩
    have hsnd : (parseChunks (frameChunks [c.1]) 1 0).map Prod.snd = [c.1] :=
      (parseChunks_frame [c] []).1
    rw [hx] at hsnd ⊢
    exact congrArg (fun y => [(4, y)]) (List.cons.inj hsnd).1
  have hunknown : s.insideDedupIndex.getPriority (env.generateHash c.1) = none :=
    Option.isSome_eq_false_iff.mp hheap |> Option.isNone_iff_eq_none.mp
  unfold queryBatch
  rw [hparse]
  let sketch := s.cmSketch.update (env.generateHash c.1) 1
  refine ⟨sketch, sketch.estimate (env.generateHash c.1), Prod.ext rfl ?_⟩
  have hentries := checkEntry_unknown env
    (if s.insideDedupIndex.size = env.topThreshold then s.insideDedupIndex.topEntry else 0)
    (e := readEntry env (stale 0) (sketch.estimate (env.generateHash c.1)) (4, c.1)) hunknown
  exact congrArg (fun es => (es.map fun e => mapOut (queryOutBasechunk s.db) (outEntrySFGet env
    (frameChunks [c.1]) (mapOut (queryOutIndex s.db) e))).map (entryLoad env)) hentries

/-- One container is no reason to leave the batch to a pass. -/
theorem localChecker_single (hforward : env.forwardFlag = true) (e : InQueryEntry) :
    localChecker env [e] = false := by
  have hlen : (([e].filterMap baseContainer?).dedup).length ≤ 1 :=
    (List.dedup_sublist _).length_le.trans (List.length_filterMap_le _ _)
  rw [localChecker, thresold, hforward, decide_eq_false_iff_not, List.length_singleton]
  simp only [if_true]
  omega

/-- A similar chunk whose base can be read, and whose delta is shorter. -/
theorem processBuffer_storeUnique (recvBuffer : Bytes) (st : Storing) {e : InQueryEntry}
    {o : OutQueryEntry} (hexcluded : isExcluded e.chunkHash = false)
    (hdelta : o.deltaFlag = .outDelta)
    {file : Bytes} (hcache : CacheOk st.session.server)
    (hfile : st.session.server.view .base e.basechunkAddr.containerName = some file)
    (hshort : ∀ t buffer, file <+: buffer →
      (deltaOf env recvBuffer t e (baseIn env buffer e.basechunkAddr)).length < e.chunk.length) :
    (storeUnique env recvBuffer false st e o).processBuffer =
      st.processBuffer ++ [(o.basechunkHash, o.chunkHash)] := by
  have hfetch : ∃ s' buffer, FetchOk st.session.server s' e.basechunkAddr.containerName buffer ∧
      offlinedeltaTure false st.session.server e o =
        (s', { o with containerbuffer := buffer, deltaFlag := .delta }, []) := by
    rcases offlinedeltaTure_cases false st.session.server e (Or.inr hdelta) with
      heq | ⟨hf, -⟩ | ⟨-, -, h⟩
    · -- the first way needs an excluded chunk or a missing container
      have hflag : (offlinedeltaTure false st.session.server e o).2.1.deltaFlag = .delta := by
        unfold offlinedeltaTure
        rw [if_neg (by rw [hexcluded]; exact Bool.false_ne_true), if_pos hdelta]
        simp only [Bool.false_eq_true, if_false]
        split
        · rfl
        · rw [show (st.session.server.containers .base).lookup e.basechunkAddr.containerName =
            some file from hfile]
      rw [heq] at hflag
      cases hflag
    · cases hf
    · exact h
  obtain ⟨s', buffer, hok, heq⟩ := hfetch
  obtain ⟨file', hfile', hpre⟩ := hok.buffer hcache
  obtain rfl : file' = file := Option.some.inj (hfile'.symm.trans hfile)
  have hsome : (processDeltachunk env recvBuffer { st.session with server := s' } e
      { o with containerbuffer := buffer, deltaFlag := .delta }).1 = some (deltaOf env recvBuffer
        st.session.client.psHTable e (baseIn env buffer e.basechunkAddr)) :=
    if_neg (Nat.not_le.mpr (hshort _ _ hpre))
  unfold storeUnique
  simp only [heq, if_true, hsome]

/-- The base. -/
def sharedBytes : Bytes := List.replicate 24 1

/-- The base with a number behind it. -/
def numbered (k : Nat) : Chunk :=
  ⟨sharedBytes ++ le32 (UInt32.ofNat k), by simp [sharedBytes, MAX_CHUNK_SIZE]⟩

def numberedFp (k : Nat) : Fp := BytesN.ofBytes 32 (numbered k).1

theorem numberedFp_inj {j k : Nat} (hj : j < 2 ^ 32) (hk : k < 2 ^ 32)
    (h : numberedFp j = numberedFp k) : j = k := by
  have hword : ∀ i, ofLe32 ((numberedFp i).1.drop 24) = UInt32.ofNat i := by
    intro i
    exact ofLe32_le32 (UInt32.ofNat i) [0, 0, 0, 0]
  have hwords : UInt32.ofNat j = UInt32.ofNat k := by
    rw [← hword j, ← hword k, h]
  have heq := congrArg UInt32.toNat hwords
  rwa [UInt32.toNat_ofNat', UInt32.toNat_ofNat', Nat.mod_eq_of_lt hj, Nat.mod_eq_of_lt hk] at heq

/-- Such a chunk, encoded against the base. -/
def numberedJob (k : Nat) : Edelta.Job :=
  ⟨memOf ((frameChunks [(numbered k).1]).drop 4), (numbered k).1.length, memOf sharedBytes,
    sharedBytes.length⟩

/-- Nothing is left of the base behind the common head, so the delta is one copy and
the number. -/
theorem length_encode (t : Edelta.CleanTable) (k : Nat) :
    (Edelta.EcallFreqIndex.eDeltaEncode inlineEnv.heuristics t (numberedJob k)).1.length = 16 := by
  have hhead : (numberedJob k).headRun = 24 := rfl
  have hbeg : (numberedJob k).begSize = 24 := by rw [Edelta.Job.begSize, hhead]; rfl
  have hnew : (numberedJob k).newSize = 28 := rfl
  have hbase : (numberedJob k).baseSize = 24 := rfl
  have hend : (numberedJob k).endSize = 0 := by
    simp only [Edelta.Job.endSize, hbeg, hnew]
    split_ifs <;> omega
  rw [Edelta.EcallFreqIndex.eDeltaEncode, hbeg, hend, hbase]
  simp only [Edelta.Enc.trimmed, Edelta.Enc.putTail, hbeg, hend, hnew]
  rfl

/-- What the first upload records for the base. -/
def baseEntry : RecipeEntry :=
  ⟨containerName 0, NO_DELTA, 0, 24, BytesN.ofBytes 32 [], BytesN.ofBytes 96 []⟩

/-- The container of the first upload. -/
def baseRecord : Record :=
  ⟨baseEntry, numberedFp 0, BytesN.ofBytes 96 [], sharedBytes, pickNewIV (BytesN.ofBytes 16 [])⟩

theorem holds_baseRecord : Holds (containerName 0) baseRecord.toBytes [baseRecord] where
  bytes := (List.append_nil _).symm
  tiles := ⟨rfl, trivial⟩
  placed := fun r hr => by
    rw [List.mem_singleton.mp hr]
    exact ⟨rfl, rfl⟩
  small := by
    rw [Record.length_toBytes]
    decide

/-- The base in any copy of its container. -/
theorem baseIn_baseRecord {buffer : Bytes} (h : baseRecord.toBytes <+: buffer) :
    baseIn inlineEnv buffer baseEntry = sharedBytes :=
  (holds_baseRecord.found (List.mem_singleton_self _) h).getChunkContent
    (holds_baseRecord.placed _ (List.mem_singleton_self _))

/-- The server knows the base and `k` of the chunks that are similar to it. -/
structure Fed (k : Nat) (s : Server) : Prop where
  sf : s.db.querySF (BytesN.ofBytes 96 []) = some (numberedFp 0)
  entry : s.db.queryBuffer (numberedFp 0) = some (inlineEnv.encEntry baseEntry)
  file : s.view .base (containerName 0) = some baseRecord.toBytes
  cache : CacheOk s
  fresh : ∀ j, k < j → j < 2 ^ 32 → s.db.queryBuffer (numberedFp j) = none ∧
    s.insideDedupIndex.contains (numberedFp j) = false
  count : (s.db.deltas (numberedFp 0)).length = k

/-- The index store, the heap and the base containers are as before. -/
structure Untouched (s s' : Server) : Prop where
  db : s'.db = s.db
  heap : s'.insideDedupIndex = s.insideDedupIndex
  bases : s'.view .base = s.view .base
  cache : CacheOk s → CacheOk s'

theorem Fed.congr {k : Nat} {s s' : Server} (h : Fed k s) (hs : Untouched s s') : Fed k s' := by
  refine ⟨?_, ?_, ?_, hs.cache h.cache, ?_, ?_⟩
  · rw [hs.db]
    exact h.sf
  · rw [hs.db]
    exact h.entry
  · rw [hs.bases]
    exact h.file
  · rw [hs.db, hs.heap]
    exact h.fresh
  · rw [hs.db]
    exact h.count

/-- Storing a delta leaves the base containers alone. -/
theorem containers_saveChunk_delta (s : Session) (data : Bytes) (a : RecipeEntry) (sf : Sf)
    (fp : Fp) :
    (s.saveChunk .delta data a sf fp).2.server.containers .base = s.server.containers .base := by
  unfold Session.saveChunk
  dsimp only
  split <;> rfl

theorem containers_processSheUniqueChunk (env : Env) (s : Session) (a : RecipeEntry) (delta : Bytes)
    (sf : Sf) (fp : Fp) :
    (s.processSheUniqueChunk env { a with deltaFlag := DELTA } delta sf fp).2.server.containers
      .base = s.server.containers .base := by
  unfold Session.processSheUniqueChunk
  dsimp only
  rw [if_neg noDelta_ne_delta.symm]
  exact containers_saveChunk_delta _ _ _ _ _

/-- The entry of one more similar chunk, and what is asked outside for it. -/
structure Similar (k : Nat) (e : InQueryEntry) (o : OutQueryEntry) : Prop where
  out : e.out = some o
  chunk : e.chunk = (numbered k).1
  offset : e.currentOffset = 4
  chunkHash : e.chunkHash = numberedFp k
  basechunkAddr : e.basechunkAddr = baseEntry
  dedupFlag : o.dedupFlag = .unique
  deltaFlag : o.deltaFlag = .outDelta
  hash : o.chunkHash = numberedFp k
  base : o.basechunkHash = numberedFp 0

theorem Fed.queryBatch {k : Nat} {s : Server} (h : Fed k s) (hk : k + 1 < 2 ^ 32)
    (stale : Nat → RecipeEntry) : ∃ sketch e o,
      EcallFreqIndex.queryBatch inlineEnv s (frameChunks [(numbered (k + 1)).1]) 1 stale =
        ({ s with cmSketch := sketch }, [e]) ∧ Similar (k + 1) e o := by
  obtain ⟨hq, hheap⟩ := h.fresh (k + 1) (Nat.lt_succ_self k) hk
  obtain ⟨sketch, freq, hquery⟩ := queryBatch_single inlineEnv s (numbered (k + 1)) stale hheap
  rw [@answer_outDelta inlineEnv s.db (frameChunks [(numbered (k + 1)).1])
    (askOutside inlineEnv (readEntry inlineEnv (stale 0) freq (4, (numbered (k + 1)).1)))
    (numberedFp 0) rfl hq h.sf] at hquery
  refine ⟨sketch, _, _, hquery, rfl, rfl, rfl, rfl, ?_, rfl, rfl, rfl, rfl⟩
  show inlineEnv.decEntry ((s.db.queryBuffer (numberedFp 0)).getD zeroCipher) = baseEntry
  rw [h.entry, Option.getD_some, lawful_inline.decEntry_encEntry]

theorem untouched_processSheUniqueChunk (env : Env) (s : Session) (a : RecipeEntry) (delta : Bytes)
    (sf : Sf) (fp : Fp) : Untouched s.server
      (s.processSheUniqueChunk env { a with deltaFlag := DELTA } delta sf fp).2.server := by
  obtain ⟨hcarried, hcache, -⟩ := carried_processSheUniqueChunk env s { a with deltaFlag := DELTA }
    delta sf fp
  have hbases : (s.processSheUniqueChunk env { a with deltaFlag := DELTA } delta sf
      fp).2.server.view .base = s.server.view .base := by
    funext n
    exact congrArg (AList.lookup n) (containers_processSheUniqueChunk env s a delta sf fp)
  refine ⟨hcarried.db, hcarried.heap, hbases, fun h => ⟨?_, fun n data hn => ?_⟩⟩
  · rw [hcache]
    exact h.valid
  · rw [hcache] at hn
    obtain ⟨file, hfile, hpre⟩ := h.cached n data hn
    exact ⟨file, (congrFun hbases n).trans hfile, hpre⟩

/-- It is stored as a delta. -/
theorem Similar.storeUnique {k : Nat} {e : InQueryEntry} {o : OutQueryEntry} (h : Similar k e o)
    {st : Storing} (hbuffer : st.processBuffer = []) (hcache : CacheOk st.session.server)
    (hfile : st.session.server.view .base (containerName 0) = some baseRecord.toBytes) :
    ∃ (p : RecipeEntry × Session) (buffer : Bytes), Untouched st.session.server p.2.server ∧
      EcallFreqIndex.storeUnique inlineEnv (frameChunks [(numbered k).1]) false st e o =
        ⟨p.2, st.entries ++
          [storedEntry inlineEnv e { o with containerbuffer := buffer, deltaFlag := .delta } p.1],
          st.batchBasemap, st.processBuffer ++ [(o.basechunkHash, o.chunkHash)]⟩ := by
  have hexcluded : isExcluded e.chunkHash = false := by
    rw [h.chunkHash]
    rfl
  have hmade := @processBuffer_storeUnique inlineEnv (frameChunks [(numbered k).1]) st _ _
    hexcluded h.deltaFlag _ hcache (by rw [h.basechunkAddr]; exact hfile) (fun t buffer hpre => by
      rw [deltaOf, deltaJob, h.basechunkAddr, baseIn_baseRecord hpre, h.chunk, h.offset]
      exact (length_encode t k).trans_lt (show 16 < 28 by decide))
  have hstores := @stores_storeUnique inlineEnv _ (frameChunks [(numbered k).1]) false st e _
    (Or.inr h.deltaFlag)
  generalize EcallFreqIndex.storeUnique inlineEnv (frameChunks [(numbered k).1]) false st e o =
    st' at *
  cases hstores with
  | listed s' calls buffer hcalls hready =>
      rw [hbuffer] at hmade
      cases hmade
  | logged hflag => cases hflag
  | delta s' buffer t hflag hdelta hready hshort =>
      refine ⟨_, buffer, ?_, rfl⟩
      have hput := untouched_processSheUniqueChunk inlineEnv s' e.chunkAddr
        (deltaOf inlineEnv (frameChunks [(numbered k).1]) t e
          (baseIn inlineEnv buffer e.basechunkAddr)) o.superfeature o.chunkHash
      refine ⟨hput.db.trans hready.carried.db, hput.heap.trans hready.carried.heap, ?_,
        fun hc => hput.cache (hready.cache hc)⟩
      rw [hput.bases, hready.shelves.view]

/-- The end of the batch. -/
theorem Fed.finishBatch {k : Nat} {st : Storing} (h : Fed k st.session.server) {e : InQueryEntry}
    {o : OutQueryEntry} (hk : k + 1 < 2 ^ 32) (hsim : Similar (k + 1) e o) (a : RecipeEntry)
    (buffer : Bytes) (hentries : st.entries =
      [storedEntry inlineEnv e { o with containerbuffer := buffer, deltaFlag := .delta } a])
    (hprocess : st.processBuffer = [(numberedFp 0, numberedFp (k + 1))]) :
    Fed (k + 1) (EcallFreqIndex.finishBatch inlineEnv false st).server := by
  have hdb : (EcallFreqIndex.finishBatch inlineEnv false st).server.db =
      (st.session.server.db.insertDeltaIndex (numberedFp 0) (numberedFp (k + 1))).insertBothBuffer
        (numberedFp (k + 1)) (inlineEnv.encEntry a) := by
    rw [db_finishBatch, applied, insertPairs, hentries, hprocess]
    show updateOutIndex (st.session.server.db.insertDeltaIndex (numberedFp 0) (numberedFp (k + 1)))
      { o with
        containerbuffer := buffer, deltaFlag := .delta, chunkAddr := inlineEnv.encEntry a } = _
    unfold updateOutIndex
    rw [if_pos hsim.dedupFlag, ← hsim.hash]
    exact if_neg fun hn => by cases hn.1
  refine ⟨?_, ?_, h.file, ⟨h.cache.valid, h.cache.cached⟩, fun j hj hlt => ⟨?_, ?_⟩, ?_⟩
  · rw [hdb]
    exact h.sf
  · rw [hdb, InMemoryDatabase.queryBuffer_insertBothBuffer, Function.update_of_ne]
    · exact h.entry
    · exact fun heq => absurd (numberedFp_inj (by decide) hk heq) (by omega)
  · rw [hdb, InMemoryDatabase.queryBuffer_insertBothBuffer, Function.update_of_ne]
    · exact (h.fresh j (by omega) hlt).1
    · exact fun heq => absurd (numberedFp_inj hlt (by omega) heq) (by omega)
  · refine Bool.eq_false_iff.mpr fun hc => ?_
    rcases contains_foldl_updateHeap st.entries hc with hold | ⟨e', he', hfp⟩
    · rw [(h.fresh j (by omega) hlt).2] at hold
      cases hold
    · rw [hentries, List.mem_singleton] at he'
      have heq : numberedFp j = numberedFp (k + 1) := by
        rw [hfp, he']
        exact hsim.chunkHash
      exact absurd (numberedFp_inj hlt (by omega) heq) (by omega)
  · have hpush : (EcallFreqIndex.finishBatch inlineEnv false st).server.db.deltas =
        apply st.session.server.db.deltas (.push (numberedFp 0) (numberedFp (k + 1))) := by
      rw [hdb]
      exact InMemoryDatabase.deltas_insertDeltaIndex _ _ _
    rw [hpush, apply, Function.update_self, List.length_append, h.count]
    rfl

/-- One more similar chunk. -/
theorem Fed.receive {k : Nat} {s : Session} (h : Fed k s.server) (hk : k + 1 < 2 ^ 32)
    (stale : Nat → RecipeEntry) : Fed (k + 1) (s.receive inlineEnv
      (.chunk (frameChunks [(numbered (k + 1)).1]) 1 stale)).server := by
  obtain ⟨sketch, e, o, hquery, hsim⟩ := h.queryBatch hk stale
  obtain ⟨p, buffer, hput, hstored⟩ := @Similar.storeUnique _ e o hsim
    ⟨{ s with server := { s.server with cmSketch := sketch } }, [], [], []⟩ rfl
    ⟨h.cache.valid, h.cache.cached⟩ h.file
  have hstart : Fed k { s.server with cmSketch := sketch } :=
    h.congr ⟨rfl, rfl, rfl, fun hc => ⟨hc.valid, hc.cached⟩⟩
  have hflag : ¬ o.dedupFlag = .duplicate := by
    rw [hsim.dedupFlag]
    simp
  show Fed (k + 1) (processOneBatch inlineEnv s (frameChunks [(numbered (k + 1)).1]) 1 stale).server
  unfold processOneBatch
  dsimp only
  rw [show inlineEnv.sessionKeyDec s.client.sessionKey (frameChunks [(numbered (k + 1)).1]) =
    frameChunks [(numbered (k + 1)).1] from rfl, hquery]
  dsimp only
  rw [localChecker_single rfl, List.foldl_cons, List.foldl_nil]
  unfold storeEntry
  rw [hsim.out]
  dsimp only
  rw [if_neg hflag, hstored]
  refine Fed.finishBatch (o := o) ?_ hk hsim p.1 buffer rfl ?_
  · dsimp only
    rw [server_updateFileRecipe]
    exact hstart.congr hput
  · dsimp only
    rw [hsim.base, hsim.hash, List.nil_append]

/-- What the batch buffers held before. -/
def filler : Nat → RecipeEntry := fun _ => RecipeEntry.ofBytes []

/-- An upload with one chunk in a batch. -/
def growingUpload (i : UInt8) (cs : List Chunk) : Upload where
  login := ⟨BytesN.ofBytes 32 [i], BytesN.ofBytes 32 [2], BytesN.ofBytes 32 [3],
    BytesN.ofBytes 16 [], BytesN.ofBytes 16 []⟩
  batches := cs.map fun c => ⟨[c], filler⟩
  head := BytesN.ofBytes 16 [9]

def sharedChunk : Chunk := ⟨sharedBytes, by simp [sharedBytes, MAX_CHUNK_SIZE]⟩

/-- Three similar chunks, each in a session of its own. The passes move the first
chunk to the second one, and both to the third one. -/
def movedLists : List Event :=
  [.upload (growingUpload 0 [numbered 0]),
    .offline (growingUpload 1 [numbered 1]) ⟨zeroCipher, 0, [], []⟩,
    .offline (growingUpload 2 [numbered 2]) ⟨zeroCipher, 0, [], []⟩]

theorem length_movedLists : ((((Server.boot .plain ⟨[], fun _ => []⟩).run .plain movedLists).db.deltas
    (numberedFp 2)).length = 2) := by
  rw [movedLists, Server.run, List.foldl_cons, List.foldl_cons, List.foldl_cons, List.foldl_nil,
    Server.deltas_serve]
  decide +kernel

theorem deltas_fit_movedLists :
    ((((Server.boot .plain ⟨[], fun _ => []⟩).run .plain movedLists).db.deltas
      (numberedFp 2)).length = 2) ∧
    ∀ v ∈ visits (Server.serve .plain) (Server.boot .plain ⟨[], fun _ => []⟩) movedLists,
      v.1.FitsThrough .plain v.2 :=
  ⟨length_movedLists, Server.deltas_fit .plain ⟨[], fun _ => []⟩ movedLists (Or.inl (by decide))⟩

/-- The first upload brings the base. -/
def basedServer : Server := (Server.boot inlineEnv ⟨[], fun _ => []⟩).serve inlineEnv
  (.upload (growingUpload 0 [sharedChunk]))

theorem fed_based : Fed 0 basedServer := by
  have hindex : basedServer.db.indexObj.keys = [numberedFp 0] := by decide +kernel
  have hheap : basedServer.insideDedupIndex.index.keys = [numberedFp 0] := by decide +kernel
  have hcache : basedServer.inContainercache.keys = [] ∧
    basedServer.inContainercache.currentIndex = 0 := by decide +kernel
  refine ⟨by decide +kernel, by decide +kernel, by decide +kernel, ?_, ?_, by decide +kernel⟩
  · refine ⟨⟨?_, ?_, ?_, ?_, ?_⟩, ?_⟩
    all_goals simp only [InContainercache.Caches, hcache.1, hcache.2]
    all_goals simp
  · intro j hj hlt
    have hne : numberedFp j ≠ numberedFp 0 := fun heq =>
      absurd (numberedFp_inj hlt (by decide) heq) (by omega)
    generalize basedServer = s at hindex hheap ⊢
    constructor
    · show s.db.indexObj.lookup (numberedFp j) = none
      refine AList.lookup_eq_none.mpr fun hin => hne ?_
      rw [AList.mem_keys, hindex] at hin
      exact List.mem_singleton.mp hin
    · refine Bool.eq_false_iff.mpr fun hc => hne ?_
      rw [EntryHeap.contains, AList.lookup_isSome, AList.mem_keys, hheap] at hc
      exact List.mem_singleton.mp hc

/-- The end of an upload leaves the index store as the last batch does. -/
theorem Server.db_receiveUpload_batches (s : Server) (u : Upload) :
    (s.receiveUpload env u true).db =
      ((u.batches.map (u.message env)).foldl (Session.receive env)
        (Session.start s u.login)).server.db := by
  rw [s.db_receiveUpload, Upload.messages, if_pos rfl, List.foldl_append, List.foldl_cons,
    List.foldl_nil]
  rw [Session.receive, server_processTailBatch]

/-- An upload of `n` similar chunks, one in a batch. -/
theorem Fed.upload {s : Server} (h : Fed 0 s) {n : Nat} (hn : n < 2 ^ 32) (i : UInt8) :
    ((s.receiveUpload inlineEnv (growingUpload i ((List.range n).map fun k => numbered (k + 1)))
      true).db.deltas (numberedFp 0)).length = n := by
  have hrun : ∀ (u : Upload) m, m < 2 ^ 32 → Fed m ((((List.range m).map fun k =>
      (⟨[numbered (k + 1)], filler⟩ : Batch)).map (u.message inlineEnv)).foldl
        (Session.receive inlineEnv) (Session.start s u.login)).server := by
    intro u m
    induction m with
    | zero => exact fun _ => h.congr ⟨rfl, rfl, rfl, fun hc => ⟨hc.valid, hc.cached⟩⟩
    | succ m ih =>
        intro hm
        rw [List.range_succ, List.map_append, List.map_append, List.foldl_append]
        simp only [List.map_cons, List.map_nil, List.foldl_cons, List.foldl_nil]
        exact (ih (by omega)).receive hm filler
  rw [Server.db_receiveUpload_batches, growingUpload, List.map_map]
  exact (hrun _ n hn).count

theorem Fed.not_fitsThrough {s : Server} (h : Fed 0 s) {n : Nat} (hlarge : 99999 < n)
    (hn : n < 2 ^ 32) (i : UInt8) : ¬ s.FitsThrough inlineEnv
      (.upload (growingUpload i ((List.range n).map fun k => numbered (k + 1)))) := by
  intro hfits
  have hfit : (1 + ((s.receiveUpload inlineEnv (growingUpload i
      ((List.range n).map fun k => numbered (k + 1))) true).db.deltas
        (numberedFp 0)).length) * CHUNK_HASH_SIZE ≤ processBufferSize := by
    rw [← Server.db_serve_upload]
    exact hfits.after (numberedFp 0)
  rw [h.upload hn] at hfit
  simp only [CHUNK_HASH_SIZE, processBufferSize] at hfit
  omega

/-- **A hundred thousand similar chunks** are more than the buffer has room for. -/
theorem not_fits_growing : ¬ ∀ v ∈ visits (Server.serve inlineEnv)
    (Server.boot inlineEnv ⟨[], fun _ => []⟩)
    [.upload (growingUpload 0 [sharedChunk]),
      .upload (growingUpload 1 ((List.range 100000).map fun k => numbered (k + 1)))],
      v.1.FitsThrough inlineEnv v.2 := by
  intro h
  rw [visits_cons, List.forall_mem_cons, visits_cons, List.forall_mem_cons] at h
  exact fed_based.not_fitsThrough (by decide) (by decide) 1 h.2.1

end Growing

end ShieldReduce
