import ShieldReduce.Invariant.Extends
import ShieldReduce.Invariant.Offline
import ShieldReduce.Guarantee.Interrupted
import ShieldReduce.Guarantee.IvReuse
import ShieldReduce.Guarantee.Replay

/-!
# The chunk counts and the index

What the enclave counts against what the index holds (`countsOf`). Every
chunk that an upload stores is counted, and so is every move of an
offline pass, but two things go wrong. `Ecall_UpdateOnlineInfo` ends a
plain upload with the counts of the last pass, so that the chunks of the
upload are forgotten; and `Easy_update` counts an old base as converted
even if one of its delta chunks has stayed behind and the base with it
(`Miscounts`). A run without either keeps the counts right
(`booked_run`).
-/

namespace ShieldReduce

open ByteLib UMapLib LoopLib

variable {env : Env}

/-! ## Counting an index -/

/-- The entries of the index with a flag. -/
def entriesWith (env : Env) (db : InMemoryDatabase) (flag : UInt8) : List RecipeEntry :=
  ((pairs db.indexObj).map fun p => env.decEntry p.2).filter fun e => e.deltaFlag = flag

/-- The sum of the lengths of entries. -/
def lengths (es : List RecipeEntry) : Nat := (es.map fun e => e.length.toNat).sum

/-- What the counts have to be. -/
def countsOf (env : Env) (db : InMemoryDatabase) : ChunkCounts where
  baseChunkNum := (entriesWith env db NO_DELTA).length
  baseDataSize := UInt64.ofNat (lengths (entriesWith env db NO_DELTA))
  deltaChunkNum := UInt64.ofNat (entriesWith env db DELTA).length
  deltaDataSize := UInt64.ofNat (lengths (entriesWith env db DELTA))

/-- The part of an entry in a sum over the entries with a flag. -/
def weight (env : Env) (flag : UInt8) (g : RecipeEntry → Nat) (v : Cipher) : Nat :=
  if (env.decEntry v).deltaFlag = flag then g (env.decEntry v) else 0

theorem sum_entriesWith (env : Env) (db : InMemoryDatabase) (flag : UInt8) (g : RecipeEntry → Nat) :
    ((entriesWith env db flag).map g).sum = total (weight env flag g) db.indexObj := by
  unfold entriesWith total
  induction pairs db.indexObj with
  | nil => rfl
  | cons p ps ih =>
      rw [List.map_cons, List.filter_cons, List.map_cons, List.sum_cons, ← ih, weight]
      by_cases hflag : (env.decEntry p.2).deltaFlag = flag
      · simp only [hflag, decide_true, if_true, List.map_cons, List.sum_cons]
      · simp only [hflag, decide_false, if_false, Nat.zero_add]
        rfl

theorem length_entriesWith (env : Env) (db : InMemoryDatabase) (flag : UInt8) :
    (entriesWith env db flag).length = total (weight env flag fun _ => 1) db.indexObj := by
  rw [← sum_entriesWith]
  simp

theorem countsOf_eq (env : Env) (db : InMemoryDatabase) : countsOf env db =
    { baseChunkNum := (total (weight env NO_DELTA fun _ => 1) db.indexObj : Nat)
      baseDataSize := UInt64.ofNat (total (weight env NO_DELTA fun e => e.length.toNat) db.indexObj)
      deltaChunkNum := UInt64.ofNat (total (weight env DELTA fun _ => 1) db.indexObj)
      deltaDataSize :=
        UInt64.ofNat (total (weight env DELTA fun e => e.length.toNat) db.indexObj) } := by
  unfold countsOf lengths
  rw [length_entriesWith, length_entriesWith, sum_entriesWith, sum_entriesWith]

theorem weight_of_eq {e : RecipeEntry} (henv : env.Lawful) {flag : UInt8} (h : e.deltaFlag = flag)
    (g : RecipeEntry → Nat) : weight env flag g (env.encEntry e) = g e := by
  rw [weight, henv.decEntry_encEntry, if_pos h]

theorem weight_of_ne {e : RecipeEntry} (henv : env.Lawful) {flag : UInt8} (h : e.deltaFlag ≠ flag)
    (g : RecipeEntry → Nat) : weight env flag g (env.encEntry e) = 0 := by
  rw [weight, henv.decEntry_encEntry, if_neg h]

/-- Flag and length of an entry. -/
def kindOf (env : Env) (v : Cipher) : UInt8 × Nat :=
  ((env.decEntry v).deltaFlag, (env.decEntry v).length.toNat)

/-- Only the flags and the lengths are counted. -/
theorem countsOf_congr {db db' : InMemoryDatabase}
    (h : ∀ f, (db'.queryBuffer f).map (kindOf env) = (db.queryBuffer f).map (kindOf env)) :
    countsOf env db' = countsOf env db := by
  have htotal : ∀ (flag : UInt8) (g : RecipeEntry → Nat) (g' : Nat → Nat),
      (∀ e, g e = g' e.length.toNat) →
      total (weight env flag g) db'.indexObj = total (weight env flag g) db.indexObj := by
    intro flag g g' hg
    have hweight : weight env flag g =
        (fun k : UInt8 × Nat => if k.1 = flag then g' k.2 else 0) ∘ kindOf env := by
      funext v
      rw [weight, hg]
      rfl
    refine total_congr fun f => ?_
    rw [hweight, ← Option.map_map, ← Option.map_map]
    exact congrArg _ (h f)
  rw [countsOf_eq, countsOf_eq, htotal NO_DELTA (fun _ => 1) (fun _ => 1) fun _ => rfl,
    htotal DELTA (fun _ => 1) (fun _ => 1) fun _ => rfl,
    htotal NO_DELTA (fun e => e.length.toNat) id fun _ => rfl,
    htotal DELTA (fun e => e.length.toNat) id fun _ => rfl]

theorem countsOf_indexObj {db db' : InMemoryDatabase} (h : db'.indexObj = db.indexObj) :
    countsOf env db' = countsOf env db := by
  unfold countsOf entriesWith
  rw [h]

section Entries

variable (henv : env.Lawful) {db : InMemoryDatabase} {f : Fp} {e e₀ : RecipeEntry}

include henv

theorem countsOf_insert_delta (hnew : db.queryBuffer f = none) (he : e.deltaFlag = DELTA) :
    countsOf env (db.insertBothBuffer f (env.encEntry e)) =
      (countsOf env db).addDelta e.length.toNat := by
  have hno : e.deltaFlag ≠ NO_DELTA := by
    rw [he]
    exact noDelta_ne_delta.symm
  rw [countsOf_eq, countsOf_eq]
  unfold InMemoryDatabase.insertBothBuffer ChunkCounts.addDelta
  simp only [total_insert_new hnew, weight_of_eq henv he, weight_of_ne henv hno, Nat.zero_add,
    UInt64.ofNat_add]
  rw [UInt64.add_comm, UInt64.add_comm (UInt64.ofNat e.length.toNat)]
  rfl

theorem countsOf_insert_base (hnew : db.queryBuffer f = none) (he : e.deltaFlag = NO_DELTA) :
    countsOf env (db.insertBothBuffer f (env.encEntry e)) =
      (countsOf env db).addBase e.length.toNat := by
  have hno : e.deltaFlag ≠ DELTA := by
    rw [he]
    exact noDelta_ne_delta
  rw [countsOf_eq, countsOf_eq]
  unfold InMemoryDatabase.insertBothBuffer ChunkCounts.addBase
  simp only [total_insert_new hnew, weight_of_eq henv he, weight_of_ne henv hno, Nat.zero_add,
    UInt64.ofNat_add]
  rw [UInt64.add_comm (UInt64.ofNat e.length.toNat), Nat.add_comm 1]
  rfl

/-- A delta chunk gets another entry. -/
theorem countsOf_resize (hold : db.queryBuffer f = some (env.encEntry e₀))
    (he₀ : e₀.deltaFlag = DELTA) (he : e.deltaFlag = DELTA) :
    countsOf env (db.insertBothBuffer f (env.encEntry e)) =
      (countsOf env db).resizeDelta e₀.length.toNat e.length.toNat := by
  have hno : e.deltaFlag ≠ NO_DELTA := by
    rw [he]
    exact noDelta_ne_delta.symm
  have hno₀ : e₀.deltaFlag ≠ NO_DELTA := by
    rw [he₀]
    exact noDelta_ne_delta.symm
  rw [countsOf_eq, countsOf_eq]
  unfold InMemoryDatabase.insertBothBuffer ChunkCounts.resizeDelta
  simp only [total_insert, total_erase hold, weight_of_eq henv he, weight_of_ne henv hno,
    weight_of_eq henv he₀, weight_of_ne henv hno₀, UInt64.ofNat_add]
  congr 1
  grind

/-- A base chunk becomes a delta chunk. -/
theorem countsOf_convert (hold : db.queryBuffer f = some (env.encEntry e₀))
    (he₀ : e₀.deltaFlag = NO_DELTA) (he : e.deltaFlag = DELTA) :
    countsOf env (db.insertBothBuffer f (env.encEntry e)) =
      (countsOf env db).convert e₀.length.toNat e.length.toNat := by
  have hno : e.deltaFlag ≠ NO_DELTA := by
    rw [he]
    exact noDelta_ne_delta.symm
  have hno₀ : e₀.deltaFlag ≠ DELTA := by
    rw [he₀]
    exact noDelta_ne_delta
  rw [countsOf_eq, countsOf_eq]
  unfold InMemoryDatabase.insertBothBuffer ChunkCounts.convert
  simp only [total_insert, total_erase hold, weight_of_eq henv he, weight_of_ne henv hno,
    weight_of_eq henv he₀, weight_of_ne henv hno₀, UInt64.ofNat_add]
  congr 1
  · omega
  · grind
  · grind
  · grind

end Entries

/-! ## Uploads -/

/-- The chunks of both kinds. -/
def ChunkCounts.chunkNum (c : ChunkCounts) : UInt64 :=
  UInt64.ofInt c.baseChunkNum + c.deltaChunkNum

/-- `_uniqueChunkNum` is the number of both kinds. -/
def Balanced (i : EnclaveInfo) : Prop := i.uniqueChunkNum = i.online.chunkNum

theorem Balanced.addDelta {i : EnclaveInfo} (h : Balanced i) (n : Nat) :
    Balanced { i with online := i.online.addDelta n, uniqueChunkNum := i.uniqueChunkNum + 1 } := by
  unfold Balanced ChunkCounts.chunkNum at h ⊢
  dsimp only
  rw [h]
  exact UInt64.add_assoc _ _ _

theorem Balanced.addBase {i : EnclaveInfo} (h : Balanced i) (n : Nat) :
    Balanced { i with online := i.online.addBase n, uniqueChunkNum := i.uniqueChunkNum + 1 } := by
  unfold Balanced ChunkCounts.chunkNum at h ⊢
  dsimp only [ChunkCounts.addBase]
  rw [h, UInt64.ofInt_add, UInt64.add_assoc, UInt64.add_assoc, UInt64.add_comm (UInt64.ofInt 1)]
  rfl

/-- The counts of `EnclaveBase` are right. -/
structure Counted (env : Env) (s : Server) (i : EnclaveInfo) : Prop where
  online : i.online = countsOf env s.db
  unique : Balanced i

namespace EcallFreqIndex

/-- One entry that the store loop is done with, in the counts and in the index. -/
theorem counted_updateOutIndex (henv : env.Lawful) {db : InMemoryDatabase} {i : EnclaveInfo}
    {e : InQueryEntry} {o : OutQueryEntry} (ho : e.out = some o) (hi : i.online = countsOf env db)
    (hb : Balanced i) (hflag : o.dedupFlag = .duplicate ∨ o.dedupFlag = .unique)
    (hnew : o.dedupFlag = .unique → db.queryBuffer o.chunkHash = none)
    (hstored : o.dedupFlag ≠ .duplicate → o.chunkAddr = env.encEntry e.chunkAddr ∧
      (e.chunkAddr.deltaFlag = DELTA ∨ e.chunkAddr.deltaFlag = NO_DELTA)) :
    (countEntry i e).online = countsOf env (updateOutIndex db o) ∧ Balanced (countEntry i e) := by
  unfold countEntry updateOutIndex
  rw [ho]
  rcases hflag with hdup | hu
  · simp only [hdup, if_true, reduceCtorEq, if_false]
    exact ⟨hi, hb⟩
  · have hne : o.dedupFlag ≠ .duplicate := by simp [hu]
    obtain ⟨haddr, hkind⟩ := hstored hne
    dsimp only
    rw [if_neg hne, if_pos hu]
    have hindex : countsOf env (if o.deltaFlag = .noDelta ∧ o.offlineFlag = false then
        (db.insertBothBuffer o.chunkHash o.chunkAddr).insertSF o.superfeature o.chunkHash .push
        else db.insertBothBuffer o.chunkHash o.chunkAddr) =
        countsOf env (db.insertBothBuffer o.chunkHash (env.encEntry e.chunkAddr)) := by
      rw [← haddr]
      refine countsOf_indexObj ?_
      split <;> rfl
    rw [hindex]
    rcases hkind with hdelta | hbase
    · rw [if_pos hdelta, countsOf_insert_delta henv (hnew hu) hdelta, hi]
      exact ⟨rfl, hi ▸ hb.addDelta _⟩
    · have hno : e.chunkAddr.deltaFlag ≠ DELTA := by
        rw [hbase]
        exact noDelta_ne_delta
      rw [if_neg hno, if_pos hbase, countsOf_insert_base henv (hnew hu) hbase, hi]
      exact ⟨rfl, hi ▸ hb.addBase _⟩

/-- All entries of a batch. -/
theorem counted_foldl_updateOutIndex (henv : env.Lawful) {db₀ : InMemoryDatabase}
    {es es' : List InQueryEntry} (hfin : List.Forall₂ (Finished env) es es') (hnew : NewKeys db₀ es')
    (hdistinct : ((es'.filterMap InQueryEntry.out).map OutQueryEntry.chunkHash).Nodup)
    {db : InMemoryDatabase} {i : EnclaveInfo}
    (hdb : ∀ e ∈ es', ∀ o, e.out = some o → db.queryBuffer o.chunkHash = db₀.queryBuffer o.chunkHash)
    (hi : i.online = countsOf env db) (hb : Balanced i) :
    (es'.foldl countEntry i).online =
        countsOf env ((es'.filterMap InQueryEntry.out).foldl updateOutIndex db) ∧
      Balanced (es'.foldl countEntry i) ∧ (es'.foldl countEntry i).offline = i.offline := by
  induction hfin generalizing db i with
  | nil => exact ⟨hi, hb, rfl⟩
  | @cons e e' es es' hfin _ ih =>
      have hnew' : NewKeys db₀ es' := fun x hx => hnew x (List.mem_cons_of_mem _ hx)
      cases ho : e'.out with
      | none =>
          have hsame : countEntry i e' = i := by
            unfold countEntry
            rw [ho]
          have hnone : (e' :: es').filterMap InQueryEntry.out = es'.filterMap InQueryEntry.out := by
            rw [List.filterMap_cons, ho]
          rw [hnone] at hdistinct ⊢
          rw [List.foldl_cons, hsame]
          exact ih hnew' hdistinct (fun x hx => hdb x (List.mem_cons_of_mem _ hx)) hi hb
      | some o =>
          have hsome : (e' :: es').filterMap InQueryEntry.out =
              o :: es'.filterMap InQueryEntry.out := by
            rw [List.filterMap_cons, ho]
          rw [hsome] at hdistinct ⊢
          rw [List.map_cons, List.nodup_cons] at hdistinct
          obtain ⟨hflag, hkey⟩ := hnew e' (List.mem_cons_self ..) o ho
          have hsame := hdb e' (List.mem_cons_self ..) o ho
          obtain ⟨hi', hb'⟩ := counted_updateOutIndex henv ho hi hb hflag
            (fun hu => hsame.trans (hkey hu)) (hfin.stored o ho)
          have hoffline : (countEntry i e').offline = i.offline := by
            unfold countEntry
            rw [ho]
            dsimp only
            split <;> rfl
          have hlater : ∀ x ∈ es', ∀ o', x.out = some o' →
              (updateOutIndex db o).queryBuffer o'.chunkHash = db₀.queryBuffer o'.chunkHash := by
            intro x hx o' ho'
            have hold := hdb x (List.mem_cons_of_mem _ hx) o' ho'
            rw [queryBuffer_updateOutIndex]
            split
            · rw [Function.update_of_ne, hold]
              intro heq
              exact hdistinct.1 (List.mem_map.mpr ⟨o', List.mem_filterMap.mpr ⟨x, hx, ho'⟩, heq⟩)
            · exact hold
          obtain ⟨h1, h2, h3⟩ := ih hnew' hdistinct.2 hlater hi' hb'
          exact ⟨h1, h2, h3.trans hoffline⟩

theorem chunkHashes_finished {es es' : List InQueryEntry} (h : List.Forall₂ (Finished env) es es') :
    (es'.filterMap InQueryEntry.out).map OutQueryEntry.chunkHash =
      (es.filterMap InQueryEntry.out).map OutQueryEntry.chunkHash := by
  induction h with
  | nil => rfl
  | @cons e e' es es' hfin _ ih =>
      have hout := hfin.out
      cases ho : e.out with
      | none =>
          rw [ho] at hout
          rw [List.filterMap_cons, List.filterMap_cons, ho, Option.map_eq_none_iff.mp hout]
          exact ih
      | some o =>
          rw [ho] at hout
          obtain ⟨o', ho', heq⟩ := Option.map_eq_some_iff.mp hout
          rw [List.filterMap_cons, List.filterMap_cons, ho, ho']
          dsimp only
          rw [List.map_cons, List.map_cons, ih, (Prod.mk.injEq .. |>.mp heq).1]

/-- **A batch** is counted. -/
theorem counted_batch (henv : env.Lawful) (s : Session) (cs : List Chunk) (stale : Nat → RecipeEntry)
    {i : EnclaveInfo} (h : Counted env s.server i) :
    Counted env (processOneBatch env s (env.sessionKeyEnc s.client.sessionKey
        (frameChunks (cs.map Subtype.val))) cs.length stale).server
      (batchInfo env s (env.sessionKeyEnc s.client.sessionKey
        (frameChunks (cs.map Subtype.val))) cs.length stale i) ∧
    (batchInfo env s (env.sessionKeyEnc s.client.sessionKey
      (frameChunks (cs.map Subtype.val))) cs.length stale i).offline = i.offline := by
  obtain ⟨sketch, es, hquery, hbatch⟩ := queryBatch_spec henv s.server cs stale
  unfold processOneBatch batchInfo
  simp only [henv.sessionKey, hquery]
  have hentry : ∀ e ∈ es, EntryOk env (fun _ => True) s.server.db
      (frameChunks (cs.map Subtype.val)) e := hbatch.entryOk fun _ _ => trivial
  obtain ⟨es', hes', hfin⟩ := finished_foldl_storeEntry env (frameChunks (cs.map Subtype.val))
    (localChecker env es) es ⟨{ s with server := { s.server with cmSketch := sketch } }, [], [], []⟩
  have hdb := db_foldl_storeEntry (localChecker env es) es
    ⟨{ s with server := { s.server with cmSketch := sketch } }, [], [], []⟩ hentry
  generalize es.foldl (storeEntry env (frameChunks (cs.map Subtype.val)) (localChecker env es))
    ⟨{ s with server := { s.server with cmSketch := sketch } }, [], [], []⟩ = st at hes' hdb ⊢
  have hdb' : st.session.server.db = s.server.db := hdb
  have hquery' := queryBuffer_insertPairs (localChecker env es) s.server.db st.batchBasemap
    st.processBuffer
  have hpairs : countsOf env (insertPairs (localChecker env es) s.server.db st.batchBasemap
      st.processBuffer) = countsOf env s.server.db := countsOf_congr fun f => by rw [hquery']
  obtain ⟨h1, h2, h3⟩ := counted_foldl_updateOutIndex henv hfin (newKeys_finished hfin hentry)
    (by rw [chunkHashes_finished hfin]; exact hbatch.distinct)
    (fun e _ o _ => by rw [hquery']) (h.online.trans hpairs.symm) h.unique
  rw [hes', List.nil_append]
  refine ⟨⟨?_, h2⟩, h3⟩
  rw [db_finishBatch, hdb', h1]
  unfold applied
  rw [hes', List.nil_append]

end EcallFreqIndex

/-- **An upload** is counted. -/
theorem counted_upload (henv : env.Lawful) (s : Server) (u : Upload) {i : EnclaveInfo}
    (h : Counted env s i) : Counted env (s.receiveUpload env u true) (u.info env s i) ∧
      (u.info env s i).offline = i.offline := by
  have hfold : ((u.messages env true).foldl (Session.receive env)
        (Session.start s u.login)).client.sessionKey = u.login.sessionKey ∧
      Counted env ((u.messages env true).foldl (Session.receive env)
        (Session.start s u.login)).server (u.info env s i) ∧
      (u.info env s i).offline = i.offline := by
    refine foldl_observed (I := fun (t : Session) (j : EnclaveInfo) =>
        t.client.sessionKey = u.login.sessionKey ∧ Counted env t.server j ∧ j.offline = i.offline)
      (u.messages env true) (Session.start s u.login) i ?_ ⟨rfl, ⟨h.online, h.unique⟩, rfl⟩
    rintro ⟨t, msg⟩ hv j ⟨hkey, hcounted, hoff⟩
    have hmsg : msg ∈ u.messages env true := mem_of_mem_visits _ _ hv
    rcases List.mem_append.mp hmsg with hmsg | hmsg
    · obtain ⟨b, -, rfl⟩ := List.mem_map.mp hmsg
      have hframe := (frame_batch henv t b.chunks b.stale []).1
      obtain ⟨hcounted', hoff'⟩ := EcallFreqIndex.counted_batch henv t b.chunks b.stale hcounted
      have hreceive := receive_message env u b hkey
      have hinfo : t.receiveInfo env (u.message env b) j = EcallFreqIndex.batchInfo env t
          (env.sessionKeyEnc t.client.sessionKey (frameChunks (b.chunks.map Subtype.val)))
          b.chunks.length b.stale j := by
        rw [hkey]
        rfl
      dsimp only
      rw [hreceive, hinfo]
      exact ⟨hframe.sessionKey.trans hkey, hcounted', hoff'.trans hoff⟩
    · obtain rfl := List.mem_singleton.mp hmsg
      have hserver := server_recipeEnd env t u.head
      refine ⟨?_, ⟨?_, hcounted.unique⟩, hoff⟩
      · refine Eq.trans ?_ hkey
        show (EcallFreqIndex.processTailBatch env t).client.sessionKey = _
        unfold EcallFreqIndex.processTailBatch
        dsimp only
        split <;> split <;> split <;> rfl
      · dsimp only
        rw [hserver]
        exact hcounted.online
  obtain ⟨-, hcounted, hoff⟩ := hfold
  refine ⟨⟨?_, hcounted.unique⟩, hoff⟩
  have hclosed := (Session.closed_close
    ((u.messages env true).foldl (Session.receive env) (Session.start s u.login))).db
  rw [hcounted.online]
  exact congrArg (countsOf env) hclosed.symm

/-! ## Pairs of an offline pass -/

namespace OFFLineBackward

/-- The entry that a moved chunk gets. -/
theorem indexObj_moveToHot (p : Pass) (f new : Fp) (e : RecipeEntry) (delta : Bytes) (fp : Fp) (sf : Sf)
    (iv : Iv) (hsmall : delta.length ≤ MAX_CHUNK_SIZE) : ∃ moved : RecipeEntry,
      moved.deltaFlag = DELTA ∧ moved.basechunkHash = new ∧ moved.length.toNat = delta.length ∧
      (moveToHot env p f new e delta fp sf iv).server.db.indexObj =
        (p.server.db.insertBothBuffer f (env.encEntry moved)).indexObj := by
  have hmax : MAX_CHUNK_SIZE < 2 ^ 32 := by decide
  have hlen : (UInt32.ofNat delta.length).toNat = delta.length :=
    UInt32.toNat_ofNat_of_lt' (lt_of_le_of_lt hsmall hmax)
  obtain ⟨q, hq, heq⟩ := p.insertHotContainer_cases (env.encryptWithKeyIV delta iv)
    { e with length := UInt32.ofNat delta.length, basechunkHash := new } fp sf iv
  unfold moveToHot
  rw [heq]
  refine ⟨(q.hotRecord (env.encryptWithKeyIV delta iv)
    { e with length := UInt32.ofNat delta.length, basechunkHash := new } fp sf iv).entry, rfl, rfl, hlen, ?_⟩
  rcases hq with ⟨rfl, -⟩ | rfl <;> rfl

theorem counts_moveToHot_delta (henv : env.Lawful) {p : Pass} {f : Fp} {e : RecipeEntry}
    (hf : p.server.db.queryBuffer f = some (env.encEntry e)) (he : e.deltaFlag = DELTA) (new : Fp)
    {delta : Bytes} (hsmall : delta.length ≤ MAX_CHUNK_SIZE) (fp : Fp) (sf : Sf) (iv : Iv) :
    countsOf env (moveToHot env p f new e delta fp sf iv).server.db =
      (countsOf env p.server.db).resizeDelta e.length.toNat delta.length := by
  obtain ⟨moved, hflag, -, hlen, hidx⟩ := @indexObj_moveToHot env p f new e delta fp sf iv hsmall
  rw [countsOf_indexObj hidx, countsOf_resize henv hf he hflag, hlen]

theorem counts_moveToHot_base (henv : env.Lawful) {p : Pass} {f : Fp} {e : RecipeEntry}
    (hf : p.server.db.queryBuffer f = some (env.encEntry e)) (he : e.deltaFlag = NO_DELTA) (new : Fp)
    {delta : Bytes} (hsmall : delta.length ≤ MAX_CHUNK_SIZE) (fp : Fp) (sf : Sf) (iv : Iv) :
    countsOf env (moveToHot env p f new e delta fp sf iv).server.db =
      (countsOf env p.server.db).convert e.length.toNat delta.length := by
  obtain ⟨moved, hflag, -, hlen, hidx⟩ := @indexObj_moveToHot env p f new e delta fp sf iv hsmall
  rw [countsOf_indexObj hidx, countsOf_convert henv hf he hflag, hlen]

variable {s₀ : Server} {abs₀ : Fp → Option Content} {news : Fp → Prop} {rest : List (Fp × Fp)}
  {pending pending' : Fp → Prop} {old new : Fp} {cOld cNew : Content}

/-- A delta chunk of the old base. -/
theorem counts_rebaseDelta (henv : env.Lawful) {e : RecipeEntry} (hold : ¬ news old)
    {v : (Bool × Pass) × Fp}
    (hv : Rebasing.DeltaTurn env s₀ abs₀ news rest pending old new cOld cNew e v) :
    rebaseDeltaInfo env (env.unpackOffline cOld.data) (env.unpackOffline cNew.data) v
        (countsOf env v.1.2.server.db) =
      countsOf env (rebaseDelta env (env.unpackOffline cOld.data) (env.unpackOffline cNew.data) new v.1
        v.2).2.server.db := by
  obtain ⟨st, f⟩ := v
  obtain ⟨F, abs, h, -, hf⟩ := hv
  obtain ⟨n, r, p, -, -, hidx, hc, hflag, -, hrecipe, hp, hsame, hdata, hkey⟩ :=
    h.readDelta henv hold hf
  unfold rebaseDeltaInfo rebaseDelta
  dsimp only
  rw [hrecipe, hp, hdata, hkey]
  have hcases := @getNewDeltachunk_cases env p (r.content env).data
    (env.unpackOffline cOld.data) (env.unpackOffline cNew.data)
  have hsame' := hsame.trans (@samePass_getNewDeltachunk env p (r.content env).data
    (env.unpackOffline cOld.data) (env.unpackOffline cNew.data))
  generalize getNewDeltachunk env p (r.content env).data (env.unpackOffline cOld.data)
    (env.unpackOffline cNew.data) = q at hcases hsame' ⊢
  obtain ⟨made, q⟩ := q
  dsimp only at hcases hsame' ⊢
  rw [← hsame'.db]
  rcases hcases with rfl | ⟨rfl, hle⟩
  · rfl
  · exact (counts_moveToHot_delta henv (by rw [hsame'.db]; exact hidx) hflag new
      (le_trans (not_lt.mp hle) (Rebasing.length_text (h.contents _ _ hc) hflag _)) _ _ _).symm

/-- The old base: the counts are wrong just if it stays although its own delta
fits. -/
theorem counts_convertBase (henv : env.Lawful) {st : Bool × Pass} {F : Containers}
    {abs : Fp → Option Content} (h : Rebasing env s₀ abs₀ news rest pending st.2 F abs)
    {e : RecipeEntry} (ht : Turn env st.2 abs pending old new cOld cNew e) (iv : Iv) :
    convertBaseInfo env (env.unpackOffline cOld.data) (env.unpackOffline cNew.data) e st
        (countsOf env st.2.server.db) =
      countsOf env (convertBase env (env.unpackOffline cOld.data) (env.unpackOffline cNew.data)
        (old, new) e iv st).server.db ↔
    ¬ (st.1 = false ∧ ¬ (env.unpackOffline cOld.data).length <
      (ed3EncodeBuffer env st.2 (env.unpackOffline cOld.data)
        (env.unpackOffline cNew.data)).1.length) := by
  have hsame := @samePass_ed3EncodeBuffer env st.2 (env.unpackOffline cOld.data)
    (env.unpackOffline cNew.data)
  have hwhole : e.deltaFlag = NO_DELTA := by
    obtain ⟨d, n, r, -, -, hidx, hcontent⟩ := h.rep.found ht.known
    obtain rfl := henv.encEntry_inj (Option.some.inj (hidx.symm.trans ht.entry))
    rw [← ht.whole, ← hcontent]
    rfl
  unfold convertBaseInfo convertBase
  dsimp only
  split
  · rename_i hlt
    exact iff_of_true (by rw [hsame.db]) fun hstays => hstays.2 hlt
  rename_i hle
  have hsmall := le_trans (not_lt.mp hle)
    (henv.length_unpackOffline (h.contents _ _ ht.known).size)
  have hsame' := hsame.trans (samePass_resize (ed3EncodeBuffer env st.2
    (env.unpackOffline cOld.data) (env.unpackOffline cNew.data)).2 e.length.toNat
    (ed3EncodeBuffer env st.2 (env.unpackOffline cOld.data) (env.unpackOffline cNew.data)).1.length)
  rw [← hsame'.db]
  split
  · rename_i hmoves
    refine iff_of_true ?_ fun hstays => by
      rw [hmoves] at hstays
      cases hstays.1
    exact (counts_moveToHot_base henv (by rw [hsame'.db]; exact ht.entry) hwhole new hsmall _ _ _).symm
  · rename_i hstays
    -- there is one base too few
    refine iff_of_false (fun heq => ?_) (not_not_intro ⟨Bool.eq_false_iff.mpr hstays, hle⟩)
    have hbase := congrArg ChunkCounts.baseChunkNum heq
    unfold ChunkCounts.convert at hbase
    dsimp only at hbase
    omega

/-- The base stays behind one of its delta chunks, but is counted as converted. -/
def Miscounts (env : Env) (p : Pass) (pair : Fp × Fp) : Prop :=
  match rebaseCall env p pair with
  | some k => (k.afterDeltas env pair).1 = false ∧ ¬ (k.oldChunk env).length <
      (ed3EncodeBuffer env (k.afterDeltas env pair).2 (k.oldChunk env) (k.newChunk env)).1.length
  | none => False

instance (env : Env) (p : Pass) (pair : Fp × Fp) : Decidable (Miscounts env p pair) :=
  match h : rebaseCall env p pair with
  | some k => decidable_of_iff ((k.afterDeltas env pair).1 = false ∧ ¬ (k.oldChunk env).length <
      (ed3EncodeBuffer env (k.afterDeltas env pair).2 (k.oldChunk env) (k.newChunk env)).1.length)
      (by rw [Miscounts, h])
  | none => isFalse (by rw [Miscounts, h]; exact id)

/-- **A pair** is counted, unless it miscounts. -/
theorem counts_updatePair (henv : env.Lawful) {v : Pass × (Fp × Fp)}
    (hv : Rebasing.Visited env s₀ abs₀ news v) :
    updatePairInfo env v.1 v.2 (countsOf env v.1.server.db) =
        countsOf env (updatePair env v.1 v.2).server.db ↔ ¬ Miscounts env v.1 v.2 := by
  obtain ⟨p, old, new⟩ := v
  obtain ⟨rest, pending, pending', F, abs, hdue, hcreated⟩ := hv
  dsimp only at hdue hcreated ⊢
  unfold updatePairInfo Miscounts
  rcases hdue.cases henv with ⟨hcall, hgreedy⟩ | ⟨k, cOld, cNew, hcall, hok, hidx⟩
  · rw [hcall, hgreedy]
    refine iff_of_true (countsOf_indexObj ?_).symm not_false
    unfold greedyPair
    dsimp only
    unfold Pass.queryDeltaIndex InMemoryDatabase.queryDeltaIndex
    dsimp only
    split <;> rfl
  · rw [updatePair_of_call env hcall, k.rebase_eq] at hcreated ⊢
    rw [hcall]
    dsimp only
    obtain ⟨⟨F', abs', h', hturn', -⟩, hvisits⟩ := hok.deltas henv hdue.isNew hdue.notNew
      (le_trans (created_convertBase _ _ _ _ _ _) hcreated)
    have hasked : countsOf env p.server.db = countsOf env (k.asked (old, new)).2.server.db := by
      rw [← countsOf_indexObj hidx]
      refine (countsOf_indexObj ?_).symm
      unfold RebaseCall.asked Pass.queryDeltaIndex InMemoryDatabase.queryDeltaIndex
      dsimp only
      split <;> rfl
    -- the delta chunks of the old base, then the base itself
    have hdeltas : (visits (rebaseDelta env (k.oldChunk env) (k.newChunk env) new)
        (true, (k.asked (old, new)).2) (k.asked (old, new)).1).foldl
          (fun c v => rebaseDeltaInfo env (k.oldChunk env) (k.newChunk env) v c)
          (countsOf env p.server.db) = countsOf env (k.afterDeltas env (old, new)).2.server.db := by
      refine foldl_observed (I := fun (st : Bool × Pass) c => c = countsOf env st.2.server.db)
        (k.asked (old, new)).1 (true, (k.asked (old, new)).2) _ (fun v hv c hc => ?_) hasked
      have hstep := counts_rebaseDelta henv hdue.notNew (hvisits v hv)
      rw [← hok.oldChunk, ← hok.newChunk] at hstep
      rw [hc]
      exact hstep
    unfold RebaseCall.info
    rw [hdeltas]
    have hbase := counts_convertBase henv h' hturn' (getChunkIV k.oldContainer k.oldRecipe)
    rw [← hok.oldChunk, ← hok.newChunk] at hbase
    exact hbase

/-- No chunk is lost or won by the statistics of a pair. -/
theorem chunkNum_rebaseDeltaInfo (oldChunk newChunk : Bytes) (v : (Bool × Pass) × Fp)
    (c : ChunkCounts) : (rebaseDeltaInfo env oldChunk newChunk v c).chunkNum = c.chunkNum := by
  unfold rebaseDeltaInfo
  dsimp only
  split <;> rfl

theorem chunkNum_convertBaseInfo (oldChunk newChunk : Bytes) (e : RecipeEntry) (st : Bool × Pass)
    (c : ChunkCounts) : (convertBaseInfo env oldChunk newChunk e st c).chunkNum = c.chunkNum := by
  unfold convertBaseInfo
  dsimp only
  split
  · rfl
  · unfold ChunkCounts.convert ChunkCounts.chunkNum
    dsimp only
    rw [sub_eq_add_neg, UInt64.ofInt_add]
    show UInt64.ofInt c.baseChunkNum + -1 + (c.deltaChunkNum + 1) = _
    grind

theorem chunkNum_updatePairInfo (p : Pass) (pair : Fp × Fp) (c : ChunkCounts) :
    (updatePairInfo env p pair c).chunkNum = c.chunkNum := by
  unfold updatePairInfo
  split
  · rename_i k _
    unfold RebaseCall.info
    rw [chunkNum_convertBaseInfo]
    refine List.foldlRecOn (motive := fun d : ChunkCounts => d.chunkNum = c.chunkNum) _ _ rfl ?_
    intro d hd v _
    rw [chunkNum_rebaseDeltaInfo, hd]
  · rfl

/-- **The pairs of a pass** are counted. -/
theorem counts_updateLocal (henv : env.Lawful) (fuel : Nat) {p : Pass}
    (hv : ∀ v ∈ updateLocalVisits env fuel p,
      Rebasing.Visited env s₀ abs₀ news v ∧ ¬ Miscounts env v.1 v.2) :
    (updateLocalVisits env fuel p).foldl (fun c v => updatePairInfo env v.1 v.2 c)
      (countsOf env p.server.db) = countsOf env (updateLocal env fuel p).server.db := by
  induction fuel generalizing p with
  | zero => rfl
  | succ fuel ih =>
      rcases updateLocal_round env fuel p with ⟨hstop, hnone⟩ | ⟨batch, rest, p₁, p₂, hround⟩
      · rw [hstop, hnone]
        rfl
      · rw [hround.visits] at hv ⊢
        -- taking the batch off the list leaves the index alone
        have htake : countsOf env p.server.db = countsOf env p₁.server.db :=
          (countsOf_indexObj (by rw [hround.taken]; rfl)).symm
        have hbatch : (visits (updatePair env) p₁ (walkedPairs env batch)).foldl
            (fun c v => updatePairInfo env v.1 v.2 c) (countsOf env p.server.db) =
              countsOf env p₂.server.db := by
          rw [hround.worked]
          refine foldl_observed (I := fun (p : Pass) c => c = countsOf env p.server.db) _ _ _
            (fun v hmem c hc => ?_) htake
          obtain ⟨hvisited, hright⟩ := hv v (List.mem_append_left _ hmem)
          rw [hc]
          exact (counts_updatePair henv hvisited).mpr hright
        rw [List.foldl_append, hbatch, hround.goesOn]
        exact ih fun v hmem => hv v (List.mem_append_right _ hmem)

end OFFLineBackward

/-! ## Offline passes -/

/-- Flag and length are those of the chunk. -/
theorem Rep.kindOf (henv : env.Lawful) {F : Containers} {idx : Fp → Option Cipher}
    {abs : Fp → Option Content} (h : Rep env F idx abs) (f : Fp) :
    (idx f).map (ShieldReduce.kindOf env) = (abs f).map fun c => (c.deltaFlag, c.data.length) := by
  cases hc : abs f with
  | none => rw [h.catalog.known f hc, Option.map_none, Option.map_none]
  | some c =>
      obtain ⟨d, n, r, hr, -, hidx, rfl⟩ := h.found hc
      rw [hidx, Option.map_some, Option.map_some, ShieldReduce.kindOf, henv.decEntry_encEntry,
        (h.placed hr).2]
      show _ = some (r.entry.deltaFlag, (env.decryptionWithKeyIV r.payload r.iv).length)
      rw [henv.length_decKeyIV]

/-- What holds the same chunks has the same counts. -/
theorem countsOf_rep (henv : env.Lawful) {F F' : Containers} {db db' : InMemoryDatabase}
    {abs : Fp → Option Content} (h : Rep env F db.queryBuffer abs)
    (h' : Rep env F' db'.queryBuffer abs) : countsOf env db' = countsOf env db :=
  countsOf_congr fun f => by rw [h.kindOf henv, h'.kindOf henv]

/-- **A pass** is counted, if none of its pairs miscounts. -/
theorem counted_processOff (henv : env.Lawful) {s : Server} {F : Containers}
    {abs : Fp → Option Content} (h : Rest env s F abs) (m : PassResidue)
    (hcreated : (processOff env s m).created ≤ 2 ^ 31)
    (hright : ∀ v ∈ processOffVisits env s m, ¬ OFFLineBackward.Miscounts env v.1 v.2)
    {i : EnclaveInfo} (hi : Counted env s i) :
    (processOffInfo env s m i).offline = countsOf env (processOff env s m).db ∧
      Balanced (processOffInfo env s m i).updateOnlineInfo := by
  have hchunks : (processOffInfo env s m i).offline.chunkNum = i.online.chunkNum := by
    unfold processOffInfo
    refine List.foldlRecOn (motive := fun d : ChunkCounts => d.chunkNum = i.online.chunkNum) _ _ rfl ?_
    intro d hd v _
    rw [OFFLineBackward.chunkNum_updatePairInfo, hd]
  refine ⟨?_, hi.unique.trans hchunks.symm⟩
  unfold processOffVisits at hright
  unfold processOffInfo processOffVisits
  rw [processOff_eq] at hcreated ⊢
  dsimp only
  rw [hi.online]
  split at hcreated
  · rename_i hon
    rw [if_pos hon] at hright ⊢
    rw [if_pos hon]
    obtain ⟨⟨F₁, abs₁, h₁⟩, hvisits⟩ := h.updateLocal henv m hcreated
    obtain ⟨F₂, hrest, -⟩ := h₁.finish henv h.heap
    have hpairs := OFFLineBackward.counts_updateLocal henv
      ((Pass.revised env s m).server.db.localMap.length + 1) (p := Pass.revised env s m)
      fun v hv => ⟨hvisits v hv, hright v hv⟩
    rw [OFFLineBackward.easyUpdate_eq, countsOf_rep henv h₁.rep hrest.stock.rep, ← hpairs]
    rfl
  · rename_i hoff
    rw [if_neg hoff, if_neg hoff]
    rfl

/-! ## Runs -/

theorem db_upload_known (henv : env.Lawful) (s : Server) (u : Upload)
    (hknown : ∀ c ∈ u.chunks, (s.db.queryBuffer (env.fp c.1)).isSome) :
    (s.receiveUpload env u true).db = s.db := by
  have hdb := (batches_known henv u u.batches (Session.start s u.login) rfl hknown).2
  have hfilled : (u.filled env s).server.db = s.db := hdb
  have hfinished : (s.receiveUpload env u true).db = (u.finished env s).server.db := by
    rw [receiveUpload_true]
  rw [hfinished, Upload.finished, (Session.closed_close _).db, server_recipeEnd, hfilled]

/-- The counts are right, and `OFFLineBackward` has them too. -/
structure Booked (env : Env) (s : Server) (i : EnclaveInfo) : Prop extends Counted env s i where
  copied : i.offline = i.online

theorem booked_boot (env : Env) (m : Residue) : Booked env (.boot env m) .zero where
  online := by
    have hempty : (Server.boot env m).db.indexObj = ∅ := rfl
    simp only [countsOf_eq, hempty, total_empty]
    rfl
  unique := rfl
  copied := rfl

/-- The session does nothing that is not counted: a plain upload brings chunks
that the index knows already, and no pair of a pass miscounts. -/
def Server.CountsRight (env : Env) (s : Server) : Event → Prop
  | .upload u => ∀ c ∈ u.chunks, (s.db.queryBuffer (env.fp c.1)).isSome
  | .offline u m => ∀ v ∈ processOffVisits env (s.receiveUpload env u true) m,
      ¬ OFFLineBackward.Miscounts env v.1 v.2

instance (env : Env) (s : Server) : (e : Event) → Decidable (s.CountsRight env e)
  | .upload u =>
      inferInstanceAs (Decidable (∀ c ∈ u.chunks, (s.db.queryBuffer (env.fp c.1)).isSome = true))
  | .offline u m => inferInstanceAs (Decidable (∀ v ∈ processOffVisits env
      (s.receiveUpload env u true) m, ¬ OFFLineBackward.Miscounts env v.1 v.2))

theorem booked_serve (henv : env.Lawful) {s : Server} {F : Containers} {abs : Fp → Option Content}
    (h : Rest env s F abs) {i : EnclaveInfo} (hi : Booked env s i) {e : Event}
    (hright : s.CountsRight env e) (hcounts : (s.serve env e).Counts) :
    Booked env (s.serve env e) (s.serveInfo env i e) ∧ ∃ F' abs', Rest env (s.serve env e) F' abs' := by
  cases e with
  | upload u =>
      obtain ⟨hcounted, hoffline⟩ := counted_upload henv s u hi.toCounted
      obtain ⟨F', abs', h', -, -⟩ := h.upload (P := fun _ => True) henv u (fun _ _ => trivial) hcounts
      -- the counts before the upload, which `Ecall_UpdateOnlineInfo` goes back to
      have hback : (u.info env s i).offline = (u.info env s i).online := by
        rw [hoffline, hi.copied, hi.online, hcounted.online, db_upload_known henv s u hright]
      have honline : (u.info env s i).offline = countsOf env (s.receiveUpload env u true).db :=
        hback.trans hcounted.online
      have hunique : (u.info env s i).uniqueChunkNum = (u.info env s i).offline.chunkNum := by
        rw [hback]
        exact hcounted.unique
      exact ⟨⟨⟨honline, hunique⟩, rfl⟩, F', abs', h'.updateOnlineInfo⟩
  | offline u m =>
      obtain ⟨hcounted, -⟩ := counted_upload henv s u hi.toCounted
      obtain ⟨F₁, abs₁, h₁, -, -⟩ := h.upload (P := fun _ => True) henv u (fun _ _ => trivial)
        (le_trans (created_processOff env _ m) hcounts)
      obtain ⟨F', abs', h', -, -⟩ := h₁.processOff henv m hcounts
      obtain ⟨hpass, hunique⟩ := counted_processOff henv h₁ m hcounts hright hcounted
      exact ⟨⟨⟨hpass, hunique⟩, rfl⟩, F', abs', h'.updateOnlineInfo⟩

/-- Sessions one after the other. -/
theorem booked_sessions (henv : env.Lawful) : ∀ (es : List Event) {s : Server} {i : EnclaveInfo}
    {F : Containers} {abs : Fp → Option Content}, Rest env s F abs → Booked env s i →
    (∀ v ∈ visits (Server.serve env) s es, v.1.CountsRight env v.2) → (s.run env es).Counts →
    Booked env (s.run env es) (s.runInfo env es i)
  | [], _, _, _, _, _, hi, _, _ => hi
  | e :: es, s, i, F, abs, h, hi, hright, hcounts => by
      rw [visits_cons] at hright
      obtain ⟨hi', F', abs', h'⟩ := booked_serve henv h hi (hright (s, e) (List.mem_cons_self ..))
        (le_trans (created_run henv es _) hcounts)
      exact booked_sessions henv es h' hi' (fun v hv => hright v (List.mem_cons_of_mem _ hv)) hcounts

/-- **The chunk counts.** In a run whose plain uploads bring nothing new and
whose passes do not miscount, the counts are those of the index after
every session. -/
theorem booked_run (henv : env.Lawful) (m : Residue) (es : List Event)
    (hright : ∀ v ∈ visits (Server.serve env) (.boot env m) es, v.1.CountsRight env v.2)
    (hcounts : ((Server.boot env m).run env es).Counts) (k : Nat) :
    Counted env ((Server.boot env m).run env (es.take k))
      ((Server.boot env m).runInfo env (es.take k) .zero) := by
  have hle : ((Server.boot env m).run env (es.take k)).created ≤
      ((Server.boot env m).run env es).created := by
    conv_rhs => rw [← List.take_append_drop k es, Server.run, List.foldl_append]
    exact created_run henv (es.drop k) _
  have hsub : ∀ v ∈ visits (Server.serve env) (.boot env m) (es.take k), v.1.CountsRight env v.2 := by
    intro v hv
    refine hright v ?_
    rw [← List.take_append_drop k es, visits, outputs_append]
    exact List.mem_append_left _ hv
  exact (booked_sessions henv (es.take k) (.boot env m) (booked_boot env m) hsub
    (le_trans hle hcounts)).toCounted

/-- A pass of one pair: the second chunk takes the place of the first one as a base. -/
theorem booked_similar :
    (processOffVisits .plain (((Server.boot .plain blankResidue).run .plain
      [.offline (similarUpload 1) ⟨zeroCipher, 0, [], []⟩]).receiveUpload .plain
        (similarUpload 2) true) ⟨zeroCipher, 0, [], []⟩).length = 1 ∧
    Counted .plain ((Server.boot .plain blankResidue).run .plain
      [.offline (similarUpload 1) ⟨zeroCipher, 0, [], []⟩,
        .offline (similarUpload 2) ⟨zeroCipher, 0, [], []⟩, .upload (similarUpload 1)])
      ((Server.boot .plain blankResidue).runInfo .plain
        [.offline (similarUpload 1) ⟨zeroCipher, 0, [], []⟩,
          .offline (similarUpload 2) ⟨zeroCipher, 0, [], []⟩, .upload (similarUpload 1)] .zero) :=
  ⟨by decide +kernel, booked_run Env.lawful_plain blankResidue
    [.offline (similarUpload 1) ⟨zeroCipher, 0, [], []⟩,
      .offline (similarUpload 2) ⟨zeroCipher, 0, [], []⟩, .upload (similarUpload 1)]
    (by decide +kernel) (by unfold Server.Counts; decide +kernel) 3⟩

/-- A new server counts nothing of its first upload. -/
theorem not_counted_oneByteUpload : ¬ Counted .plain
    ((Server.boot .plain blankResidue).run .plain [.upload oneByteUpload])
    ((Server.boot .plain blankResidue).runInfo .plain [.upload oneByteUpload] .zero) := by
  intro h
  have hbase := congrArg ChunkCounts.baseChunkNum h.online
  revert hbase
  decide +kernel

end ShieldReduce
