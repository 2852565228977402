import ShieldReduce.System.Calls
import ShieldReduce.Invariant.Upload

/-!
# What a session leaves alone

A session opens new containers and stores chunks under new keys. What the
index held before, and the container files under the names that were
given out before, are still there (`Extends`), from whatever state the
session starts and whether or not it gets to its end: the containers that
it opens have younger names (`Ahead`). A restore that only asks for what
was there before (`Known`) then sends the same
(`Restore.procRecipeBatches_extends`).
-/

namespace ShieldReduce

open ByteLib UMapLib LoopLib

variable {env : Env} {s s' : Server}

structure Extends (s s' : Server) : Prop where
  index : ∀ f v, s.db.queryBuffer f = some v → s'.db.queryBuffer f = some v
  files : ∀ d n, Named s.created n → s'.view d n = s.view d n

theorem Extends.file (h : Extends s s') {n : ContainerName} (hn : Named s.created n) :
    s'.view.file n = s.view.file n := by
  unfold View.file
  rw [h.files .base n hn, h.files .delta n hn]

/-- A key of the index, in a container under a name that was given out. -/
def Known (env : Env) (s : Server) (f : Fp) : Prop :=
  ∃ v, s.db.queryBuffer f = some v ∧ Named s.created (env.decEntry v).containerName

/-- Such an entry, and so is that of its base if it has one. -/
structure EntryKnown (env : Env) (s : Server) (v : Cipher) : Prop where
  named : Named s.created (env.decEntry v).containerName
  base : (env.decEntry v).deltaFlag = DELTA → Known env s (env.decEntry v).basechunkHash

/-! ## Restores -/

namespace Restore

variable {l : RestoreLogin} {r r' : Restore}

/-- What a restore asks for was there before. -/
structure Within (env : Env) (s : Server) (r : Restore) : Prop where
  bases : ∀ b ∈ r.baseQuery, Known env s b
  names : ∀ n ∈ r.idBuffer, Named s.created n

theorem Within.start (env : Env) (s : Server) (l : RestoreLogin) : Within env s (Restore.start l) :=
  ⟨fun b hb => (by cases hb), fun n hn => (by cases hn)⟩

theorem fetch_extends (h : Extends s s') {p : ContainerName × Nat} (hp : Named s.created p.1)
    (hf : fetch s l r p = some r') : fetch s' l r p = some r' := by
  unfold fetch at hf ⊢
  rwa [h.file hp]

theorem getReqContainers_extends (h : Extends s s') (hr : ∀ n ∈ r.idBuffer, Named s.created n)
    (hget : r.getReqContainers s l = some r') : r.getReqContainers s' l = some r' := by
  refine (foldlM_mono (I := fun _ => True) (V := fun p => Named s.created p.1)
    (fun _ _ _ hp _ hf => ⟨fetch_extends h hp hf, trivial⟩) _ _ _ (fun p hp => hr p.1 ?_) trivial
    hget).1
  exact (List.mem_zipIdx' hp).2 ▸ List.getElem_mem _

theorem queryBaseIndex_extends (h : Extends s s') (hr : ∀ b ∈ r.baseQuery, Known env s b) :
    queryBaseIndex s' r = queryBaseIndex s r := by
  unfold queryBaseIndex
  congr 1
  funext i
  cases hi : r.baseQuery[i]? with
  | none => rfl
  | some b =>
      obtain ⟨v, hv, -⟩ := hr b (List.mem_of_getElem? hi)
      simp only [hv, h.index b v hv]

theorem mem_idBuffer_slotOf {n m : ContainerName} (hm : m ∈ (r.slotOf n).2.idBuffer) :
    m ∈ r.idBuffer ∨ m = n := by
  unfold slotOf at hm
  split at hm
  · exact Or.inl hm
  · exact (List.mem_append.mp hm).imp_right List.mem_singleton.mp

/-- The containers that a loop over pending bases asks for. -/
theorem mem_idBuffer_addBase (is : List Nat) {m : ContainerName}
    (hm : m ∈ (is.foldl (addBase env) r).idBuffer) :
    m ∈ r.idBuffer ∨ ∃ i ∈ is, m = (env.decEntry (r.baseAddr i)).containerName := by
  induction is generalizing r with
  | nil => exact Or.inl hm
  | cons i is ih =>
      rcases ih hm with hm | ⟨j, hj, hname⟩
      · exact (mem_idBuffer_slotOf hm).imp_right fun hname => ⟨i, List.mem_cons_self .., hname⟩
      · rw [baseAddr_addBase] at hname
        exact Or.inr ⟨j, List.mem_cons_of_mem _ hj, hname⟩

theorem flushBaseQuery_extends (h : Extends s s') (hr : Within env s r) :
    r.flushBaseQuery env s' = r.flushBaseQuery env s ∧ Within env s (r.flushBaseQuery env s) := by
  refine ⟨?_, fun b hb => (by cases hb), fun n hn => ?_⟩
  · unfold flushBaseQuery
    rw [queryBaseIndex_extends h hr.bases]
  · rcases mem_idBuffer_addBase _ hn with hn | ⟨i, hi, rfl⟩
    · exact hr.names n hn
    · have hlt : i < r.baseQuery.length := List.mem_range.mp hi
      obtain ⟨v, hv, hname⟩ := hr.bases _ (List.getElem_mem hlt)
      simpa only [queryBaseIndex, List.getElem?_eq_getElem hlt, hv, Option.getD_some] using hname

theorem writeOut_extends (h : Extends s s') (hr : Within env s r) {tail : Bool}
    (hwrite : r.writeOut env s l tail = some r') : r.writeOut env s' l tail = some r' := by
  obtain ⟨hflush, hwithin⟩ := flushBaseQuery_extends h hr
  unfold writeOut at hwrite ⊢
  rw [hflush]
  obtain ⟨r₁, hget, rfl⟩ := Option.map_eq_some_iff.mp hwrite
  refine Option.map_eq_some_iff.mpr ⟨r₁, getReqContainers_extends h ?_ hget, rfl⟩
  split
  · exact hwithin.names
  · exact hr.names

theorem addEntry_extends (h : Extends s s') (hr : Within env s r) {v : Cipher}
    (hv : EntryKnown env s v) :
    r.addEntry env s' v = r.addEntry env s v ∧ Within env s (r.addEntry env s v) := by
  obtain ⟨hflush, hwithin⟩ := flushBaseQuery_extends h hr
  refine ⟨?_, ?_, ?_⟩
  · unfold addEntry
    rw [hflush]
  · intro b hb
    unfold addEntry at hb
    dsimp only at hb
    rw [baseQuery_slotOf] at hb
    by_cases hdelta : (env.decEntry v).deltaFlag = DELTA
    · rw [if_pos hdelta] at hb
      split at hb
      · rcases List.mem_append.mp hb with hb | hb
        · exact hr.bases b hb
        · rw [List.mem_singleton.mp hb]
          exact hv.base hdelta
      · rw [List.mem_singleton.mp hb]
        exact hv.base hdelta
    · rw [if_neg hdelta] at hb
      exact hr.bases b hb
  · intro n hn
    rcases mem_idBuffer_slotOf hn with hn | rfl
    · split at hn
      · split at hn
        · exact hr.names n hn
        · exact hwithin.names n hn
      · exact hr.names n hn
    · exact hv.named

theorem procEntry_extends (h : Extends s s') (hr : Within env s r) {v : Cipher}
    (hv : EntryKnown env s v) (hproc : r.procEntry env s l v = some r') :
    r.procEntry env s' l v = some r' ∧ Within env s r' := by
  obtain ⟨heq, hr'⟩ := addEntry_extends h hr hv
  rw [procEntry_eq] at hproc ⊢
  rw [heq]
  split
  · rename_i hcap
    rw [if_pos hcap] at hproc
    obtain ⟨r₁, hwrite, rfl⟩ := Option.map_eq_some_iff.mp hproc
    exact ⟨Option.map_eq_some_iff.mpr ⟨r₁, writeOut_extends h hr' hwrite, rfl⟩,
      fun b hb => (by cases hb), fun n hn => by cases hn⟩
  · rename_i hcap
    rw [if_neg hcap] at hproc
    obtain rfl := Option.some.inj hproc
    exact ⟨rfl, hr'⟩

theorem readIndexStoreBatch_extends (h : Extends s s') (keys : List Fp) (value : Cipher)
    (hknown : ∀ f ∈ keys, ∃ v, s.db.queryBuffer f = some v) :
    readIndexStoreBatch s' value keys = readIndexStoreBatch s value keys := by
  induction keys generalizing value with
  | nil => rfl
  | cons f keys ih =>
      obtain ⟨v, hv⟩ := hknown f (List.mem_cons_self ..)
      rw [readIndexStoreBatch, readIndexStoreBatch, hv, h.index f v hv]
      exact congrArg (v :: ·) (ih v fun g hg => hknown g (List.mem_cons_of_mem _ hg))

theorem mem_readIndexStoreBatch (keys : List Fp) (value v : Cipher)
    (hknown : ∀ f ∈ keys, ∃ v, s.db.queryBuffer f = some v)
    (hv : v ∈ readIndexStoreBatch s value keys) : ∃ f ∈ keys, s.db.queryBuffer f = some v := by
  induction keys generalizing value with
  | nil => cases hv
  | cons f keys ih =>
      obtain ⟨w, hw⟩ := hknown f (List.mem_cons_self ..)
      rw [readIndexStoreBatch, hw] at hv
      rcases List.mem_cons.mp hv with rfl | hv
      · exact ⟨f, List.mem_cons_self .., hw⟩
      · obtain ⟨g, hg, hgv⟩ := ih w (fun g hg => hknown g (List.mem_cons_of_mem _ hg)) hv
        exact ⟨g, List.mem_cons_of_mem _ hg, hgv⟩

/-- The fingerprints of a buffer lead to such entries. -/
def KeysKnown (env : Env) (s : Server) (l : RestoreLogin) (buf : Bytes) : Prop :=
  ∀ f ∈ recipeKeys env l buf, ∃ v, s.db.queryBuffer f = some v ∧ EntryKnown env s v

/-- **A restore of what was there before** sends the same once the server has more. -/
theorem procRecipeBatches_extends (h : Extends s s') {bufs : List Bytes}
    (hbufs : ∀ buf ∈ bufs, KeysKnown env s l buf) (hr : Within env s r)
    (hproc : r.procRecipeBatches env s l bufs = some r') :
    r.procRecipeBatches env s' l bufs = some r' ∧ Within env s r' := by
  refine foldlM_mono (I := Within env s) (V := KeysKnown env s l) ?_ bufs r r' hbufs hr hproc
  intro r buf r₁ hbuf hr hstep
  have hknown : ∀ f ∈ recipeKeys env l buf, ∃ v, s.db.queryBuffer f = some v := fun f hf => by
    obtain ⟨v, hv, -⟩ := hbuf f hf
    exact ⟨v, hv⟩
  rw [procRecipeBatch_eq] at hstep ⊢
  rw [readIndexStoreBatch_extends h _ _ hknown]
  refine foldlM_mono (I := Within env s) (V := EntryKnown env s) ?_ _ _ r₁ ?_ ⟨hr.bases, hr.names⟩
    hstep
  · exact fun r v r₂ hv hr hproc => procEntry_extends h hr hv hproc
  · intro v hv
    obtain ⟨f, hf, hfv⟩ := mem_readIndexStoreBatch _ _ v hknown hv
    obtain ⟨w, hw, hentry⟩ := hbuf f hf
    obtain rfl : w = v := Option.some.inj (hw.symm.trans hfv)
    exact hentry

theorem procRecipeTailBatch_extends (h : Extends s s') (hr : Within env s r)
    (hproc : r.procRecipeTailBatch env s l = some r') : r.procRecipeTailBatch env s' l = some r' := by
  unfold procRecipeTailBatch at hproc ⊢
  dsimp only at hproc ⊢
  split
  · rename_i hne
    rw [if_pos hne] at hproc
    have hr' : Within env s { r with tmpContainerMap := ∅ } := ⟨hr.bases, hr.names⟩
    exact writeOut_extends h hr' hproc
  · rename_i hnil
    rwa [if_neg hnil] at hproc

end Restore

/-! ## Containers -/

/-- The session began with the server `s₀`: what it opened since is younger
than the containers of then, and those are as they were. -/
structure Ahead (s₀ : Server) (s : Session) : Prop where
  created : s₀.created ≤ s.server.created
  opened : ∀ d, ¬ Named s₀.created (s.client.cur d).containerID
  files : ∀ d n, Named s₀.created n → s.server.view d n = s₀.view d n

/-- A name that was given out since. -/
theorem not_named_of_le {a b : Nat} (hab : a ≤ b) (hb : b < 2 ^ 31) : ¬ Named a (containerName b) :=
  fun h => not_named hb (h.mono hab)

namespace Ahead

variable {s₀ : Server} {t t' : Session}

theorem start {s : Server} (l : Login) (hcreated : s.created + 2 ≤ 2 ^ 31) :
    Ahead s (Session.start s l) where
  created := Nat.le_add_right _ 2
  opened := by
    intro d
    cases d
    · exact not_named_of_le (le_refl _) (by omega)
    · exact not_named_of_le (Nat.le_succ _) (by omega)
  files := fun _ _ _ => rfl

theorem congr (h : Ahead s₀ t) (hs : SameShelves t t') : Ahead s₀ t' where
  created := by rw [hs.created]; exact h.created
  opened := by rw [hs.cur]; exact h.opened
  files := by rw [hs.view]; exact h.files

/-- More bytes in an open container. -/
theorem append (h : Ahead s₀ t) (d : Dir) (bytes : Bytes) :
    Ahead s₀ (t.setCur d { t.client.cur d with buf := bytes }) where
  created := h.created
  opened := by
    intro d'
    by_cases hd : d' = d
    · subst hd
      rw [cur_setCur_self]
      exact h.opened d'
    · rw [cur_setCur_of_ne hd]
      exact h.opened d'
  files := h.files

theorem rollOver (h : Ahead s₀ t) (d : Dir) (hlt : t.server.created < 2 ^ 31) :
    Ahead s₀ (t.rollOver d) where
  created := le_trans h.created (Nat.le_succ _)
  opened := by
    intro d'
    by_cases hd : d' = d
    · subst hd
      rw [cur_rollOver_self]
      exact not_named_of_le h.created hlt
    · rw [cur_rollOver_of_ne t hd]
      exact h.opened d'
  files := by
    intro d' n hn
    rw [view_rollOver, if_neg]
    · exact h.files d' n hn
    · rintro ⟨-, rfl⟩
      exact h.opened d hn

theorem saveChunk (h : Ahead s₀ t) (d : Dir) (chunkData : Bytes) (chunkAddr : RecipeEntry) (sf : Sf)
    (fp : Fp) (hcreated : (t.saveChunk d chunkData chunkAddr sf fp).2.server.created ≤ 2 ^ 31) :
    Ahead s₀ (t.saveChunk d chunkData chunkAddr sf fp).2 := by
  unfold Session.saveChunk at hcreated ⊢
  dsimp only at hcreated ⊢
  split
  · exact h.append d _
  · rename_i hfull
    rw [if_neg hfull] at hcreated
    have hlt : t.server.created < 2 ^ 31 := hcreated
    exact (h.rollOver d hlt).append d _

theorem processSheUniqueChunk (h : Ahead s₀ t) (chunkAddr : RecipeEntry) (chunk : Bytes) (sf : Sf)
    (fp : Fp)
    (hcreated : (t.processSheUniqueChunk env chunkAddr chunk sf fp).2.server.created ≤ 2 ^ 31) :
    Ahead s₀ (t.processSheUniqueChunk env chunkAddr chunk sf fp).2 := by
  have hdrawn : ∀ (iv : Iv) (n : UInt64), Ahead s₀ { t with
      client := { t.client with iv := iv }
      server := { t.server with onlineBackupSize := n } } :=
    fun iv n => h.congr ⟨rfl, rfl, rfl⟩
  unfold Session.processSheUniqueChunk Session.savebaseChunk Session.savedeltaChunk at hcreated ⊢
  by_cases hflag : chunkAddr.deltaFlag = NO_DELTA
  · simp only [if_pos hflag] at hcreated ⊢
    exact (hdrawn _ _).saveChunk .base _ _ _ _ hcreated
  · simp only [if_neg hflag] at hcreated ⊢
    exact (hdrawn _ _).saveChunk .delta _ _ _ _ hcreated

end Ahead

namespace EcallFreqIndex

/-- A base container is only read before a chunk is stored. -/
theorem shelves_uniqueCall (env : Env) (recvBuffer : Bytes) (localFlag : Bool) (st : Storing)
    (e : InQueryEntry) (o : OutQueryEntry) :
    SameShelves st.session (uniqueCall env recvBuffer localFlag st e o).session := by
  obtain ⟨b, c, calls, table, hsession⟩ := session_uniqueCall env recvBuffer localFlag st e o
  rw [hsession]
  exact ⟨rfl, rfl, rfl⟩

theorem shelves_updateFileRecipe (env : Env) (s : Session) (f : Fp) :
    SameShelves s (s.updateFileRecipe env f) := by
  have hserver := server_updateFileRecipe env s f
  exact ⟨by rw [hserver], by rw [hserver], cur_updateFileRecipe env s f⟩

theorem ahead_storeEntry {s₀ : Server} {st : Storing} (h : Ahead s₀ st.session) (recvBuffer : Bytes)
    (localFlag : Bool) (e : InQueryEntry)
    (hcreated : (storeEntry env recvBuffer localFlag st e).session.server.created ≤ 2 ^ 31) :
    Ahead s₀ (storeEntry env recvBuffer localFlag st e).session := by
  unfold storeEntry at hcreated ⊢
  dsimp only at hcreated ⊢
  rw [server_updateFileRecipe] at hcreated
  refine Ahead.congr ?_ (shelves_updateFileRecipe env _ e.chunkHash)
  cases ho : e.out with
  | none => exact h
  | some o =>
      simp only [ho] at hcreated ⊢
      split
      · exact h
      · rename_i hnew
        rw [if_neg hnew] at hcreated
        have hcall := (storeUnique_call env recvBuffer localFlag st e o).1
        rw [hcall] at hcreated ⊢
        exact (h.congr (shelves_uniqueCall env recvBuffer localFlag st e o)).processSheUniqueChunk
          _ _ _ _ hcreated

theorem ahead_foldl_storeEntry {s₀ : Server} {P : Chunk → Prop} {db : InMemoryDatabase}
    {recvBuffer : Bytes} (localFlag : Bool) (es : List InQueryEntry) {st : Storing}
    (h : Ahead s₀ st.session) (hes : ∀ e ∈ es, EntryOk env P db recvBuffer e)
    (hcreated : (es.foldl (storeEntry env recvBuffer localFlag) st).session.server.created ≤ 2 ^ 31) :
    Ahead s₀ (es.foldl (storeEntry env recvBuffer localFlag) st).session := by
  induction es generalizing st with
  | nil => exact h
  | cons e es ih =>
      have hrest : ∀ e' ∈ es, EntryOk env P db recvBuffer e' :=
        fun e' he' => hes e' (List.mem_cons_of_mem _ he')
      have hfinal := created_foldl_storeEntry localFlag es
        (storeEntry env recvBuffer localFlag st e) hrest
      exact ih (ahead_storeEntry h recvBuffer localFlag e (le_trans hfinal hcreated)) hrest hcreated

/-- What the store loop makes of an entry. A chunk that is new gets the address
that it is stored at. -/
structure Finished (env : Env) (e e' : InQueryEntry) : Prop where
  out : e'.out.map (fun o => (o.chunkHash, o.dedupFlag)) = e.out.map fun o => (o.chunkHash, o.dedupFlag)
  stored : ∀ o, e'.out = some o → o.dedupFlag ≠ .duplicate → o.chunkAddr = env.encEntry e'.chunkAddr ∧
    (e'.chunkAddr.deltaFlag = DELTA ∨ e'.chunkAddr.deltaFlag = NO_DELTA)

/-- A chunk is stored with the flag it was handed over with. -/
theorem deltaFlag_result (env : Env) (c : SheCall) :
    (c.result env).1.deltaFlag = c.chunkAddr.deltaFlag := by
  unfold SheCall.result Session.processSheUniqueChunk Session.savebaseChunk Session.savedeltaChunk
    Session.saveChunk
  dsimp only
  split <;> rfl

theorem deltaFlag_uniqueCall (env : Env) (recvBuffer : Bytes) (localFlag : Bool) (st : Storing)
    (e : InQueryEntry) (o : OutQueryEntry) :
    (uniqueCall env recvBuffer localFlag st e o).chunkAddr.deltaFlag = DELTA ∨
      (uniqueCall env recvBuffer localFlag st e o).chunkAddr.deltaFlag = NO_DELTA := by
  unfold uniqueCall
  dsimp only
  split
  · exact Or.inl rfl
  · exact Or.inr rfl

theorem finished_storeEntry (env : Env) (recvBuffer : Bytes) (localFlag : Bool) (st : Storing)
    (e : InQueryEntry) : ∃ e', (storeEntry env recvBuffer localFlag st e).entries = st.entries ++ [e'] ∧
      Finished env e e' := by
  unfold storeEntry
  dsimp only
  cases ho : e.out with
  | none =>
      refine ⟨e, rfl, rfl, fun o ho' => ?_⟩
      rw [ho] at ho'
      cases ho'
  | some o =>
      simp only
      split
      · rename_i hdup
        refine ⟨_, rfl, by rw [ho], fun o' ho' hflag => ?_⟩
        obtain rfl : o = o' := Option.some.inj ho'
        exact absurd hdup hflag
      · obtain ⟨-, o', hflag, hhash, -, hentries⟩ := storeUnique_call env recvBuffer localFlag st e o
        refine ⟨_, hentries, ?_, fun o'' ho'' _ => ?_⟩
        · rw [ho]
          exact congrArg some (Prod.ext hhash hflag)
        · obtain rfl := Option.some.inj ho''
          refine ⟨rfl, ?_⟩
          show ((uniqueCall env recvBuffer localFlag st e o).result env).1.deltaFlag = DELTA ∨
            ((uniqueCall env recvBuffer localFlag st e o).result env).1.deltaFlag = NO_DELTA
          rw [deltaFlag_result]
          exact deltaFlag_uniqueCall env recvBuffer localFlag st e o

theorem finished_foldl_storeEntry (env : Env) (recvBuffer : Bytes) (localFlag : Bool)
    (es : List InQueryEntry) (st : Storing) : ∃ es',
      (es.foldl (storeEntry env recvBuffer localFlag) st).entries = st.entries ++ es' ∧
        List.Forall₂ (Finished env) es es' := by
  induction es generalizing st with
  | nil => exact ⟨[], (List.append_nil _).symm, .nil⟩
  | cons e es ih =>
      obtain ⟨e', he', hfin⟩ := finished_storeEntry env recvBuffer localFlag st e
      obtain ⟨es', hes', hall⟩ := ih (storeEntry env recvBuffer localFlag st e)
      refine ⟨e' :: es', ?_, .cons hfin hall⟩
      rw [List.foldl_cons, hes', he', List.append_assoc]
      rfl

/-- Chunks are only stored under keys that the index does not have. -/
def NewKeys (db : InMemoryDatabase) (es : List InQueryEntry) : Prop :=
  ∀ e ∈ es, ∀ o, e.out = some o → (o.dedupFlag = .duplicate ∨ o.dedupFlag = .unique) ∧
    (o.dedupFlag = .unique → db.queryBuffer o.chunkHash = none)

theorem newKeys_finished {P : Chunk → Prop} {db : InMemoryDatabase} {recvBuffer : Bytes}
    {es es' : List InQueryEntry} (h : List.Forall₂ (Finished env) es es')
    (hes : ∀ e ∈ es, EntryOk env P db recvBuffer e) : NewKeys db es' := by
  induction h with
  | nil => exact fun e he => by cases he
  | @cons e e' es es' hfin _ ih =>
      intro x hx
      rcases List.mem_cons.mp hx with rfl | hx
      · intro o' ho'
        have hout := hfin.out
        rw [ho'] at hout
        obtain ⟨o, ho, heq⟩ := Option.map_eq_some_iff.mp hout.symm
        obtain ⟨hhash, hflag⟩ := Prod.mk.injEq .. |>.mp heq
        rw [← hhash, ← hflag]
        rcases ((hes e (List.mem_cons_self ..)).prepared o ho).flag with ⟨hdup, -⟩ | ⟨hu, hnone⟩
        · exact ⟨Or.inl hdup, fun hu => by rw [hdup] at hu; cases hu⟩
        · exact ⟨Or.inr hu, fun _ => hnone⟩
      · exact ih (fun e he => hes e (List.mem_cons_of_mem _ he)) x hx

/-- So what the index has stays as it is. -/
theorem index_applied {db : InMemoryDatabase} (localFlag : Bool) {st : Storing}
    (h : NewKeys db st.entries) {f : Fp} {v : Cipher} (hf : db.queryBuffer f = some v) :
    (applied localFlag db st).queryBuffer f = some v := by
  have hfold : ∀ (os : List OutQueryEntry) (db' : InMemoryDatabase),
      (∀ o ∈ os, o.dedupFlag = .unique → db.queryBuffer o.chunkHash = none) →
      db'.queryBuffer f = some v → (os.foldl updateOutIndex db').queryBuffer f = some v := by
    intro os
    induction os with
    | nil => exact fun _ _ hdb' => hdb'
    | cons o os ih =>
        intro db' hos hdb'
        refine ih _ (fun o' ho' => hos o' (List.mem_cons_of_mem _ ho')) ?_
        rw [queryBuffer_updateOutIndex]
        split
        · rename_i hu
          rw [Function.update_of_ne, hdb']
          rintro rfl
          rw [hos o (List.mem_cons_self ..) hu] at hf
          cases hf
        · exact hdb'
  refine hfold _ _ ?_ (by rw [queryBuffer_insertPairs, hf])
  intro o ho
  obtain ⟨e, he, heo⟩ := List.mem_filterMap.mp ho
  exact (h e he o heo).2

theorem db_foldl_storeEntry {P : Chunk → Prop} {db : InMemoryDatabase} {recvBuffer : Bytes}
    (localFlag : Bool) (es : List InQueryEntry) (st : Storing)
    (hes : ∀ e ∈ es, EntryOk env P db recvBuffer e) :
    (es.foldl (storeEntry env recvBuffer localFlag) st).session.server.db = st.session.server.db := by
  induction es generalizing st with
  | nil => rfl
  | cons e es ih =>
      obtain ⟨⟨s, hcarried, hs⟩, -⟩ := storeEntry_frame localFlag st (hes e (List.mem_cons_self ..))
      rw [List.foldl_cons, ih _ fun e' he' => hes e' (List.mem_cons_of_mem _ he'), hs,
        server_updateFileRecipe, hcarried.db]

end EcallFreqIndex

/-! ## Sessions -/

/-- What a session has left alone so far. -/
structure Outruns (s₀ : Server) (s : Session) : Prop where
  ahead : Ahead s₀ s
  index : ∀ f v, s₀.db.queryBuffer f = some v → s.server.db.queryBuffer f = some v

open EcallFreqIndex in
theorem Outruns.batch (henv : env.Lawful) {s₀ : Server} {t : Session} (h : Outruns s₀ t)
    (cs : List Chunk) (stale : Nat → RecipeEntry)
    (hcreated : (processOneBatch env t (env.sessionKeyEnc t.client.sessionKey
      (frameChunks (cs.map Subtype.val))) cs.length stale).server.created ≤ 2 ^ 31) :
    Outruns s₀ (processOneBatch env t (env.sessionKeyEnc t.client.sessionKey
      (frameChunks (cs.map Subtype.val))) cs.length stale) := by
  obtain ⟨sketch, es, hquery, hbatch⟩ := queryBatch_spec henv t.server cs stale
  unfold processOneBatch at hcreated ⊢
  simp only [henv.sessionKey, hquery] at hcreated ⊢
  have hentry : ∀ e ∈ es, EntryOk env (fun _ => True) t.server.db
      (frameChunks (cs.map Subtype.val)) e := hbatch.entryOk fun _ _ => trivial
  have hcounted : Ahead s₀ { t with server := { t.server with cmSketch := sketch } } :=
    h.ahead.congr ⟨rfl, rfl, rfl⟩
  obtain ⟨es', hes', hfin⟩ := finished_foldl_storeEntry env (frameChunks (cs.map Subtype.val))
    (localChecker env es) es ⟨{ t with server := { t.server with cmSketch := sketch } }, [], [], []⟩
  refine ⟨(ahead_foldl_storeEntry (localChecker env es) es hcounted hentry hcreated).congr
    ⟨rfl, rfl, rfl⟩, fun f v hf => ?_⟩
  rw [db_finishBatch, db_foldl_storeEntry _ es _ hentry]
  refine index_applied _ ?_ (h.index f v hf)
  rw [hes']
  exact newKeys_finished hfin hentry

theorem Outruns.batches (henv : env.Lawful) (u : Upload) (bs : List Batch) {s₀ : Server}
    {t : Session} (h : Outruns s₀ t) (hkey : t.client.sessionKey = u.login.sessionKey)
    (hcreated : ((bs.map (u.message env)).foldl (Session.receive env) t).server.created ≤ 2 ^ 31) :
    Outruns s₀ ((bs.map (u.message env)).foldl (Session.receive env) t) := by
  induction bs generalizing t with
  | nil => exact h
  | cons b bs ih =>
      have hframe := (frame_batch henv t b.chunks b.stale []).1
      have hnext := h.batch henv b.chunks b.stale
      rw [← receive_message env u b hkey] at hframe hnext
      have hkey' := hframe.sessionKey.trans hkey
      have hle := le_trans
        (frame_batches henv u [] bs (t.receive env (u.message env b)) hkey').1.created hcreated
      exact ih (hnext hle) hkey' hcreated

/-- **A session that is cut** leaves alone what was there before. -/
theorem extends_cut (henv : env.Lawful) (s : Server) (u : Upload)
    (hcreated : (s.receiveUpload env u false).created ≤ 2 ^ 31) :
    Extends s (s.receiveUpload env u false) := by
  have hclose : (s.receiveUpload env u false).created = (u.filled env s).close.server.created := by
    rw [receiveUpload_false]
  rw [hclose] at hcreated
  have hfilled := le_trans (created_close _) hcreated
  obtain ⟨hahead, hindex⟩ := Outruns.batches henv u u.batches (t := Session.start s u.login)
    ⟨.start u.login (le_trans (created_filled henv s u) hfilled), fun _ _ hf => hf⟩ rfl hfilled
  refine ⟨fun f v hf => ?_, fun d n hn => ?_⟩
  · rw [receiveUpload_false]
    exact (congrArg (·.queryBuffer f) (Session.closed_close _).db).trans (hindex f v hf)
  · have hsame : (s.receiveUpload env u false).view d n = (u.filled env s).close.server.view d n := by
      rw [receiveUpload_false]
      rfl
    rw [hsame, view_close, if_neg]
    · exact hahead.files d n hn
    · rintro ⟨rfl, -⟩
      exact hahead.opened d hn

end ShieldReduce
