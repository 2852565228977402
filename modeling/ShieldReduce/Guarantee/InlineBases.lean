import ShieldReduce.Guarantee.DeltaLists
import ShieldReduce.Invariant.Offline

/-!
# The base of an inline delta

`OfflinedeltaTure` takes the container of the base from the enclave's cache
if it is there, and from the host otherwise. The cache keeps what it has
when a pass compacts or merges containers, and the index entry of the base
then speaks of a file that the copy is no copy of. In the runs in which the
copy still has the bytes of the file where the entry points to, the encoder
always gets the chunk that the index and the files give for the base
(`Server.encodes_real`).
-/

namespace ShieldReduce

open ByteLib UMapLib LoopLib

variable {env : Env} {P : Chunk → Prop} {F : Containers} {abs : Fp → Option Content}

/-- What the cache has where the entry points to, if it has the container, is what
the file has. -/
def Server.CopyCurrent (s : Server) (a : RecipeEntry) : Prop :=
  ∀ buffer, s.inContainercache.Caches a.containerName buffer →
    ∃ file, s.view .base a.containerName = some file ∧
      getChunkContent buffer a = getChunkContent file a ∧ getChunkIV buffer a = getChunkIV file a

instance (s : Server) (a : RecipeEntry) : Decidable (s.CopyCurrent a) :=
  decidable_of_iff (∀ p ∈ s.inContainercache.keys, p.1 = a.containerName →
      ∃ file ∈ (s.view .base a.containerName).toList,
        getChunkContent (s.inContainercache.containerPool p.2) a = getChunkContent file a ∧
          getChunkIV (s.inContainercache.containerPool p.2) a = getChunkIV file a) <| by
    constructor
    · rintro h buffer ⟨k, hk, rfl⟩
      obtain ⟨file, hfile, hsame⟩ := h _ hk rfl
      exact ⟨file, Option.mem_toList.mp hfile, hsame⟩
    · rintro h ⟨n, k⟩ hk rfl
      obtain ⟨file, hfile, hsame⟩ := h _ ⟨k, hk, rfl⟩
      exact ⟨file, Option.mem_toList.mpr hfile, hsame⟩

/-! ## The rounds that encode -/

namespace EcallFreqIndex

/-- The chunk is one that `OfflinedeltaTure` fetches a base for, in a batch that is
not left to a pass. -/
def fetchesBase (e : InQueryEntry) : Bool := !isExcluded e.chunkHash && (baseContainer? e).isSome

variable (env) in
/-- The rounds of the store loop in which chunks may be encoded. -/
def inlineRounds (s : Session) (data : Bytes) (chunkNum : Nat) (stale : Nat → RecipeEntry) :
    List (Storing × InQueryEntry) :=
  let recvBuffer := env.sessionKeyDec s.client.sessionKey data
  let (server, entries) := queryBatch env s.server recvBuffer chunkNum stale
  let localFlag := localChecker env entries
  if localFlag then []
  else visits (storeEntry env recvBuffer localFlag) ⟨{ s with server := server }, [], [], []⟩ entries

/-- Where a chunk is encoded in the round, the copy of the base is current. -/
def FetchesCurrent (v : Storing × InQueryEntry) : Prop :=
  fetchesBase v.2 = true → v.1.session.server.CopyCurrent v.2.basechunkAddr

end EcallFreqIndex

variable (env) in
/-- Whatever is encoded for the message finds a copy that is current. -/
def Session.FetchesCurrent (s : Session) : Message → Prop
  | .chunk data currentItemNum stale =>
      ∀ v ∈ EcallFreqIndex.inlineRounds env s data currentItemNum stale,
        EcallFreqIndex.FetchesCurrent v
  | .recipeEnd _ => True

variable (env) in
def Upload.FetchesCurrent (s : Server) (u : Upload) : Prop :=
  ∀ v ∈ visits (Session.receive env) (Session.start s u.login) (u.messages env true),
    v.1.FetchesCurrent env v.2

variable (env) in
/-- In the upload of the session. -/
def Server.FetchesCurrent (s : Server) : Event → Prop
  | .upload u => u.FetchesCurrent env s
  | .offline u _ => u.FetchesCurrent env s

instance (v : EcallFreqIndex.Storing × InQueryEntry) :
    Decidable (EcallFreqIndex.FetchesCurrent v) :=
  inferInstanceAs (Decidable (EcallFreqIndex.fetchesBase v.2 = true →
    v.1.session.server.CopyCurrent v.2.basechunkAddr))

instance (s : Session) : (m : Message) → Decidable (s.FetchesCurrent env m)
  | .chunk data currentItemNum stale => inferInstanceAs (Decidable
      (∀ v ∈ EcallFreqIndex.inlineRounds env s data currentItemNum stale,
        EcallFreqIndex.FetchesCurrent v))
  | .recipeEnd _ => .isTrue trivial

instance (s : Server) (u : Upload) : Decidable (u.FetchesCurrent env s) :=
  inferInstanceAs (Decidable (∀ v ∈ visits (Session.receive env) (Session.start s u.login)
    (u.messages env true), v.1.FetchesCurrent env v.2))

instance (s : Server) : (e : Event) → Decidable (s.FetchesCurrent env e)
  | .upload u => inferInstanceAs (Decidable (u.FetchesCurrent env s))
  | .offline u _ => inferInstanceAs (Decidable (u.FetchesCurrent env s))

/-! ## One round -/

/-- The encoder got the chunk of the base. -/
def EncodeCall.Real (call : EncodeCall) : Prop := call.plain = some call.baseBuf

namespace EcallFreqIndex

/-- A chunk that is never delta encoded. -/
theorem encodes_storeUnique_excluded (recvBuffer : Bytes) (localFlag : Bool) (st : Storing)
    {e : InQueryEntry} (o : OutQueryEntry) (h : isExcluded e.chunkHash = true) :
    (storeUnique env recvBuffer localFlag st e o).session.server.encodes =
      st.session.server.encodes := by
  have hfetch : offlinedeltaTure localFlag st.session.server e o =
      (st.session.server, { o with deltaFlag := .noDelta }, []) := if_pos h
  unfold storeUnique
  simp only [hfetch, reduceCtorEq, if_false]
  exact (carried_processSheUniqueChunk ..).2.2

/-- What was encoded for a chunk, and where the bases came from. -/
theorem encodes_storeUnique (recvBuffer : Bytes) (localFlag : Bool) (st : Storing) (e : InQueryEntry)
    {o : OutQueryEntry} (hdelta : o.deltaFlag = .noDelta ∨ o.deltaFlag = .outDelta) :
    ∃ s calls, Readied env st.session s e o calls ∧
      (calls ≠ [] → localFlag = false ∧ o.deltaFlag = .outDelta) ∧
      (storeUnique env recvBuffer localFlag st e o).session.server.encodes = s.server.encodes := by
  have hstores := @stores_storeUnique env _ recvBuffer localFlag st e o hdelta
  generalize storeUnique env recvBuffer localFlag st e o = st' at hstores ⊢
  cases hstores with
  | listed s calls buffer hcalls hready =>
      exact ⟨s, calls, hready, hcalls, (carried_processSheUniqueChunk ..).2.2⟩
  | logged hflag hd =>
      exact ⟨st.session, [], .refl env _ e o, fun h => absurd rfl h,
        (carried_processSheUniqueChunk ..).2.2⟩
  | delta s buffer t hflag hd hready hshort =>
      exact ⟨s, [buffer], hready, fun _ => ⟨hflag, hd⟩, (carried_processSheUniqueChunk ..).2.2⟩

namespace StoreOk

variable {localFlag : Bool} {s₀ : Server} {abs₀ : Fp → Option Content} {todo : List InQueryEntry}
  {st : Storing}

/-- The base of a chunk in a buffer that has the same bytes for it as one that
begins with the file. -/
theorem base_real (henv : env.Lawful) {e : InQueryEntry} {o : OutQueryEntry}
    (h : StoreOk env P localFlag s₀ abs₀ todo st F abs)
    (hsf : ∀ f, s₀.db.InSF f → (s₀.db.queryBuffer f).isSome)
    (hprep : Prepared env s₀.db e o) (hu : o.dedupFlag = .unique) (hd : o.deltaFlag = .outDelta)
    {file copy buffer : Bytes}
    (hfile : st.session.server.view .base e.basechunkAddr.containerName = some file)
    (hpre : file <+: copy)
    (hcontent : getChunkContent buffer e.basechunkAddr = getChunkContent copy e.basechunkAddr)
    (hiv : getChunkIV buffer e.basechunkAddr = getChunkIV copy e.basechunkAddr) :
    st.session.server.plaintext env o.basechunkHash = some (baseIn env buffer e.basechunkAddr) := by
  obtain ⟨-, -, c, v, hc, hflag, hv, ha⟩ := h.base hsf hprep hu hd
  have hbase : baseIn env buffer e.basechunkAddr = baseIn env copy e.basechunkAddr := by
    rw [baseIn, baseIn, hcontent, hiv]
  rw [hbase]
  rw [ha] at hfile ⊢
  obtain ⟨htext, hplain⟩ := (base_found henv h.stocked hc hflag (h.index _ v hv)).2 file copy hfile hpre
  rw [htext]
  refine hplain ?_
  rw [h.db, hv]

/-- A chunk that is new to the store is encoded against its base. -/
theorem encodes_unique (henv : env.Lawful) {e : InQueryEntry} {o : OutQueryEntry} (recvBuffer : Bytes)
    (h : StoreOk env P localFlag s₀ abs₀ todo st F abs)
    (hsf : ∀ f, s₀.db.InSF f → (s₀.db.queryBuffer f).isSome) (ho : e.out = some o)
    (hprep : Prepared env s₀.db e o) (hu : o.dedupFlag = .unique)
    (hcurrent : localFlag = false → FetchesCurrent (st, e)) :
    ∀ call ∈ (EcallFreqIndex.storeUnique env recvBuffer localFlag st e o).session.server.encodes,
      call ∈ st.session.server.encodes ∨ call.Real := by
  intro call hcall
  by_cases hexcluded : isExcluded e.chunkHash = true
  · rw [encodes_storeUnique_excluded recvBuffer localFlag st o hexcluded] at hcall
    exact Or.inl hcall
  obtain ⟨s, calls, hready, hcalls, heq⟩ := @encodes_storeUnique env recvBuffer localFlag st e o
    ((hprep.delta hu).imp_right fun hd => hd.1)
  rw [heq, hready.encodes] at hcall
  refine (List.mem_append.mp hcall).imp_right fun hmem => ?_
  obtain ⟨buffer, hbuffer, rfl⟩ := List.mem_map.mp hmem
  obtain ⟨hflag, hd⟩ := hcalls (List.ne_nil_of_mem hbuffer)
  have hfetches : fetchesBase e = true := by
    simp [fetchesBase, baseContainer?, hexcluded, ho, hu, hd]
  rcases hready.source buffer hbuffer with hcached | ⟨file, hfile, hpre⟩
  · obtain ⟨file, hfile, hcontent, hiv⟩ := hcurrent hflag hfetches buffer hcached
    exact h.base_real henv hsf hprep hu hd hfile (List.prefix_refl _) hcontent hiv
  · exact h.base_real henv hsf hprep hu hd hfile hpre rfl rfl

/-- One round of the store loop. -/
theorem encodes_storeEntry (henv : env.Lawful) {e : InQueryEntry} {recvBuffer : Bytes}
    (h : StoreOk env P localFlag s₀ abs₀ todo st F abs)
    (hsf : ∀ f, s₀.db.InSF f → (s₀.db.queryBuffer f).isSome)
    (he : EntryOk env P s₀.db recvBuffer e)
    (hcurrent : localFlag = false → FetchesCurrent (st, e)) :
    ∀ call ∈ (EcallFreqIndex.storeEntry env recvBuffer localFlag st e).session.server.encodes,
      call ∈ st.session.server.encodes ∨ call.Real := by
  unfold EcallFreqIndex.storeEntry
  dsimp only
  rw [server_updateFileRecipe]
  cases ho : e.out with
  | none => exact fun call hcall => Or.inl hcall
  | some o =>
      have hprep := he.prepared o ho
      dsimp only
      split
      · exact fun call hcall => Or.inl hcall
      · rename_i hdup
        have hu : o.dedupFlag = .unique := (hprep.flag.resolve_left fun h => hdup h.1).1
        exact h.encodes_unique henv recvBuffer hsf ho hprep hu hcurrent

/-- The whole loop. -/
theorem encodes_foldl (henv : env.Lawful) {recvBuffer : Bytes}
    (hsf : ∀ f, s₀.db.InSF f → (s₀.db.queryBuffer f).isSome) :
    ∀ (es : List InQueryEntry) {st : Storing} {F : Containers} {abs : Fp → Option Content},
      StoreOk env P localFlag s₀ abs₀ es st F abs → (∀ e ∈ es, EntryOk env P s₀.db recvBuffer e) →
      ((es.filterMap InQueryEntry.out).map OutQueryEntry.chunkHash).Nodup →
      (es.foldl (EcallFreqIndex.storeEntry env recvBuffer localFlag) st).session.server.created ≤
        2 ^ 31 →
      (localFlag = false → ∀ v ∈ visits (EcallFreqIndex.storeEntry env recvBuffer localFlag) st es,
        FetchesCurrent v) →
      ∀ call ∈ (es.foldl (EcallFreqIndex.storeEntry env recvBuffer localFlag)
          st).session.server.encodes, call ∈ st.session.server.encodes ∨ call.Real
  | [], _, _, _, _, _, _, _, _ => fun _ hcall => Or.inl hcall
  | e :: es, st, F, abs, h, hes, hdistinct, hcreated, hcurrent => by
      have hrest : ∀ e' ∈ es, EntryOk env P s₀.db recvBuffer e' := fun e' he' => hes e' (by simp [he'])
      have hfinal := created_foldl_storeEntry localFlag es
        (EcallFreqIndex.storeEntry env recvBuffer localFlag st e) hrest
      obtain ⟨F', abs', h'⟩ := h.storeEntry henv hsf (hes e (by simp)) hdistinct
        (le_trans hfinal hcreated)
      have hsub : (es.filterMap InQueryEntry.out).Sublist ((e :: es).filterMap InQueryEntry.out) :=
        (List.sublist_cons_self e es).filterMap _
      intro call hcall
      rcases encodes_foldl henv hsf es h' hrest ((hsub.map _).nodup hdistinct) hcreated
        (fun hf v hv => hcurrent hf v (List.mem_cons_of_mem _ hv)) call hcall with hmem | hreal
      · exact h.encodes_storeEntry henv hsf (hes e (by simp))
          (fun hf => hcurrent hf _ (List.mem_cons_self ..)) call hmem
      · exact Or.inr hreal

end StoreOk

end EcallFreqIndex

/-! ## Sessions -/

open EcallFreqIndex in
theorem SessionOk.encodes_batch (henv : env.Lawful) {s : Session} (h : SessionOk env s F abs)
    (cs : List Chunk) (stale : Nat → RecipeEntry)
    (hcreated : (processOneBatch env s (env.sessionKeyEnc s.client.sessionKey
      (frameChunks (cs.map Subtype.val))) cs.length stale).server.created ≤ 2 ^ 31)
    (hcurrent : s.FetchesCurrent env (.chunk (env.sessionKeyEnc s.client.sessionKey
      (frameChunks (cs.map Subtype.val))) cs.length stale)) :
    ∀ call ∈ (processOneBatch env s (env.sessionKeyEnc s.client.sessionKey
        (frameChunks (cs.map Subtype.val))) cs.length stale).server.encodes,
      call ∈ s.server.encodes ∨ call.Real := by
  obtain ⟨sketch, es, hquery, hbatch⟩ := queryBatch_spec henv s.server cs stale
  unfold Session.FetchesCurrent inlineRounds at hcurrent
  unfold processOneBatch at hcreated ⊢
  simp only [henv.sessionKey, hquery] at hcurrent hcreated ⊢
  have hstart : SessionOk env { s with server := { s.server with cmSketch := sketch } } F abs :=
    ⟨h.stocked.congr ⟨rfl, rfl, rfl⟩, h.ledger, h.heap⟩
  have hentries := hbatch.entryOk (P := fun _ => True) fun _ _ => trivial
  refine (storeOk_start hstart (localChecker env es) es).encodes_foldl henv hstart.listed_known es
    hentries hbatch.distinct hcreated fun hf => ?_
  rwa [hf, if_neg Bool.false_ne_true, ← hf] at hcurrent

theorem SessionOk.encodes_batches (henv : env.Lawful) (u : Upload) : ∀ (bs : List Batch) {s : Session}
    {F : Containers} {abs : Fp → Option Content}, SessionOk env s F abs →
    s.client.sessionKey = u.login.sessionKey →
    ((bs.map (u.message env)).foldl (Session.receive env) s).server.created ≤ 2 ^ 31 →
    (∀ v ∈ visits (Session.receive env) s (bs.map (u.message env)), v.1.FetchesCurrent env v.2) →
    ∀ call ∈ ((bs.map (u.message env)).foldl (Session.receive env) s).server.encodes,
      call ∈ s.server.encodes ∨ call.Real
  | [], _, _, _, _, _, _, _ => fun _ hcall => Or.inl hcall
  | b :: bs, s, F, abs, h, hkey, hcreated, hcurrent => by
      have hframe := (frame_batch henv s b.chunks b.stale []).1
      rw [← receive_message env u b hkey] at hframe
      have hkey' := hframe.sessionKey.trans hkey
      have hrest := (frame_batches henv u [] bs (s.receive env (u.message env b)) hkey').1.created
      have hmid : (s.receive env (u.message env b)).server.created ≤ 2 ^ 31 :=
        le_trans hrest hcreated
      have hnow : s.FetchesCurrent env (u.message env b) := hcurrent _ (List.mem_cons_self ..)
      have hbatch := h.batch (P := fun _ => True) henv b.chunks (fun _ _ => trivial) b.stale
      have hencodes := h.encodes_batch henv b.chunks b.stale
      rw [← receive_message env u b hkey] at hbatch hencodes
      obtain ⟨F₁, abs₁, h₁, -, -⟩ := hbatch hmid
      intro call hcall
      rcases SessionOk.encodes_batches henv u bs h₁ hkey' hcreated
        (fun v hv => hcurrent v (List.mem_cons_of_mem _ hv)) call hcall with hmem | hreal
      · exact hencodes hmid (by rwa [hkey]) call hmem
      · exact Or.inr hreal

/-! ## Runs -/

namespace Server

theorem encodes_receiveUpload (s : Server) (u : Upload) : (s.receiveUpload env u true).encodes =
    ((u.batches.map (u.message env)).foldl (Session.receive env)
      (Session.start s u.login)).server.encodes := by
  have hclosed : (s.receiveUpload env u true).encodes =
      ((u.messages env true).foldl (Session.receive env) (Session.start s u.login)).server.encodes :=
    (Session.closed_close _).encodes
  rw [hclosed, Upload.messages, if_pos rfl, List.foldl_append, List.foldl_cons, List.foldl_nil,
    Session.receive, EcallFreqIndex.server_processTailBatch]

/-- A complete upload that finds its bases current. -/
theorem encodes_upload (henv : env.Lawful) {s : Server} (h : Rest env s F abs) (u : Upload)
    (hcreated : (s.receiveUpload env u true).created ≤ 2 ^ 31) (hcurrent : u.FetchesCurrent env s) :
    ∀ call ∈ (s.receiveUpload env u true).encodes, call ∈ s.encodes ∨ call.Real := by
  have hfilled : (u.filled env s).server.created ≤ 2 ^ 31 :=
    le_trans (created_recipeEnd env s u) hcreated
  obtain ⟨F₀, h₀⟩ := h.start u.login (le_trans (created_filled henv s u) hfilled)
  rw [encodes_receiveUpload]
  refine h₀.encodes_batches henv u u.batches rfl hfilled fun v hv => hcurrent v ?_
  rw [Upload.messages, LoopLib.visits, outputs_append]
  exact List.mem_append_left _ hv

/-- A session. -/
theorem encodes_serve (henv : env.Lawful) {s : Server} (h : Rest env s F abs) (e : Event)
    (hcreated : (s.serve env e).created ≤ 2 ^ 31) (hcurrent : s.FetchesCurrent env e) :
    (∃ F' abs', Rest env (s.serve env e) F' abs') ∧
      ∀ call ∈ (s.serve env e).encodes, call ∈ s.encodes ∨ call.Real := by
  cases e with
  | upload u =>
      obtain ⟨F', abs', h', -, -⟩ := h.upload (P := fun _ => True) henv u (fun _ _ => trivial) hcreated
      exact ⟨⟨F', abs', h'.updateOnlineInfo⟩, encodes_upload henv h u hcreated hcurrent⟩
  | offline u m =>
      have hupload := le_trans (created_processOff env (s.receiveUpload env u true) m) hcreated
      obtain ⟨F', abs', h', -, -⟩ := h.upload (P := fun _ => True) henv u (fun _ _ => trivial) hupload
      obtain ⟨F'', abs'', h'', hsame, -⟩ := h'.processOff henv m hcreated
      refine ⟨⟨F'', abs'', h''.updateOnlineInfo⟩, fun call hcall => ?_⟩
      refine encodes_upload henv h u hupload hcurrent call ?_
      rw [← hsame.encodes]
      exact hcall

theorem encodes_run (henv : env.Lawful) : ∀ (es : List Event) {s : Server} {F : Containers}
    {abs : Fp → Option Content}, Rest env s F abs → (s.run env es).Counts →
    (∀ v ∈ LoopLib.visits (serve env) s es, v.1.FetchesCurrent env v.2) →
    ∀ call ∈ (s.run env es).encodes, call ∈ s.encodes ∨ call.Real
  | [], _, _, _, _, _, _ => fun _ hcall => Or.inl hcall
  | e :: es, s, F, abs, h, hcounts, hcurrent => by
      obtain ⟨⟨F', abs', h'⟩, hencodes⟩ := encodes_serve henv h e
        (le_trans (created_run henv es (s.serve env e)) hcounts) (hcurrent _ (List.mem_cons_self ..))
      intro call hcall
      rcases encodes_run henv es h' hcounts (fun v hv => hcurrent v (List.mem_cons_of_mem _ hv)) call
        hcall with hmem | hreal
      · exact hencodes call hmem
      · exact Or.inr hreal

/-- **Inline deltas are made against the real base** in the runs that find every copy
current. -/
theorem encodes_real (henv : env.Lawful) (m : Residue) (es : List Event)
    (hcounts : ((boot env m).run env es).Counts)
    (hcurrent : ∀ v ∈ LoopLib.visits (serve env) (boot env m) es, v.1.FetchesCurrent env v.2) :
    ∀ call ∈ ((boot env m).run env es).encodes, call.plain = some call.baseBuf := by
  intro call hcall
  rcases encodes_run henv es (.boot env m) hcounts hcurrent call hcall with hmem | hreal
  · cases hmem
  · exact hreal

end Server

/-! ## A container that a pass makes longer -/

/-- Chunks are similar if they begin with the same byte, and are encoded as they
arrive. -/
def firstByteEnv : Env :=
  { inlineEnv with
    getSF2 := fun recvBuffer offset _ =>
      BytesN.ofBytes 96 (List.replicate 96 ((recvBuffer.drop offset).headD 0)) }

/-- A chunk of the `k`-th kind. -/
def kindChunk (k n : UInt8) : Chunk := ⟨List.replicate 24 k ++ [n], by simp [MAX_CHUNK_SIZE]⟩

/-- The second upload makes a copy of the first container for a chunk of the first
kind, and stores one of the second kind. -/
def twoKinds : List Event :=
  [.upload (growingUpload 0 [kindChunk 1 0]),
    .offline (growingUpload 1 [kindChunk 1 1, kindChunk 2 0]) ⟨zeroCipher, 0, [], []⟩]

theorem lawful_firstByte : firstByteEnv.Lawful := by
  obtain ⟨h1, h2, h3, h4, h5, h6, h7, h8, h9, h10⟩ := lawful_inline
  exact ⟨h1, h2, h3, h4, h5, h6, h7, h8, h9, h10⟩

/-- The third upload gets its base from the copy, which the pass has left behind the file,
but not at that base. -/
def firstKindAgain : List Event := twoKinds ++ [.upload (growingUpload 2 [kindChunk 1 2])]

theorem encodes_real_firstKindAgain : (((Server.boot firstByteEnv ⟨[], fun _ => []⟩).run firstByteEnv
    firstKindAgain).encodes.all fun call => call.plain = some call.baseBuf) = true :=
  List.all_eq_true.mpr fun call hcall => decide_eq_true
    (Server.encodes_real lawful_firstByte ⟨[], fun _ => []⟩ firstKindAgain
      (by unfold Server.Counts; decide +kernel) (by decide +kernel) call hcall)

/-- **The copy is not renewed.** The pass merges the container of the second kind
into the first one, and the third upload looks for its base behind the end of the
copy. -/
theorem not_encodes_real_merged : ¬ ∀ call ∈ ((Server.boot firstByteEnv ⟨[], fun _ => []⟩).run
    firstByteEnv (twoKinds ++ [.upload (growingUpload 2 [kindChunk 2 1])])).encodes,
      call.plain = some call.baseBuf := by
  decide +kernel

end ShieldReduce
