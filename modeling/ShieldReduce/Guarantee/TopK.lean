import ShieldReduce.Invariant.TopK
import ShieldReduce.System.Calls

/-!
# The shortcut past the heap

`ProcessOneBatch` does not ask the heap for a chunk whose estimate is
smaller than the least frequency in a full heap. The heap is filled at the
end of a batch with the estimates of its beginning, and the sketch only
grows. So no entry is more frequent than its estimate (`TopKOk`), and a
chunk with a smaller estimate than every entry is none of them.
-/

namespace ShieldReduce

open ByteLib UMapLib

namespace EcallFreqIndex

/-! ## Batches -/

/-- `minFreq` of a batch. -/
def minFreq (env : Env) (heap : EntryHeap) : UInt32 :=
  if heap.size = env.topThreshold then heap.topEntry else 0

/-- The chunks of a batch. -/
def batchChunks (env : Env) (s : Session) (data : Bytes) (chunkNum : Nat) : List (Nat × Bytes) :=
  parseChunks (env.sessionKeyDec s.client.sessionKey data) chunkNum 0

/-- The updates that a batch makes in the sketch. -/
def batchFps (env : Env) (s : Session) (data : Bytes) (chunkNum : Nat) : List Fp :=
  (batchChunks env s data chunkNum).map fun c => env.generateHash c.2

/-- Sketch and estimates at the heap check of a batch. -/
def batchCounts (env : Env) (s : Session) (data : Bytes) (chunkNum : Nat) :
    EcallCMSketch × List UInt32 :=
  countChunks env s.server.cmSketch ((batchChunks env s data chunkNum).map Prod.snd)

/-- The entries of a batch at its heap check. -/
def batchEntries (env : Env) (s : Session) (data : Bytes) (chunkNum : Nat)
    (stale : Nat → RecipeEntry) : List InQueryEntry :=
  ((batchChunks env s data chunkNum).zip (batchCounts env s data chunkNum).2).mapIdx
    fun i c => readEntry env (stale i) c.2 c.1

/-- The heap check without the shortcut: every chunk that is new to the batch is
looked up. -/
def checkEntryLookup (env : Env) (heap : EntryHeap) (st : Checked) (e : InQueryEntry) : Checked :=
  match st.localIndex.lookup e.chunkHash with
  | some offset =>
      let dedupFlag := match (st.entries[offset]?).map InQueryEntry.dedupFlag with
        | some .duplicate => DedupFlag.tmpDuplicate
        | _ => .tmpUnique
      { st with entries :=
          st.entries.modify offset (fun f => { f with chunkFreq := e.chunkFreq }) ++
            [{ e with dedupFlag := dedupFlag }] }
  | none =>
      let e := match heap.getPriority e.chunkHash with
        | some item => { e with dedupFlag := .duplicate, chunkAddr := item.address }
        | none => askOutside env e
      { entries := st.entries ++ [e]
        localIndex := st.localIndex.insert e.chunkHash st.entries.length }

/-- `ProcessOneBatch` without the shortcut. -/
def processOneBatchLookup (env : Env) (s : Session) (data : Bytes) (chunkNum : Nat)
    (stale : Nat → RecipeEntry) : Session :=
  let recvBuffer := env.sessionKeyDec s.client.sessionKey data
  let checked := ((batchEntries env s data chunkNum stale).foldl
    (checkEntryLookup env s.server.insideDedupIndex) ⟨[], ∅⟩).entries
  let asked := checked.map fun e => mapOut (queryOutBasechunk s.server.db)
    (outEntrySFGet env recvBuffer (mapOut (queryOutIndex s.server.db) e))
  let entries := asked.map (entryLoad env)
  let localFlag := localChecker env entries
  let server := { s.server with cmSketch := (batchCounts env s data chunkNum).1 }
  finishBatch env localFlag (entries.foldl (storeEntry env recvBuffer localFlag)
    ⟨{ s with server := server }, [], [], []⟩)

/-- Sketch and heap after a sequence of batches, and the updates so far. Between
two batches everything else may change. -/
inductive Batches (env : Env) : EcallCMSketch → EntryHeap → List Fp → Prop
  | start : Batches env (.init env.sketchWidth env.sketchDepth) .empty []
  | batch {history : List Fp} (s : Session) (data : Bytes) (chunkNum : Nat)
      (stale : Nat → RecipeEntry) (h : Batches env s.server.cmSketch s.server.insideDedupIndex history) :
      Batches env (processOneBatch env s data chunkNum stale).server.cmSketch
        (processOneBatch env s data chunkNum stale).server.insideDedupIndex
        (history ++ batchFps env s data chunkNum)

/-- The settings of the sketch and of the heap; a fingerprint has eight words. -/
structure TopKConfig (env : Env) : Prop where
  width : 1 ≤ env.sketchWidth
  depth : 1 ≤ env.sketchDepth ∧ env.sketchDepth ≤ 8
  threshold : 2 ≤ env.topThreshold

/-! ## What the store loop leaves alone -/

/-- Sketch and heap. -/
def topK (s : Server) : EcallCMSketch × EntryHeap := (s.cmSketch, s.insideDedupIndex)

theorem topK_saveChunk (s : Session) (d : Dir) (chunkData : Bytes) (chunkAddr : RecipeEntry) (sf : Sf)
    (fp : Fp) : topK (s.saveChunk d chunkData chunkAddr sf fp).2.server = topK s.server := by
  unfold Session.saveChunk
  dsimp only
  split <;> rfl

theorem topK_processSheUniqueChunk (env : Env) (s : Session) (chunkAddr : RecipeEntry) (chunk : Bytes)
    (sf : Sf) (fp : Fp) :
    topK (s.processSheUniqueChunk env chunkAddr chunk sf fp).2.server = topK s.server := by
  unfold Session.processSheUniqueChunk
  dsimp only
  split
  · exact topK_saveChunk ..
  · exact topK_saveChunk ..

theorem topK_uniqueCall (env : Env) (recvBuffer : Bytes) (localFlag : Bool) (st : Storing)
    (e : InQueryEntry) (o : OutQueryEntry) :
    topK (uniqueCall env recvBuffer localFlag st e o).session.server = topK st.session.server := by
  obtain ⟨b, c, calls, table, hsession⟩ := session_uniqueCall env recvBuffer localFlag st e o
  rw [hsession]
  rfl

/-- The entry of a round keeps the chunk's fingerprint, count and flag. -/
structure SameChunk (e e' : InQueryEntry) : Prop where
  chunkHash : e'.chunkHash = e.chunkHash
  chunkFreq : e'.chunkFreq = e.chunkFreq

theorem storeEntry_topK (env : Env) (recvBuffer : Bytes) (localFlag : Bool) (st : Storing)
    (e : InQueryEntry) :
    topK (storeEntry env recvBuffer localFlag st e).session.server = topK st.session.server ∧
      ∃ e', (storeEntry env recvBuffer localFlag st e).entries = st.entries ++ [e'] ∧
        SameChunk e e' := by
  have hrecipe : ∀ (s : Session) (h : Fp), topK (s.updateFileRecipe env h).server = topK s.server := by
    intro s h
    unfold Session.updateFileRecipe
    dsimp only
    split <;> rfl
  unfold storeEntry
  dsimp only
  rw [hrecipe]
  cases e.out with
  | none => exact ⟨rfl, e, rfl, rfl, rfl⟩
  | some o =>
      dsimp only
      split
      · exact ⟨rfl, _, rfl, rfl, rfl⟩
      · obtain ⟨hsession, o', -, -, -, hentries⟩ := storeUnique_call env recvBuffer localFlag st e o
        refine ⟨?_, _, hentries, rfl, rfl⟩
        rw [hsession]
        exact (topK_processSheUniqueChunk ..).trans (topK_uniqueCall ..)

theorem foldl_storeEntry_topK (env : Env) (recvBuffer : Bytes) (localFlag : Bool)
    (es : List InQueryEntry) (st : Storing) :
    topK (es.foldl (storeEntry env recvBuffer localFlag) st).session.server = topK st.session.server ∧
      ∃ es', (es.foldl (storeEntry env recvBuffer localFlag) st).entries = st.entries ++ es' ∧
        List.Forall₂ SameChunk es es' := by
  induction es generalizing st with
  | nil => exact ⟨rfl, [], (List.append_nil _).symm, .nil⟩
  | cons e es ih =>
      obtain ⟨htop, e', hentries, hsame⟩ := storeEntry_topK env recvBuffer localFlag st e
      obtain ⟨htop', es', hentries', hsame'⟩ := ih (storeEntry env recvBuffer localFlag st e)
      refine ⟨htop'.trans htop, e' :: es', ?_, .cons hsame hsame'⟩
      rw [List.foldl_cons, hentries', hentries, List.append_assoc, List.singleton_append]

/-! ## Counting a batch -/

/-- The estimates of a batch lie between those before it and those behind it. -/
theorem countChunks_spec (env : Env) (cs : List Bytes) {sketch : EcallCMSketch} {history : List Fp}
    (h : sketch.Counted history) (hlt : history.length + cs.length < 2 ^ 32) :
    (countChunks env sketch cs).1.Counted (history ++ cs.map env.generateHash) ∧
      (∀ fp, (sketch.estimate fp).toNat ≤ ((countChunks env sketch cs).1.estimate fp).toNat) ∧
      ∀ p ∈ cs.zip (countChunks env sketch cs).2,
        (sketch.estimate (env.generateHash p.1)).toNat ≤ p.2.toNat ∧
          p.2.toNat ≤ ((countChunks env sketch cs).1.estimate (env.generateHash p.1)).toNat := by
  induction cs generalizing sketch history with
  | nil =>
      refine ⟨?_, fun fp => le_refl _, fun p hp => by cases hp⟩
      rw [List.map_nil, List.append_nil]
      exact h
  | cons c cs ih =>
      rw [List.length_cons] at hlt
      have hone : history.length + 1 < 2 ^ 32 := by omega
      have hgrow := h.estimate_le_update (env.generateHash c) hone
      have hlen : (history ++ [env.generateHash c]).length = history.length + 1 := List.length_append
      obtain ⟨hcounted, hmono, hbetween⟩ := ih (h.update (env.generateHash c) hone)
        (by rw [hlen]; omega)
      rw [countChunks]
      dsimp only
      refine ⟨?_, fun fp => (hgrow fp).trans (hmono fp), fun p hp => ?_⟩
      · rw [List.append_assoc] at hcounted
        exact hcounted
      · rw [List.zip_cons_cons] at hp
        rcases List.mem_cons.mp hp with rfl | hp
        · exact ⟨hgrow _, hmono _⟩
        · obtain ⟨hlow, hhigh⟩ := hbetween p hp
          exact ⟨(hgrow _).trans hlow, hhigh⟩

/-! ## The heap check -/

/-- The counts of the entries so far are at most `bound`, and the local index
leads to entries of the same fingerprint. -/
structure Tracked (bound : Fp → Nat) (st : Checked) : Prop where
  freq : ∀ f ∈ st.entries, f.chunkFreq.toNat ≤ bound f.chunkHash
  index : ∀ k off, st.localIndex.lookup k = some off →
    (st.entries.map InQueryEntry.chunkHash)[off]? = some k

theorem tracked_nil (bound : Fp → Nat) : Tracked bound ⟨[], ∅⟩ := by
  refine ⟨fun f hf => (List.not_mem_nil hf).elim, fun k off hk => ?_⟩
  rw [AList.lookup_empty] at hk
  cases hk

theorem map_chunkHash_modify (freq : UInt32) (es : List InQueryEntry) (off : Nat) :
    (es.modify off fun f => { f with chunkFreq := freq }).map InQueryEntry.chunkHash =
      es.map InQueryEntry.chunkHash := by
  induction es generalizing off with
  | nil => cases off <;> rfl
  | cons e es ih =>
      cases off with
      | zero => rfl
      | succ off => rw [List.modify_succ_cons, List.map_cons, ih, List.map_cons]

/-- A repeated chunk hands its count to the first one. -/
theorem Tracked.repeated {bound : Fp → Nat} {st : Checked} (h : Tracked bound st) {e e' : InQueryEntry}
    {off : Nat} (hoff : st.localIndex.lookup e.chunkHash = some off)
    (he : e.chunkFreq.toNat ≤ bound e.chunkHash) (hsame : SameChunk e e') :
    Tracked bound ⟨st.entries.modify off (fun f => { f with chunkFreq := e.chunkFreq }) ++ [e'],
      st.localIndex⟩ := by
  have hfirst := h.index _ _ hoff
  refine ⟨fun f hf => ?_, fun k off' hk => ?_⟩
  · rcases List.mem_append.mp hf with hf | hf
    · obtain ⟨j, hj⟩ := List.mem_iff_getElem?.mp hf
      rw [List.getElem?_modify] at hj
      by_cases heq : off = j
      · subst heq
        rw [List.getElem?_map] at hfirst
        cases hg : st.entries[off]? with
        | none =>
            rw [hg] at hfirst
            cases hfirst
        | some g =>
            rw [hg] at hj hfirst
            have hhash : g.chunkHash = e.chunkHash := Option.some.inj hfirst
            simp only [if_true, Option.map_eq_map, Option.map_some] at hj
            obtain rfl := Option.some.inj hj
            change e.chunkFreq.toNat ≤ bound g.chunkHash
            rw [hhash]
            exact he
      · simp only [if_neg heq, Option.map_eq_map, Option.map_id'] at hj
        exact h.freq f (List.mem_of_getElem? hj)
    · rw [List.mem_singleton.mp hf, hsame.chunkFreq, hsame.chunkHash]
      exact he
  · have hold := h.index k off' hk
    change ((st.entries.modify off _ ++ [e']).map InQueryEntry.chunkHash)[off']? = some k
    rw [List.map_append, map_chunkHash_modify]
    exact List.getElem?_append_left (List.getElem?_eq_some_iff.mp hold).1 ▸ hold

/-- A chunk that is new to the batch. -/
theorem Tracked.add {bound : Fp → Nat} {st : Checked} (h : Tracked bound st) {e e' : InQueryEntry}
    (he : e.chunkFreq.toNat ≤ bound e.chunkHash) (hsame : SameChunk e e') :
    Tracked bound ⟨st.entries ++ [e'], st.localIndex.insert e.chunkHash st.entries.length⟩ := by
  refine ⟨fun f hf => ?_, fun k off hk => ?_⟩
  · rcases List.mem_append.mp hf with hf | hf
    · exact h.freq f hf
    · rw [List.mem_singleton.mp hf, hsame.chunkFreq, hsame.chunkHash]
      exact he
  · rw [lookup_eq_if] at hk
    rw [List.map_append]
    split at hk
    · rename_i heq
      obtain rfl := Option.some.inj hk
      rw [heq, List.getElem?_append_right (by rw [List.length_map]), List.length_map, Nat.sub_self,
        ← hsame.chunkHash]
      rfl
    · have hold := h.index k off hk
      exact List.getElem?_append_left (List.getElem?_eq_some_iff.mp hold).1 ▸ hold

theorem Tracked.check {env : Env} {bound : Fp → Nat} {st : Checked} (h : Tracked bound st)
    (heap : EntryHeap) (minFreq : UInt32) {e : InQueryEntry}
    (he : e.chunkFreq.toNat ≤ bound e.chunkHash) : Tracked bound (checkEntry env heap minFreq st e) := by
  have hasked : SameChunk e (askOutside env e) := ⟨rfl, rfl⟩
  unfold checkEntry
  split
  · rename_i off hoff
    exact h.repeated hoff he ⟨rfl, rfl⟩
  · split
    · exact h.add (e := e) he hasked
    · split
      · exact h.add (e := e) he ⟨rfl, rfl⟩
      · exact h.add (e := e) he hasked

theorem Tracked.foldl {env : Env} {bound : Fp → Nat} (heap : EntryHeap) (minFreq : UInt32)
    (es : List InQueryEntry) {st : Checked} (h : Tracked bound st)
    (hes : ∀ e ∈ es, e.chunkFreq.toNat ≤ bound e.chunkHash) :
    Tracked bound (es.foldl (checkEntry env heap minFreq) st) := by
  induction es generalizing st with
  | nil => exact h
  | cons e es ih =>
      exact ih (h.check heap minFreq (hes e (List.mem_cons_self ..)))
        fun e' he' => hes e' (List.mem_cons_of_mem _ he')

/-- Without entries below the threshold that are in the heap, the shortcut
decides as the lookup does. -/
theorem checkEntry_eq_lookup {env : Env} {heap : EntryHeap} {minFreq : UInt32} {e : InQueryEntry}
    (h : e.chunkFreq < minFreq → heap.contains e.chunkHash = false) (st : Checked) :
    checkEntry env heap minFreq st e = checkEntryLookup env heap st e := by
  unfold checkEntry checkEntryLookup
  cases st.localIndex.lookup e.chunkHash with
  | some offset => rfl
  | none =>
      dsimp only
      by_cases hlt : e.chunkFreq < minFreq
      · have hnone : heap.getPriority e.chunkHash = none := by
          have hfalse := h hlt
          rw [EntryHeap.contains, Option.isSome_eq_false_iff, Option.isNone_iff_eq_none] at hfalse
          exact hfalse
        rw [if_pos hlt, hnone]
      · cases heap.getPriority e.chunkHash <;> simp [if_neg hlt]

theorem foldl_checkEntry_eq_lookup (env : Env) {heap : EntryHeap} {minFreq : UInt32}
    (es : List InQueryEntry) (st : Checked)
    (h : ∀ e ∈ es, e.chunkFreq < minFreq → heap.contains e.chunkHash = false) :
    es.foldl (checkEntry env heap minFreq) st = es.foldl (checkEntryLookup env heap) st := by
  induction es generalizing st with
  | nil => rfl
  | cons e es ih =>
      rw [List.foldl_cons, List.foldl_cons, checkEntry_eq_lookup (h e (List.mem_cons_self ..))]
      exact ih _ fun e' he' => h e' (List.mem_cons_of_mem _ he')

/-! ## The heap update -/

/-- What holds of the heap while it is filled. -/
structure HeapOk (env : Env) (bound : Fp → Nat) (heap : EntryHeap) : Prop where
  kept : heap.Kept
  size : heap.size ≤ env.topThreshold
  freq : ∀ k, heap.freqOf k ≤ bound k

theorem HeapOk.addChunkToHeap {env : Env} {bound : Fp → Nat} {heap : EntryHeap}
    (hthr : 2 ≤ env.topThreshold) (h : HeapOk env bound heap) {freq : UInt32} {key : Fp}
    (hnew : heap.contains key = false) (hfreq : freq.toNat ≤ bound key) (chunkAddr : RecipeEntry) :
    HeapOk env bound (addChunkToHeap env heap freq chunkAddr key) := by
  -- after the least entry was popped there is room
  have hroom : ∃ heap', heap' = (if heap.size = env.topThreshold then heap.pop else heap) ∧
      HeapOk env bound heap' ∧ heap'.size < env.topThreshold ∧ heap'.contains key = false := by
    refine ⟨_, rfl, ?_⟩
    have hsize := h.size
    split
    · rename_i hfull
      obtain ⟨hkept, hlen, hle⟩ := EntryHeap.pop_spec h.kept (hfull ▸ hthr)
      refine ⟨⟨hkept, by omega, fun k => (hle k).trans (h.freq k)⟩, by omega, ?_⟩
      by_contra hc
      rw [EntryHeap.contains_pop (by rwa [Bool.not_eq_false] at hc)] at hnew
      cases hnew
    · exact ⟨h, by omega, hnew⟩
  obtain ⟨heap', heq, hok, hlt, hnew'⟩ := hroom
  unfold EcallFreqIndex.addChunkToHeap
  dsimp only
  rw [← heq]
  obtain ⟨hkept, hlen, hfreqs⟩ := EntryHeap.add_spec hok.kept hnew' ⟨chunkAddr, freq, 0⟩
  refine ⟨hkept, by omega, fun k => ?_⟩
  rw [hfreqs]
  split
  · rename_i hk
    rw [hk]
    exact hfreq
  · exact hok.freq k

theorem HeapOk.updateHeap {env : Env} {bound : Fp → Nat} {heap : EntryHeap}
    (hthr : 2 ≤ env.topThreshold) (h : HeapOk env bound heap) {e : InQueryEntry}
    (he : e.chunkFreq.toNat ≤ bound e.chunkHash) : HeapOk env bound (updateHeap env heap e) := by
  unfold EcallFreqIndex.updateHeap
  split
  · split
    · rename_i hin
      obtain ⟨hkept, hlen, hfreqs⟩ := EntryHeap.update_spec h.kept hin e.chunkFreq
      refine ⟨hkept, hlen ▸ h.size, fun k => ?_⟩
      rw [hfreqs]
      split
      · rename_i hk
        rw [hk]
        exact he
      · exact h.freq k
    · rename_i hnew
      exact h.addChunkToHeap hthr (by rwa [Bool.not_eq_true] at hnew) he e.chunkAddr
  · exact h

theorem HeapOk.foldl_updateHeap {env : Env} {bound : Fp → Nat} (hthr : 2 ≤ env.topThreshold)
    (es : List InQueryEntry) {heap : EntryHeap} (h : HeapOk env bound heap)
    (hes : ∀ e ∈ es, e.chunkFreq.toNat ≤ bound e.chunkHash) :
    HeapOk env bound (es.foldl (EcallFreqIndex.updateHeap env) heap) := by
  induction es generalizing heap with
  | nil => exact h
  | cons e es ih =>
      exact ih (h.updateHeap hthr (hes e (List.mem_cons_self ..)))
        fun e' he' => hes e' (List.mem_cons_of_mem _ he')

/-! ## Sequences of batches -/

/-- The invariant of sketch and heap between two batches. -/
structure TopKOk (env : Env) (sketch : EcallCMSketch) (heap : EntryHeap) (history : List Fp) :
    Prop where
  counted : sketch.Counted history
  heap : HeapOk env (fun k => (sketch.estimate k).toNat) heap

theorem topKOk_start {env : Env} (hconfig : TopKConfig env) :
    TopKOk env (.init env.sketchWidth env.sketchDepth) .empty [] :=
  ⟨EcallCMSketch.counted_init hconfig.width hconfig.depth.1, EntryHeap.kept_empty, Nat.zero_le _,
    fun _ => Nat.zero_le _⟩

/-- The sketch of a batch, and its entries at the heap check. -/
theorem batchEntries_spec {env : Env} {s : Session} {data : Bytes} {chunkNum : Nat}
    {history : List Fp} (h : s.server.cmSketch.Counted history)
    (hlt : (history ++ batchFps env s data chunkNum).length < 2 ^ 32) (stale : Nat → RecipeEntry) :
    (batchCounts env s data chunkNum).1.Counted (history ++ batchFps env s data chunkNum) ∧
      (∀ fp, (s.server.cmSketch.estimate fp).toNat ≤
        ((batchCounts env s data chunkNum).1.estimate fp).toNat) ∧
      ∀ e ∈ batchEntries env s data chunkNum stale,
        (s.server.cmSketch.estimate e.chunkHash).toNat ≤ e.chunkFreq.toNat ∧
          e.chunkFreq.toNat ≤ ((batchCounts env s data chunkNum).1.estimate e.chunkHash).toNat := by
  have hfps : batchFps env s data chunkNum =
      ((batchChunks env s data chunkNum).map Prod.snd).map env.generateHash := by
    rw [List.map_map]
    rfl
  rw [hfps, List.length_append, List.length_map] at hlt
  obtain ⟨hcounted, hmono, hbetween⟩ :=
    countChunks_spec env ((batchChunks env s data chunkNum).map Prod.snd) h hlt
  rw [← hfps] at hcounted
  refine ⟨hcounted, hmono, fun e he => ?_⟩
  obtain ⟨i, hi, rfl⟩ := List.mem_mapIdx.mp he
  have hmem := List.getElem_mem hi
  generalize ((batchChunks env s data chunkNum).zip (batchCounts env s data chunkNum).2)[i] = c at hmem
  refine hbetween (c.1.2, c.2) ?_
  rw [List.zip_map_left]
  exact List.mem_map.mpr ⟨c, hmem, rfl⟩

theorem bounded_of_same {bound : Fp → Nat} {es es' : List InQueryEntry}
    (hsame : List.Forall₂ SameChunk es es') (h : ∀ e ∈ es, e.chunkFreq.toNat ≤ bound e.chunkHash) :
    ∀ e ∈ es', e.chunkFreq.toNat ≤ bound e.chunkHash := by
  induction hsame with
  | nil => exact fun e he => by cases he
  | cons hone _ ih =>
      rw [List.forall_mem_cons] at h ⊢
      refine ⟨?_, ih h.2⟩
      rw [hone.chunkFreq, hone.chunkHash]
      exact h.1

theorem same_entryLoad (env : Env) (e : InQueryEntry) : SameChunk e (entryLoad env e) := by
  unfold entryLoad
  split
  · split <;> exact ⟨rfl, rfl⟩
  · exact ⟨rfl, rfl⟩

/-- What a batch makes of the heap: an update for each checked entry. -/
theorem processOneBatch_topK (env : Env) (s : Session) (data : Bytes) (chunkNum : Nat)
    (stale : Nat → RecipeEntry) : ∃ es : List InQueryEntry,
    (∀ bound, Tracked bound ((batchEntries env s data chunkNum stale).foldl
        (checkEntry env s.server.insideDedupIndex (minFreq env s.server.insideDedupIndex)) ⟨[], ∅⟩) →
      ∀ e ∈ es, e.chunkFreq.toNat ≤ bound e.chunkHash) ∧
    topK (processOneBatch env s data chunkNum stale).server =
      ((batchCounts env s data chunkNum).1,
        es.foldl (EcallFreqIndex.updateHeap env) s.server.insideDedupIndex) := by
  generalize hchecked : (batchEntries env s data chunkNum stale).foldl
    (checkEntry env s.server.insideDedupIndex (minFreq env s.server.insideDedupIndex))
    ⟨[], ∅⟩ = checked
  -- the entries that the store loop takes
  obtain ⟨asked, hasked, hquery⟩ : ∃ asked, List.Forall₂ SameChunk checked.entries asked ∧
      queryBatch env s.server (env.sessionKeyDec s.client.sessionKey data) chunkNum stale =
        ({ s.server with cmSketch := (batchCounts env s data chunkNum).1 }, asked) := by
    refine ⟨checked.entries.map fun e => entryLoad env (mapOut (queryOutBasechunk s.server.db)
      (outEntrySFGet env (env.sessionKeyDec s.client.sessionKey data)
        (mapOut (queryOutIndex s.server.db) e))), ?_, ?_⟩
    · rw [List.forall₂_map_right_iff]
      refine List.forall₂_same.mpr fun e _ => ?_
      obtain ⟨hhash, hfreq⟩ := same_entryLoad env (mapOut (queryOutBasechunk s.server.db)
        (outEntrySFGet env (env.sessionKeyDec s.client.sessionKey data)
          (mapOut (queryOutIndex s.server.db) e)))
      exact ⟨hhash, hfreq⟩
    · rw [← hchecked]
      unfold queryBatch
      dsimp only
      rw [List.map_map]
      rfl
  obtain ⟨htop, es, hentries, hsame⟩ := foldl_storeEntry_topK env
    (env.sessionKeyDec s.client.sessionKey data) (localChecker env asked) asked
    ⟨{ s with server := { s.server with cmSketch := (batchCounts env s data chunkNum).1 } }, [], [], []⟩
  rw [List.nil_append] at hentries
  refine ⟨es, fun bound h => bounded_of_same hsame (bounded_of_same hasked h.freq), ?_⟩
  obtain ⟨hsketch, hheap⟩ := Prod.mk.inj htop
  unfold EcallFreqIndex.processOneBatch
  dsimp only
  rw [hquery]
  dsimp only
  unfold finishBatch topK
  dsimp only
  rw [hsketch, hheap, hentries]

/-- A batch keeps the invariant. -/
theorem TopKOk.processOneBatch {env : Env} (hconfig : TopKConfig env) {s : Session}
    {history : List Fp} (h : TopKOk env s.server.cmSketch s.server.insideDedupIndex history)
    (data : Bytes) (chunkNum : Nat) (stale : Nat → RecipeEntry)
    (hlt : (history ++ batchFps env s data chunkNum).length < 2 ^ 32) :
    TopKOk env (processOneBatch env s data chunkNum stale).server.cmSketch
      (processOneBatch env s data chunkNum stale).server.insideDedupIndex
      (history ++ batchFps env s data chunkNum) := by
  obtain ⟨hcounted, hmono, hbetween⟩ := batchEntries_spec h.counted hlt stale
  obtain ⟨es, hes, htop⟩ := processOneBatch_topK env s data chunkNum stale
  obtain ⟨hsketch, hheap⟩ := Prod.mk.inj htop
  have htracked : Tracked (fun k => ((batchCounts env s data chunkNum).1.estimate k).toNat)
      ((batchEntries env s data chunkNum stale).foldl (checkEntry env s.server.insideDedupIndex
        (minFreq env s.server.insideDedupIndex)) ⟨[], ∅⟩) :=
    Tracked.foldl _ _ _ (tracked_nil _) fun e he => (hbetween e he).2
  rw [hsketch, hheap]
  refine ⟨hcounted, HeapOk.foldl_updateHeap hconfig.threshold es
    ⟨h.heap.kept, h.heap.size, fun k => (h.heap.freq k).trans (hmono k)⟩
    (hes (fun k => ((batchCounts env s data chunkNum).1.estimate k).toNat) htracked)⟩

theorem Batches.topKOk {env : Env} (hconfig : TopKConfig env) {sketch : EcallCMSketch}
    {heap : EntryHeap} {history : List Fp} (h : Batches env sketch heap history)
    (hlt : history.length < 2 ^ 32) : TopKOk env sketch heap history := by
  induction h with
  | start => exact topKOk_start hconfig
  | batch s data chunkNum stale _ ih =>
      have hle := hlt
      rw [List.length_append] at hle
      exact (ih (by omega)).processOneBatch hconfig data chunkNum stale hlt

theorem freqOf_getPriority {heap : EntryHeap} {k : Fp} {item : HeapItem}
    (h : heap.getPriority k = some item) : heap.freqOf k = item.chunkFreq.toNat := by
  rw [EntryHeap.freqOf, h]
  rfl

/-- A chunk below the least frequency of the full heap is not in it. -/
theorem TopKOk.not_contains {env : Env} {s : Session} {history : List Fp}
    (h : TopKOk env s.server.cmSketch s.server.insideDedupIndex history) {e : InQueryEntry}
    (he : (s.server.cmSketch.estimate e.chunkHash).toNat ≤ e.chunkFreq.toNat)
    (hlt : e.chunkFreq < minFreq env s.server.insideDedupIndex) :
    s.server.insideDedupIndex.contains e.chunkHash = false := by
  by_contra hc
  rw [Bool.not_eq_false] at hc
  unfold minFreq at hlt
  split at hlt
  · have htop := EntryHeap.prio_le_of_kept h.heap.kept hc
    have hfreq := h.heap.freq e.chunkHash
    rw [UInt32.lt_iff_toNat_lt] at hlt
    omega
  · exact absurd hlt (by rw [UInt32.lt_iff_toNat_lt]; exact Nat.not_lt_zero _)

theorem processOneBatch_eq_lookup {env : Env} {s : Session} {data : Bytes} {chunkNum : Nat}
    {stale : Nat → RecipeEntry}
    (h : (batchEntries env s data chunkNum stale).foldl (checkEntry env s.server.insideDedupIndex
        (minFreq env s.server.insideDedupIndex)) ⟨[], ∅⟩ =
      (batchEntries env s data chunkNum stale).foldl
        (checkEntryLookup env s.server.insideDedupIndex) ⟨[], ∅⟩) :
    processOneBatch env s data chunkNum stale = processOneBatchLookup env s data chunkNum stale := by
  unfold processOneBatchLookup
  rw [← h]
  rfl

/-- **The shortcut past the heap is sound.** In every sequence of batches with fewer
than `2^32` chunks, a chunk whose estimate is below `minFreq` is not in the heap,
so the batch goes as if every chunk were looked up; no entry of the heap is more
frequent than its estimate, no estimate falls, and none under-counts. -/
theorem shortcut_sound {env : Env} (hconfig : TopKConfig env) {history : List Fp} {s : Session}
    (h : Batches env s.server.cmSketch s.server.insideDedupIndex history) (data : Bytes)
    (chunkNum : Nat) (stale : Nat → RecipeEntry)
    (hlt : (history ++ batchFps env s data chunkNum).length < 2 ^ 32) :
    (∀ e ∈ batchEntries env s data chunkNum stale,
        e.chunkFreq < minFreq env s.server.insideDedupIndex →
          s.server.insideDedupIndex.contains e.chunkHash = false) ∧
      (batchEntries env s data chunkNum stale).foldl (checkEntry env s.server.insideDedupIndex
          (minFreq env s.server.insideDedupIndex)) ⟨[], ∅⟩ =
        (batchEntries env s data chunkNum stale).foldl
          (checkEntryLookup env s.server.insideDedupIndex) ⟨[], ∅⟩ ∧
      processOneBatch env s data chunkNum stale = processOneBatchLookup env s data chunkNum stale ∧
      (∀ fp item, s.server.insideDedupIndex.getPriority fp = some item →
        item.chunkFreq ≤ s.server.cmSketch.estimate fp ∧
          item.chunkFreq ≤ (batchCounts env s data chunkNum).1.estimate fp) ∧
      ∀ fp, s.server.cmSketch.estimate fp ≤ (batchCounts env s data chunkNum).1.estimate fp ∧
        (history ++ batchFps env s data chunkNum).count fp ≤
          ((batchCounts env s data chunkNum).1.estimate fp).toNat := by
  have hshort : history.length < 2 ^ 32 := by
    rw [List.length_append] at hlt
    omega
  have hok := h.topKOk hconfig hshort
  obtain ⟨hcounted, hmono, hbetween⟩ := batchEntries_spec hok.counted hlt stale
  have hnot : ∀ e ∈ batchEntries env s data chunkNum stale,
      e.chunkFreq < minFreq env s.server.insideDedupIndex →
        s.server.insideDedupIndex.contains e.chunkHash = false :=
    fun e he hbelow => hok.not_contains (hbetween e he).1 hbelow
  have hfold := foldl_checkEntry_eq_lookup env (batchEntries env s data chunkNum stale) ⟨[], ∅⟩ hnot
  refine ⟨hnot, hfold, processOneBatch_eq_lookup hfold, fun fp item hitem => ?_, fun fp => ?_⟩
  · have hfreq := hok.heap.freq fp
    rw [freqOf_getPriority hitem] at hfreq
    exact ⟨UInt32.le_iff_toNat_le.mpr hfreq, UInt32.le_iff_toNat_le.mpr (hfreq.trans (hmono fp))⟩
  · exact ⟨UInt32.le_iff_toNat_le.mpr (hmono fp), hcounted.count_le_estimate hlt fp⟩

/-- A heap of two chunks over a sketch of two rows. -/
def topTwo : Env := { Env.plain with topThreshold := 2, sketchWidth := 4, sketchDepth := 2 }

def topTwoSession : Session :=
  .start (.boot topTwo ⟨[], fun _ => []⟩) ⟨BytesN.ofBytes 32 [1], BytesN.ofBytes 32 [2],
    BytesN.ofBytes 32 [3], BytesN.ofBytes 16 [], BytesN.ofBytes 16 []⟩

/-- Two chunks, each twice, fill the heap; a third one comes once. -/
theorem shortcut_sound_thirdChunk :
    processOneBatch topTwo (processOneBatch topTwo topTwoSession
        (frameChunks [[1], [1], [2], [2]]) 4 fun _ => RecipeEntry.ofBytes [])
        (frameChunks [[3]]) 1 (fun _ => RecipeEntry.ofBytes []) =
      processOneBatchLookup topTwo (processOneBatch topTwo topTwoSession
        (frameChunks [[1], [1], [2], [2]]) 4 fun _ => RecipeEntry.ofBytes [])
        (frameChunks [[3]]) 1 (fun _ => RecipeEntry.ofBytes []) :=
  (shortcut_sound ⟨by decide, by decide, by decide⟩ (.batch topTwoSession _ _ _ .start) _ _ _
    (by decide +kernel)).2.2.1

end EcallFreqIndex

end ShieldReduce
