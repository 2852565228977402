import ShieldReduce.System.Run
import ShieldReduce.Invariant.Deltas

/-!
# The queries of a batch

What `ProcessOneBatch` knows of the chunks of a batch when it starts to
store them. Each chunk is one of three: it repeats an earlier chunk of
the batch, the heap knows it, or it has a query entry; among the chunks
with a query entry no two are the same, and the entry says whether the
index knows the chunk and, if not, whether there is a base for it
(`Prepared`). `queryBatch_spec` puts this together.
-/

namespace ShieldReduce

open ByteLib UMapLib

variable {env : Env}

/-! ## Framing -/

theorem length_chunk_lt (c : Chunk) : c.1.length < 2 ^ 32 :=
  lt_of_le_of_lt c.2.2 (by decide)

theorem drop_append_length {α : Type} (pre rest : List α) : (pre ++ rest).drop pre.length = rest :=
  List.drop_left

/-- A frame is parsed as it was written, wherever it stands in the buffer. -/
theorem parseChunks_frame : ∀ (cs : List Chunk) (pre : Bytes),
    (parseChunks (pre ++ frameChunks (cs.map Subtype.val)) cs.length pre.length).map Prod.snd =
        cs.map Subtype.val ∧
      ∀ p ∈ parseChunks (pre ++ frameChunks (cs.map Subtype.val)) cs.length pre.length,
        slice (memOf ((pre ++ frameChunks (cs.map Subtype.val)).drop p.1)) 0 p.2.length = p.2
  | [], pre => ⟨rfl, fun p hp => by cases hp⟩
  | c :: cs, pre => by
      have hbuf : pre ++ frameChunks ((c :: cs).map Subtype.val) =
          (pre ++ le32 (UInt32.ofNat c.1.length) ++ c.1) ++ frameChunks (cs.map Subtype.val) := by
        simp [frameChunks]
      obtain ⟨ih1, ih2⟩ := parseChunks_frame cs (pre ++ le32 (UInt32.ofNat c.1.length) ++ c.1)
      rw [← hbuf] at ih1 ih2
      have hlen : (pre ++ le32 (UInt32.ofNat c.1.length) ++ c.1).length =
          pre.length + 4 + c.1.length := by simp [Nat.add_assoc]
      rw [hlen] at ih1 ih2
      have hsize : (ofLe32 ((pre ++ frameChunks ((c :: cs).map Subtype.val)).drop pre.length)).toNat =
          c.1.length := by
        rw [hbuf, List.append_assoc, List.append_assoc, drop_append_length, ofLe32_le32]
        exact Nat.mod_eq_of_lt (length_chunk_lt c)
      have hdrop : (pre ++ frameChunks ((c :: cs).map Subtype.val)).drop (pre.length + 4) =
          c.1 ++ frameChunks (cs.map Subtype.val) := by
        have hpre : pre.length + 4 = (pre ++ le32 (UInt32.ofNat c.1.length)).length := by simp
        rw [hbuf, List.append_assoc _ c.1, hpre, drop_append_length]
      have hchunk : slice (memOf (pre ++ frameChunks ((c :: cs).map Subtype.val))) (pre.length + 4)
          c.1.length = c.1 := by
        rw [slice_memOf, hdrop, List.take_left]
        rw [hbuf, List.length_append, hlen]
        omega
      rw [List.length_cons, parseChunks]
      simp only [hsize, hchunk]
      refine ⟨?_, ?_⟩
      · rw [List.map_cons, ih1, List.map_cons]
      · intro p hp
        rcases List.mem_cons.mp hp with rfl | hp
        · rw [hdrop, slice_memOf (by simp), List.drop_zero, List.take_left]
        · exact ih2 p hp

namespace EcallFreqIndex

theorem length_countChunks (env : Env) : ∀ (s : EcallCMSketch) (cs : List Bytes),
    (countChunks env s cs).2.length = cs.length
  | _, [] => rfl
  | s, c :: cs => by
      rw [countChunks, List.length_cons, List.length_cons, length_countChunks env]

theorem length_parseChunks (recvBuffer : Bytes) : ∀ (chunkNum currentOffset : Nat),
    (parseChunks recvBuffer chunkNum currentOffset).length = chunkNum
  | 0, _ => rfl
  | n + 1, off => by rw [parseChunks, List.length_cons, length_parseChunks recvBuffer n]

theorem length_foldl_checkEntry (heap : EntryHeap) (minFreq : UInt32) :
    ∀ (es : List InQueryEntry) (st : Checked),
      (es.foldl (checkEntry env heap minFreq) st).entries.length = st.entries.length + es.length
  | [], _ => rfl
  | e :: es, st => by
      have hone : (checkEntry env heap minFreq st e).entries.length = st.entries.length + 1 := by
        unfold checkEntry
        split <;> simp
      rw [List.foldl_cons, length_foldl_checkEntry heap minFreq es, hone, List.length_cons]
      omega

/-- A batch has an entry for each of its chunks. -/
theorem length_queryBatch (s : Server) (recvBuffer : Bytes) (chunkNum : Nat)
    (stale : Nat → RecipeEntry) :
    (queryBatch env s recvBuffer chunkNum stale).2.length = chunkNum := by
  unfold queryBatch
  simp only [List.length_map, length_foldl_checkEntry, List.length_mapIdx, List.length_zip,
    length_countChunks, length_parseChunks, List.length_nil, Nat.zero_add, Nat.min_self]

/-! ## The chunks against the batch and the heap -/

/-- The part of an entry that the loops after the first do not change, with
its query entry. -/
def ident (e : InQueryEntry) : Bytes × Nat × Fp × Option OutQueryEntry :=
  (e.chunk, e.currentOffset, e.chunkHash, e.out)

/-- Changing a count changes no identity. -/
theorem map_ident_modify (freq : UInt32) : ∀ (es : List InQueryEntry) (i : Nat),
    (es.modify i fun f => { f with chunkFreq := freq }).map ident = es.map ident
  | [], i => by cases i <;> rfl
  | e :: es, 0 => rfl
  | e :: es, i + 1 => by
      rw [List.modify_succ_cons, List.map_cons, List.map_cons, map_ident_modify freq es i]

/-- What is known of the chunks `xs` that were checked so far, by identity. -/
structure CheckedOk (env : Env) (heap : EntryHeap) (xs : List (Bytes × Nat × Fp)) (st : Checked) :
    Prop where
  ident : (st.entries.map ident).map (fun p => (p.1, p.2.1, p.2.2.1)) = xs
  localIndex : ∀ h, (st.localIndex.lookup h).isSome ↔ h ∈ xs.map fun p => p.2.2
  out : ∀ p ∈ st.entries.map EcallFreqIndex.ident, p.2.2.2 = none ∨
    p.2.2.2 = some (.fresh (env.indexAESCMCEnc p.2.2.1))
  covered : ∀ p ∈ st.entries.map EcallFreqIndex.ident, heap.contains p.2.2.1 = true ∨
    ∃ q ∈ st.entries.map EcallFreqIndex.ident, q.2.2.1 = p.2.2.1 ∧ q.2.2.2 ≠ none
  distinct : (((st.entries.map EcallFreqIndex.ident).filter fun p => p.2.2.2.isSome).map
    fun p => p.2.2.1).Nodup

theorem checkedOk_nil (env : Env) (heap : EntryHeap) : CheckedOk env heap [] ⟨[], ∅⟩ where
  ident := rfl
  localIndex := fun h => by simp [AList.lookup_empty]
  out := fun p hp => by cases hp
  covered := fun p hp => by cases hp
  distinct := List.nodup_nil

/-- An entry whose chunk the batch has not had yet. -/
theorem CheckedOk.add {heap : EntryHeap} {xs : List (Bytes × Nat × Fp)} {st : Checked}
    (h : CheckedOk env heap xs st) {e : InQueryEntry} (hnew : st.localIndex.lookup e.chunkHash = none)
    (hcase : (e.out = none ∧ heap.contains e.chunkHash = true) ∨
      e.out = some (.fresh (env.indexAESCMCEnc e.chunkHash))) :
    CheckedOk env heap (xs ++ [(e.chunk, e.currentOffset, e.chunkHash)])
      { entries := st.entries ++ [e]
        localIndex := st.localIndex.insert e.chunkHash st.entries.length } := by
  have hnotin : e.chunkHash ∉ xs.map fun p => p.2.2 := by
    intro hmem
    have := (h.localIndex e.chunkHash).mpr hmem
    rw [hnew] at this
    cases this
  constructor
  · simp only [List.map_append, List.map_cons, List.map_nil, h.ident]
    rfl
  · intro k
    rw [lookup_eq_if, List.map_append, List.mem_append, ← h.localIndex]
    by_cases hk : k = e.chunkHash
    · simp [hk]
    · simp [hk]
  · intro p hp
    rw [List.map_append, List.mem_append] at hp
    rcases hp with hp | hp
    · exact h.out p hp
    · obtain rfl : p = EcallFreqIndex.ident e := by simpa using hp
      exact hcase.imp (fun hc => hc.1) fun hc => hc
  · intro p hp
    rw [List.map_append, List.mem_append] at hp
    rcases hp with hp | hp
    · refine (h.covered p hp).imp_right ?_
      rintro ⟨q, hq, hhash, hout⟩
      exact ⟨q, by rw [List.map_append]; exact List.mem_append_left _ hq, hhash, hout⟩
    · obtain rfl : p = EcallFreqIndex.ident e := by simpa using hp
      rcases hcase with ⟨-, hheap⟩ | hout
      · exact Or.inl hheap
      · refine Or.inr ⟨EcallFreqIndex.ident e, by simp, rfl, ?_⟩
        show e.out ≠ none
        rw [hout]
        simp
  · rw [List.map_append, List.filter_append, List.map_append, List.nodup_append]
    refine ⟨h.distinct, ?_, ?_⟩
    · simp only [List.map_cons, List.map_nil]
      cases hout : (EcallFreqIndex.ident e).2.2.2.isSome <;> simp [List.filter, hout]
    · intro a ha b hb heq
      obtain ⟨p, hp, rfl⟩ := List.mem_map.mp ha
      obtain ⟨q, hq, rfl⟩ := List.mem_map.mp hb
      have hqe : q = EcallFreqIndex.ident e := by
        have := (List.mem_filter.mp hq).1
        simpa using this
      subst hqe
      refine hnotin ?_
      rw [← h.ident]
      simp only [List.mem_map]
      exact ⟨_, ⟨p, List.mem_map.mp (List.mem_filter.mp hp).1, rfl⟩, heq⟩

/-- An entry whose chunk is an earlier one of the batch. -/
theorem CheckedOk.repeated {heap : EntryHeap} {xs : List (Bytes × Nat × Fp)} {st : Checked}
    (h : CheckedOk env heap xs st) {e : InQueryEntry} {offset : Nat}
    (hold : st.localIndex.lookup e.chunkHash = some offset) (hout : e.out = none) (freq : UInt32)
    (flag : DedupFlag) :
    CheckedOk env heap (xs ++ [(e.chunk, e.currentOffset, e.chunkHash)])
      { st with entries := st.entries.modify offset (fun f => { f with chunkFreq := freq }) ++
          [{ e with dedupFlag := flag }] } := by
  have hmap : (st.entries.modify offset (fun f => { f with chunkFreq := freq }) ++
      [{ e with dedupFlag := flag }]).map EcallFreqIndex.ident =
        st.entries.map EcallFreqIndex.ident ++ [EcallFreqIndex.ident e] := by
    rw [List.map_append, map_ident_modify]
    rfl
  have hin : e.chunkHash ∈ xs.map fun p => p.2.2 := (h.localIndex _).mp (by rw [hold]; rfl)
  obtain ⟨p0, hp0, hp0hash⟩ : ∃ p ∈ st.entries.map EcallFreqIndex.ident, p.2.2.1 = e.chunkHash := by
    rw [← h.ident, List.map_map] at hin
    obtain ⟨p, hp, heq⟩ := List.mem_map.mp hin
    exact ⟨p, hp, heq⟩
  constructor
  · rw [hmap, List.map_append, h.ident]
    rfl
  · intro k
    rw [List.map_append, List.mem_append, ← h.localIndex]
    constructor
    · exact Or.inl
    · rintro (hk | hk)
      · exact hk
      · obtain rfl : k = e.chunkHash := by simpa using hk
        rw [hold]
        rfl
  · rw [hmap]
    intro p hp
    rcases List.mem_append.mp hp with hp | hp
    · exact h.out p hp
    · rw [List.mem_singleton.mp hp]
      exact Or.inl hout
  · rw [hmap]
    intro p hp
    have hearlier : ∀ p ∈ st.entries.map EcallFreqIndex.ident, heap.contains p.2.2.1 = true ∨
        ∃ q ∈ st.entries.map EcallFreqIndex.ident ++ [EcallFreqIndex.ident e],
          q.2.2.1 = p.2.2.1 ∧ q.2.2.2 ≠ none := by
      intro p hp
      refine (h.covered p hp).imp_right ?_
      rintro ⟨q, hq, hrest⟩
      exact ⟨q, List.mem_append_left _ hq, hrest⟩
    rcases List.mem_append.mp hp with hp | hp
    · exact hearlier p hp
    · rw [List.mem_singleton.mp hp]
      have := hearlier p0 hp0
      rw [hp0hash] at this
      exact this
  · rw [hmap, List.filter_append, List.map_append]
    have hnone : [EcallFreqIndex.ident e].filter (fun p => p.2.2.2.isSome) = [] := by
      simp [EcallFreqIndex.ident, hout]
    rw [hnone, List.map_nil, List.append_nil]
    exact h.distinct

theorem CheckedOk.check {heap : EntryHeap} {xs : List (Bytes × Nat × Fp)} {st : Checked}
    (h : CheckedOk env heap xs st) {e : InQueryEntry} (hout : e.out = none) (minFreq : UInt32) :
    CheckedOk env heap (xs ++ [(e.chunk, e.currentOffset, e.chunkHash)])
      (checkEntry env heap minFreq st e) := by
  unfold checkEntry
  split
  · rename_i offset hold
    exact h.repeated hold hout e.chunkFreq _
  · rename_i hnew
    split
    · exact h.add (e := askOutside env e) hnew (Or.inr rfl)
    · split
      · rename_i item hitem
        refine h.add (e := { e with dedupFlag := .duplicate, chunkAddr := item.address }) hnew
          (Or.inl ⟨hout, ?_⟩)
        show (heap.index.lookup e.chunkHash).isSome = true
        rw [show heap.index.lookup e.chunkHash = some item from hitem]
        rfl
      · exact h.add (e := askOutside env e) hnew (Or.inr rfl)

theorem CheckedOk.foldl {heap : EntryHeap} (minFreq : UInt32) : ∀ (es : List InQueryEntry)
    {xs : List (Bytes × Nat × Fp)} {st : Checked}, CheckedOk env heap xs st →
    (∀ e ∈ es, e.out = none) →
    CheckedOk env heap (xs ++ es.map fun e => (e.chunk, e.currentOffset, e.chunkHash))
      (es.foldl (checkEntry env heap minFreq) st)
  | [], xs, st, h, _ => by rwa [List.map_nil, List.append_nil]
  | e :: es, xs, st, h, hout => by
      have hnext := h.check (hout e (by simp)) minFreq
      have hrest := CheckedOk.foldl minFreq es hnext fun e' he' => hout e' (by simp [he'])
      rw [List.append_assoc] at hrest
      exact hrest

/-! ## The answers of the host -/

/-- The query entry of a chunk, once all queries were answered. -/
structure Prepared (env : Env) (db : InMemoryDatabase) (e : InQueryEntry) (o : OutQueryEntry) :
    Prop where
  hash : o.chunkHash = env.indexAESCMCEnc e.chunkHash
  flag : (o.dedupFlag = .duplicate ∧ (db.queryBuffer o.chunkHash).isSome) ∨
    (o.dedupFlag = .unique ∧ db.queryBuffer o.chunkHash = none)
  offline : o.dedupFlag = .unique → o.offlineFlag = false
  delta : o.dedupFlag = .unique → o.deltaFlag = .noDelta ∨
    (o.deltaFlag = .outDelta ∧ db.InSF o.basechunkHash ∧
      e.chunkAddr.basechunkHash = o.basechunkHash ∧
      ∀ v, db.queryBuffer o.basechunkHash = some v → e.basechunkAddr = env.decEntry v)

/-- All queries for one entry. -/
def answer (env : Env) (db : InMemoryDatabase) (recvBuffer : Bytes) (e : InQueryEntry) : InQueryEntry :=
  entryLoad env
    (mapOut (queryOutBasechunk db) (outEntrySFGet env recvBuffer (mapOut (queryOutIndex db) e)))

theorem answer_none {db : InMemoryDatabase} {recvBuffer : Bytes} {e : InQueryEntry}
    (hout : e.out = none) : (answer env db recvBuffer e).out = none := by
  simp [answer, entryLoad, mapOut, outEntrySFGet, hout]

theorem entryLoad_ident (env : Env) (e : InQueryEntry) : ident (entryLoad env e) = ident e := by
  unfold entryLoad
  split
  · split <;> rfl
  · rfl

theorem answer_ident (env : Env) (db : InMemoryDatabase) (recvBuffer : Bytes) (e : InQueryEntry) :
    ((answer env db recvBuffer e).chunk, (answer env db recvBuffer e).currentOffset,
      (answer env db recvBuffer e).chunkHash) = (e.chunk, e.currentOffset, e.chunkHash) := by
  have := entryLoad_ident env
    (mapOut (queryOutBasechunk db) (outEntrySFGet env recvBuffer (mapOut (queryOutIndex db) e)))
  rw [answer]
  exact congrArg (fun p => (p.1, p.2.1, p.2.2.1)) this

/-- All queries for a chunk that is new and has a base. -/
theorem answer_outDelta {db : InMemoryDatabase} (recvBuffer : Bytes) {e : InQueryEntry} {base : Fp}
    (hout : e.out = some (.fresh (env.indexAESCMCEnc e.chunkHash)))
    (hq : db.queryBuffer (env.indexAESCMCEnc e.chunkHash) = none)
    (hsf : db.querySF (env.getSF2 recvBuffer e.currentOffset e.chunk.length) = some base) :
    answer env db recvBuffer e = { e with
      chunkAddr := { e.chunkAddr with basechunkHash := base }
      basechunkAddr := env.decEntry ((db.queryBuffer base).getD zeroCipher)
      out := some ({ OutQueryEntry.fresh (env.indexAESCMCEnc e.chunkHash) with
        superfeature := env.getSF2 recvBuffer e.currentOffset e.chunk.length
        basechunkHash := base
        deltaFlag := .outDelta
        basechunkAddr := (db.queryBuffer base).getD zeroCipher }) } := by
  simp [answer, entryLoad, mapOut, outEntrySFGet, queryOutBasechunk, queryOutIndex, hout,
    OutQueryEntry.fresh, hq, hsf]

theorem prepared_answer (db : InMemoryDatabase) (recvBuffer : Bytes) {e : InQueryEntry}
    (hout : e.out = some (.fresh (env.indexAESCMCEnc e.chunkHash))) :
    ∃ o, (answer env db recvBuffer e).out = some o ∧ Prepared env db (answer env db recvBuffer e) o := by
  cases hq : db.queryBuffer (env.indexAESCMCEnc e.chunkHash) with
  | some v =>
      have hans : answer env db recvBuffer e = { e with out := some ({
          OutQueryEntry.fresh (env.indexAESCMCEnc e.chunkHash) with
            dedupFlag := .duplicate, chunkAddr := v }) } := by
        simp [answer, entryLoad, mapOut, outEntrySFGet, queryOutBasechunk, queryOutIndex, hout,
          OutQueryEntry.fresh, hq]
      rw [hans]
      refine ⟨_, rfl, rfl, Or.inl ⟨rfl, ?_⟩, fun hf => (by cases hf), fun hf => (by cases hf)⟩
      show (db.queryBuffer (env.indexAESCMCEnc e.chunkHash)).isSome = true
      rw [hq]
      rfl
  | none =>
      cases hsf : db.querySF (env.getSF2 recvBuffer e.currentOffset e.chunk.length) with
      | none =>
          have hans : answer env db recvBuffer e = { e with out := some ({
              OutQueryEntry.fresh (env.indexAESCMCEnc e.chunkHash) with
                superfeature := env.getSF2 recvBuffer e.currentOffset e.chunk.length }) } := by
            simp [answer, entryLoad, mapOut, outEntrySFGet, queryOutBasechunk, queryOutIndex, hout,
              OutQueryEntry.fresh, hq, hsf]
          rw [hans]
          exact ⟨_, rfl, rfl, Or.inr ⟨rfl, hq⟩, fun _ => rfl, fun _ => Or.inl rfl⟩
      | some base =>
          rw [answer_outDelta recvBuffer hout hq hsf]
          refine ⟨_, rfl, rfl, Or.inr ⟨rfl, hq⟩, fun _ => rfl, fun _ => Or.inr ⟨rfl, ?_, rfl, ?_⟩⟩
          · exact InSF_of_querySF hsf
          · intro v hv
            have hv' : db.queryBuffer base = some v := hv
            show env.decEntry ((db.queryBuffer base).getD zeroCipher) = env.decEntry v
            rw [hv']
            rfl

/-- The query entries of a batch, by what they ask for. -/
theorem hashes_answer (db : InMemoryDatabase) (recvBuffer : Bytes) : ∀ (es : List InQueryEntry),
    (∀ p ∈ es.map ident, p.2.2.2 = none ∨ p.2.2.2 = some (.fresh (env.indexAESCMCEnc p.2.2.1))) →
    (((es.map (answer env db recvBuffer)).filterMap InQueryEntry.out).map OutQueryEntry.chunkHash) =
      (((es.map ident).filter fun p => p.2.2.2.isSome).map fun p => p.2.2.1).map env.indexAESCMCEnc
  | [], _ => rfl
  | e :: es, h => by
      have ih := hashes_answer db recvBuffer es fun p hp => h p (by simp [hp])
      rcases h (ident e) (by simp) with hout | hout
      · have hans : (answer env db recvBuffer e).out = none := answer_none hout
        have hid : (ident e).2.2.2.isSome = false := by rw [hout]; rfl
        simp only [List.map_cons, List.filterMap_cons, hans, List.filter_cons, hid] at ih ⊢
        exact ih
      · obtain ⟨o, ho, hprep⟩ := prepared_answer db recvBuffer hout
        have hid : (ident e).2.2.2.isSome = true := by rw [hout]; rfl
        have hhash : o.chunkHash = env.indexAESCMCEnc (ident e).2.2.1 := by
          rw [hprep.hash]
          exact congrArg (fun p => env.indexAESCMCEnc p.2.2) (answer_ident env db recvBuffer e)
        simp only [List.map_cons, List.filterMap_cons, ho, List.filter_cons, hid] at ih ⊢
        rw [ih, hhash]
        rfl

/-- What is known of the entries of a batch when the store loop begins. -/
structure BatchOk (env : Env) (db : InMemoryDatabase) (heap : EntryHeap) (cs : List Chunk)
    (recvBuffer : Bytes) (es : List InQueryEntry) : Prop where
  chunks : es.map InQueryEntry.chunk = cs.map Subtype.val
  hash : ∀ e ∈ es, e.chunkHash = env.generateHash e.chunk
  text : ∀ e ∈ es,
    slice (memOf (recvBuffer.drop e.currentOffset)) 0 e.chunk.length = e.chunk
  prepared : ∀ e ∈ es, ∀ o, e.out = some o → Prepared env db e o
  covered : ∀ e ∈ es, heap.contains e.chunkHash = true ∨
    ∃ e' ∈ es, e'.chunkHash = e.chunkHash ∧ e'.out ≠ none
  distinct : ((es.filterMap InQueryEntry.out).map OutQueryEntry.chunkHash).Nodup

theorem BatchOk.chunk {db : InMemoryDatabase} {heap : EntryHeap} {cs : List Chunk}
    {recvBuffer : Bytes} {es : List InQueryEntry} (h : BatchOk env db heap cs recvBuffer es)
    {e : InQueryEntry} (he : e ∈ es) : ∃ c ∈ cs, c.1 = e.chunk := by
  have : e.chunk ∈ cs.map Subtype.val := by
    rw [← h.chunks]
    exact List.mem_map.mpr ⟨e, he, rfl⟩
  obtain ⟨c, hc, heq⟩ := List.mem_map.mp this
  exact ⟨c, hc, heq⟩

theorem BatchOk.hashes {db : InMemoryDatabase} {heap : EntryHeap} {cs : List Chunk}
    {recvBuffer : Bytes} {es : List InQueryEntry} (h : BatchOk env db heap cs recvBuffer es) :
    es.map InQueryEntry.chunkHash = cs.map fun c => env.generateHash c.1 :=
  calc es.map InQueryEntry.chunkHash = es.map (env.generateHash ∘ InQueryEntry.chunk) :=
        List.map_congr_left h.hash
    _ = (cs.map Subtype.val).map env.generateHash := by rw [← List.map_map, h.chunks]
    _ = cs.map fun c => env.generateHash c.1 := List.map_map

/-- The entries before the heap is asked. -/
theorem ident_readEntries (env : Env) (cs : List (Nat × Bytes)) (freqs : List UInt32)
    (hlen : freqs.length = cs.length) (stale : Nat → RecipeEntry) :
    ((cs.zip freqs).mapIdx fun i c => readEntry env (stale i) c.2 c.1).map
        (fun e => (e.chunk, e.currentOffset, e.chunkHash)) =
      cs.map fun c => (c.2, c.1, env.generateHash c.2) := by
  apply List.ext_getElem
  · simp [hlen]
  · intro i h1 h2
    simp [readEntry]

/-- `ProcessOneBatch` up to its store loop. -/
theorem queryBatch_spec (henv : env.Lawful) (s : Server) (cs : List Chunk)
    (stale : Nat → RecipeEntry) :
    ∃ sketch es, queryBatch env s (frameChunks (cs.map Subtype.val)) cs.length stale =
        ({ s with cmSketch := sketch }, es) ∧
      BatchOk env s.db s.insideDedupIndex cs (frameChunks (cs.map Subtype.val)) es := by
  obtain ⟨hsnd, htext⟩ := parseChunks_frame cs []
  rw [List.nil_append, List.length_nil] at hsnd htext
  -- the entries that were checked against the batch and the heap
  have hread := ident_readEntries env
    (parseChunks (frameChunks (cs.map Subtype.val)) cs.length 0)
    (countChunks env s.cmSketch ((parseChunks (frameChunks (cs.map Subtype.val)) cs.length 0).map
      Prod.snd)).2 ((length_countChunks env s.cmSketch _).trans (List.length_map _)) stale
  have hchecked := (checkedOk_nil env s.insideDedupIndex).foldl
    (if s.insideDedupIndex.size = env.topThreshold then s.insideDedupIndex.topEntry else 0)
    (((parseChunks (frameChunks (cs.map Subtype.val)) cs.length 0).zip
      (countChunks env s.cmSketch ((parseChunks (frameChunks (cs.map Subtype.val)) cs.length 0).map
        Prod.snd)).2).mapIdx fun i c => readEntry env (stale i) c.2 c.1) (by
      intro e he
      obtain ⟨i, hi, rfl⟩ := List.mem_mapIdx.mp he
      rfl)
  rw [hread, List.nil_append] at hchecked
  refine ⟨_, _, rfl, ?_⟩
  rw [List.map_map]
  generalize (List.foldl _ _ _ : Checked) = st at hchecked
  show BatchOk env s.db s.insideDedupIndex cs (frameChunks (cs.map Subtype.val))
    (st.entries.map (answer env s.db (frameChunks (cs.map Subtype.val))))
  have hids : ∀ e ∈ st.entries, ∃ p ∈ parseChunks (frameChunks (cs.map Subtype.val)) cs.length 0,
      (e.chunk, e.currentOffset, e.chunkHash) = (p.2, p.1, env.generateHash p.2) := by
    intro e he
    have hmem : (e.chunk, e.currentOffset, e.chunkHash) ∈
        (parseChunks (frameChunks (cs.map Subtype.val)) cs.length 0).map
          fun c => (c.2, c.1, env.generateHash c.2) := by
      rw [← hchecked.ident, List.map_map]
      exact List.mem_map.mpr ⟨e, he, rfl⟩
    obtain ⟨p, hp, heq⟩ := List.mem_map.mp hmem
    exact ⟨p, hp, heq.symm⟩
  have hmem : ∀ e ∈ st.entries.map (answer env s.db (frameChunks (cs.map Subtype.val))),
      ∃ e0 ∈ st.entries, answer env s.db (frameChunks (cs.map Subtype.val)) e0 = e :=
    fun e he => List.mem_map.mp he
  constructor
  · have hchunks := congrArg (List.map fun p => p.1) hchecked.ident
    simp only [List.map_map] at hchunks
    rw [← hsnd, List.map_map]
    refine Eq.trans (List.map_congr_left fun e _ => ?_) hchunks
    exact congrArg Prod.fst (answer_ident env s.db _ e)
  · intro e he
    obtain ⟨e0, he0, rfl⟩ := hmem e he
    obtain ⟨p, -, hp⟩ := hids e0 he0
    have hans := (answer_ident env s.db (frameChunks (cs.map Subtype.val)) e0).trans hp
    rw [Prod.mk.injEq, Prod.mk.injEq] at hans
    rw [hans.1, hans.2.2]
  · intro e he
    obtain ⟨e0, he0, rfl⟩ := hmem e he
    obtain ⟨p, hpmem, hp⟩ := hids e0 he0
    have hans := (answer_ident env s.db (frameChunks (cs.map Subtype.val)) e0).trans hp
    rw [Prod.mk.injEq, Prod.mk.injEq] at hans
    rw [hans.1, hans.2.1]
    exact htext p hpmem
  · intro e he o ho
    obtain ⟨e0, he0, rfl⟩ := hmem e he
    rcases hchecked.out (ident e0) (List.mem_map.mpr ⟨e0, he0, rfl⟩) with hout | hout
    · rw [answer_none hout] at ho
      cases ho
    · obtain ⟨o', ho', hprep⟩ := prepared_answer s.db
        (frameChunks (cs.map Subtype.val)) hout
      rw [ho] at ho'
      obtain rfl := Option.some.inj ho'
      exact hprep
  · intro e he
    obtain ⟨e0, he0, rfl⟩ := hmem e he
    have hhash : ∀ e0, (answer env s.db (frameChunks (cs.map Subtype.val)) e0).chunkHash =
        e0.chunkHash := fun e0 => congrArg (fun p => p.2.2) (answer_ident env s.db _ e0)
    rw [hhash]
    refine (hchecked.covered (ident e0) (List.mem_map.mpr ⟨e0, he0, rfl⟩)).imp_right ?_
    rintro ⟨q, hq, hqhash, hqout⟩
    obtain ⟨e1, he1, rfl⟩ := List.mem_map.mp hq
    refine ⟨_, List.mem_map.mpr ⟨e1, he1, rfl⟩, (hhash e1).trans hqhash, ?_⟩
    rcases hchecked.out (ident e1) hq with hout | hout
    · exact absurd hout hqout
    · obtain ⟨o, ho, -⟩ := prepared_answer s.db
        (frameChunks (cs.map Subtype.val)) hout
      show (answer env s.db (frameChunks (cs.map Subtype.val)) e1).out ≠ none
      rw [ho]
      simp
  · rw [hashes_answer s.db (frameChunks (cs.map Subtype.val)) st.entries hchecked.out]
    exact hchecked.distinct.map henv.cmc_injective

end EcallFreqIndex

end ShieldReduce
