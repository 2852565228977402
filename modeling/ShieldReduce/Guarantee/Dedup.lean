import ShieldReduce.System.Calls
import ShieldReduce.Guarantee.RecipeFile

/-!
# Deduplication

A batch is deduplicated against itself, against the heap of frequent
chunks and against the index outside the enclave. Together they do what
one set of all fingerprints so far would do (`novel`): a chunk is stored
exactly if its fingerprint is new, whatever the heap has evicted and
however the sketch counts. The index knows the fingerprints of the
history and no others, and the address of every chunk is under its own.

None of this depends on where the chunks are placed.
-/

namespace ShieldReduce

open ByteLib UMapLib LoopLib

variable {env : Env}

/-! ## The naive set -/

/-- For each fingerprint, whether it is new. -/
def novel (seen : List Fp) : List Fp → List Bool
  | [] => []
  | f :: fs => decide (f ∉ seen) :: novel (seen ++ [f]) fs

theorem novel_append : ∀ (seen fs gs : List Fp),
    novel seen (fs ++ gs) = novel seen fs ++ novel (seen ++ fs) gs
  | seen, [], gs => by rw [List.append_nil]; rfl
  | seen, f :: fs, gs => by
      rw [List.cons_append, novel, novel_append (seen ++ [f]) fs gs, novel, List.cons_append,
        List.append_assoc, List.singleton_append]

theorem novel_getElem? : ∀ (seen fs : List Fp) (i : Nat),
    (novel seen fs)[i]? = (fs[i]?).map fun f => decide (f ∉ seen ++ fs.take i)
  | _, [], _ => rfl
  | seen, f :: fs, 0 => by simp [novel]
  | seen, f :: fs, i + 1 => by
      rw [novel, List.getElem?_cons_succ, novel_getElem? (seen ++ [f]) fs i,
        List.getElem?_cons_succ, List.take_succ_cons]
      simp only [List.append_assoc, List.singleton_append]

/-- The calls for chunks with the hashes `hashes` when the store has seen
`seen`: one for each chunk that is new, under its own fingerprint. -/
structure Deduped (env : Env) (seen : List Fp) (calls : List (Option SheCall)) (hashes : List Fp) :
    Prop where
  flags : calls.map Option.isSome = novel seen hashes
  own : List.Forall₂ (fun (call : Option SheCall) h =>
    ∀ c, call = some c → c.fp = env.indexAESCMCEnc h) calls hashes

theorem Deduped.append {seen hs hs' : List Fp} {calls calls' : List (Option SheCall)}
    (h : Deduped env seen calls hs) (h' : Deduped env (seen ++ hs) calls' hs') :
    Deduped env seen (calls ++ calls') (hs ++ hs') where
  flags := by rw [List.map_append, h.flags, h'.flags, novel_append]
  own := List.rel_append h.own h'.own

theorem Deduped.tail {seen hs : List Fp} {h₀ : Fp} {call : Option SheCall}
    {calls : List (Option SheCall)} (h : Deduped env seen (call :: calls) (h₀ :: hs)) :
    (call.isSome ↔ h₀ ∉ seen) ∧ (∀ c, call = some c → c.fp = env.indexAESCMCEnc h₀) ∧
      Deduped env (seen ++ [h₀]) calls hs := by
  have hflags := h.flags
  rw [List.map_cons, novel, List.cons.injEq] at hflags
  obtain ⟨hown, hrest⟩ := List.forall₂_cons.mp h.own
  refine ⟨?_, hown, hflags.2, hrest⟩
  rw [hflags.1, decide_eq_true_iff]

/-- The calls are for fingerprints that were not seen. -/
theorem Deduped.unseen : ∀ {hashes seen : List Fp} {calls : List (Option SheCall)},
    Deduped env seen calls hashes → ∀ c, some c ∈ calls →
    ∃ h, h ∈ hashes ∧ h ∉ seen ∧ c.fp = env.indexAESCMCEnc h
  | [], seen, calls, h, c, hc => by
      rw [List.forall₂_nil_right_iff.mp h.own] at hc
      cases hc
  | h₀ :: hs, seen, calls, h, c, hc => by
      obtain ⟨call, calls, -, -, rfl⟩ := List.forall₂_cons_right_iff.mp h.own
      obtain ⟨hcall, hown, hrest⟩ := h.tail
      rcases List.mem_cons.mp hc with rfl | hc
      · exact ⟨h₀, List.mem_cons_self .., hcall.mp rfl, hown c rfl⟩
      · obtain ⟨k, hk, hseen, hfp⟩ := hrest.unseen c hc
        exact ⟨k, List.mem_cons_of_mem _ hk, fun hmem => hseen (List.mem_append_left _ hmem), hfp⟩

/-- A fingerprint that was not seen has its call. -/
theorem Deduped.covers : ∀ {hashes seen : List Fp} {calls : List (Option SheCall)},
    Deduped env seen calls hashes → ∀ h ∈ hashes,
    h ∈ seen ∨ ∃ c, some c ∈ calls ∧ c.fp = env.indexAESCMCEnc h
  | [], _, _, _, h, hh => by cases hh
  | h₀ :: hs, seen, calls, hd, h, hh => by
      obtain ⟨call, calls, -, -, rfl⟩ := List.forall₂_cons_right_iff.mp hd.own
      obtain ⟨hcall, hown, hrest⟩ := hd.tail
      have hfirst : h₀ ∈ seen ∨ ∃ c, some c ∈ call :: calls ∧ c.fp = env.indexAESCMCEnc h₀ := by
        by_cases hseen : h₀ ∈ seen
        · exact Or.inl hseen
        · obtain ⟨c, rfl⟩ := Option.isSome_iff_exists.mp (hcall.mpr hseen)
          exact Or.inr ⟨c, List.mem_cons_self .., hown c rfl⟩
      rcases List.mem_cons.mp hh with rfl | hh
      · exact hfirst
      · rcases hrest.covers h hh with hseen | ⟨c, hc, hfp⟩
        · rcases List.mem_append.mp hseen with hseen | hseen
          · exact Or.inl hseen
          · rw [List.mem_singleton.mp hseen]
            exact hfirst
        · exact Or.inr ⟨c, List.mem_cons_of_mem _ hc, hfp⟩

/-! ## What the calls do to the index -/

/-- The address of each stored chunk under the fingerprint of its call. -/
def insertCalls (env : Env) (calls : List (Option SheCall)) (idx : Fp → Option Cipher) :
    Fp → Option Cipher :=
  calls.foldl (fun idx call => call.elim idx fun c =>
    Function.update idx c.fp (some (env.encEntry (c.result env).1))) idx

theorem insertCalls_append (calls calls' : List (Option SheCall)) (idx : Fp → Option Cipher) :
    insertCalls env (calls ++ calls') idx = insertCalls env calls' (insertCalls env calls idx) :=
  List.foldl_append ..

theorem insertCalls_of_forall_ne : ∀ {calls : List (Option SheCall)} {idx : Fp → Option Cipher}
    {f : Fp}, (∀ c, some c ∈ calls → c.fp ≠ f) → insertCalls env calls idx f = idx f
  | [], _, _, _ => rfl
  | none :: calls, idx, f, h =>
      @insertCalls_of_forall_ne calls idx f fun c hc => h c (List.mem_cons_of_mem _ hc)
  | some c :: calls, idx, f, h => by
      rw [← List.singleton_append, insertCalls_append,
        insertCalls_of_forall_ne fun c hc => h c (List.mem_cons_of_mem _ hc)]
      exact Function.update_of_ne (h c (List.mem_cons_self ..)).symm _ _

theorem insertCalls_isSome : ∀ {calls : List (Option SheCall)} {idx : Fp → Option Cipher} {f : Fp},
    (insertCalls env calls idx f).isSome ↔ (idx f).isSome ∨ ∃ c, some c ∈ calls ∧ c.fp = f
  | [], idx, f => by simp [insertCalls]
  | none :: calls, idx, f => by
      refine (@insertCalls_isSome calls idx f).trans ?_
      simp
  | some c :: calls, idx, f => by
      refine (@insertCalls_isSome calls _ f).trans ?_
      by_cases hf : f = c.fp
      · subst hf
        simp [Function.update_self]
      · simp [Function.update_of_ne hf, Ne.symm hf]

/-- What a call inserts stays. -/
theorem Deduped.inserted (henv : env.Lawful) : ∀ {hashes seen : List Fp}
    {calls : List (Option SheCall)}, Deduped env seen calls hashes → ∀ (idx : Fp → Option Cipher)
    (c : SheCall), some c ∈ calls →
    insertCalls env calls idx c.fp = some (env.encEntry (c.result env).1)
  | [], seen, calls, h, _, c, hc => by
      rw [List.forall₂_nil_right_iff.mp h.own] at hc
      cases hc
  | h₀ :: hs, seen, calls, h, idx, c, hc => by
      obtain ⟨call, calls, -, -, rfl⟩ := List.forall₂_cons_right_iff.mp h.own
      obtain ⟨hcall, hown, hrest⟩ := h.tail
      rw [← List.singleton_append, insertCalls_append]
      rcases List.mem_cons.mp hc with rfl | hc
      · rw [insertCalls_of_forall_ne]
        · exact Function.update_self ..
        · intro c' hc' heq
          obtain ⟨k, -, hk, hfp⟩ := hrest.unseen c' hc'
          rw [heq, hown c rfl] at hfp
          rw [← henv.cmc_injective hfp] at hk
          exact hk (List.mem_append_right _ (List.mem_singleton_self _))
      · exact hrest.inserted henv _ c hc

/-! ## A batch against itself and the heap -/

/-- The hashes of a batch, and which of them are asked for outside: none that
is an earlier one, and all others that the heap does not know. -/
def Firsts (heap : EntryHeap) (seen : List Fp) : List (Fp × Bool) → Prop
  | [] => True
  | (h, asked) :: ps =>
      (asked = true → h ∉ seen) ∧ (h ∉ seen → asked = true ∨ heap.contains h = true) ∧
        Firsts heap (seen ++ [h]) ps

theorem firsts_snoc {heap : EntryHeap} {h : Fp} {asked : Bool} :
    ∀ {seen : List Fp} {ps : List (Fp × Bool)}, Firsts heap seen ps →
      (asked = true → h ∉ seen ++ ps.map Prod.fst) →
      (h ∉ seen ++ ps.map Prod.fst → asked = true ∨ heap.contains h = true) →
      Firsts heap seen (ps ++ [(h, asked)])
  | seen, [], _, hnew, hcover => by
      rw [List.map_nil, List.append_nil] at hnew hcover
      exact ⟨hnew, hcover, trivial⟩
  | seen, (k, b) :: ps, ⟨hk, hb, hrest⟩, hnew, hcover => by
      refine ⟨hk, hb, firsts_snoc hrest ?_ ?_⟩
      · simpa using hnew
      · simpa using hcover

namespace EcallFreqIndex

/-- The hash of an entry, and whether it is asked for outside. -/
def asks (e : InQueryEntry) : Fp × Bool := (e.chunkHash, e.out.isSome)

theorem map_asks_modify (freq : UInt32) (es : List InQueryEntry) (i : Nat) :
    (es.modify i fun f => { f with chunkFreq := freq }).map asks = es.map asks := by
  have hident := congrArg (List.map fun p => (p.2.2.1, p.2.2.2.isSome)) (map_ident_modify freq es i)
  rw [List.map_map, List.map_map] at hident
  exact hident

theorem fst_map_asks (es : List InQueryEntry) :
    (es.map asks).map Prod.fst = es.map InQueryEntry.chunkHash := by
  rw [List.map_map]
  rfl

theorem firsts_checkEntry {heap : EntryHeap} {xs : List (Bytes × Nat × Fp)} {st : Checked}
    (hok : CheckedOk env heap xs st) (h : Firsts heap [] (st.entries.map asks)) {e : InQueryEntry}
    (hout : e.out = none) (minFreq : UInt32) :
    Firsts heap [] ((checkEntry env heap minFreq st e).entries.map asks) := by
  have hlocal : (st.localIndex.lookup e.chunkHash).isSome ↔
      e.chunkHash ∈ st.entries.map InQueryEntry.chunkHash := by
    rw [hok.localIndex, ← hok.ident, List.map_map, List.map_map]
    rfl
  -- an entry is appended, and it says whether it is asked for
  have hadd : ∀ e' : InQueryEntry, e'.chunkHash = e.chunkHash →
      e.chunkHash ∉ st.entries.map InQueryEntry.chunkHash →
      (e'.out.isSome = true ∨ heap.contains e.chunkHash = true) →
      Firsts heap [] ((st.entries ++ [e']).map asks) := by
    intro e' hhash hnew hcover
    rw [List.map_append]
    refine firsts_snoc h ?_ ?_
    · rw [List.nil_append, fst_map_asks, hhash]
      exact fun _ => hnew
    · rw [hhash]
      exact fun _ => hcover
  unfold checkEntry
  split
  · rename_i offset hold
    dsimp only
    rw [List.map_append, map_asks_modify]
    have hmem : e.chunkHash ∈ st.entries.map InQueryEntry.chunkHash := by
      rw [← hlocal, hold]
      rfl
    refine firsts_snoc h ?_ ?_
    · intro hasked
      rw [hout] at hasked
      cases hasked
    · rw [List.nil_append, fst_map_asks]
      exact fun hnew => absurd hmem hnew
  · rename_i hnone
    have hnew : e.chunkHash ∉ st.entries.map InQueryEntry.chunkHash := by
      rw [← hlocal, hnone]
      simp
    split
    · exact hadd (askOutside env e) rfl hnew (Or.inl rfl)
    · split
      · rename_i item hitem
        refine hadd { e with dedupFlag := .duplicate, chunkAddr := item.address } rfl hnew
          (Or.inr ?_)
        show (heap.index.lookup e.chunkHash).isSome = true
        rw [show heap.index.lookup e.chunkHash = some item from hitem]
        rfl
      · exact hadd (askOutside env e) rfl hnew (Or.inl rfl)

theorem firsts_foldl {heap : EntryHeap} (minFreq : UInt32) : ∀ (es : List InQueryEntry)
    {xs : List (Bytes × Nat × Fp)} {st : Checked}, CheckedOk env heap xs st →
    Firsts heap [] (st.entries.map asks) → (∀ e ∈ es, e.out = none) →
    Firsts heap [] ((es.foldl (checkEntry env heap minFreq) st).entries.map asks)
  | [], _, _, _, h, _ => h
  | e :: es, _, _, hok, h, hout =>
      firsts_foldl minFreq es (hok.check (hout e (List.mem_cons_self ..)) minFreq)
        (firsts_checkEntry hok h (hout e (List.mem_cons_self ..)) minFreq)
        fun e' he' => hout e' (List.mem_cons_of_mem _ he')

theorem isSome_out_answer (db : InMemoryDatabase) (recvBuffer : Bytes) (e : InQueryEntry) :
    (answer env db recvBuffer e).out.isSome = e.out.isSome := by
  have hload := congrArg (fun p => p.2.2.2) (entryLoad_ident env
    (mapOut (queryOutBasechunk db) (outEntrySFGet env recvBuffer (mapOut (queryOutIndex db) e))))
  rw [answer]
  refine (congrArg Option.isSome hload).trans ?_
  simp [ident, mapOut, outEntrySFGet]

theorem asks_answer (db : InMemoryDatabase) (recvBuffer : Bytes) (e : InQueryEntry) :
    asks (answer env db recvBuffer e) = asks e := by
  refine Prod.ext ?_ (isSome_out_answer db recvBuffer e)
  exact congrArg (fun p => p.2.2) (answer_ident env db recvBuffer e)

/-- Which chunks of a batch are asked for outside. -/
theorem queryBatch_firsts (env : Env) (s : Server) (recvBuffer : Bytes) (chunkNum : Nat)
    (stale : Nat → RecipeEntry) :
    Firsts s.insideDedupIndex [] ((queryBatch env s recvBuffer chunkNum stale).2.map asks) := by
  unfold queryBatch
  dsimp only
  rw [List.map_map, List.map_map]
  have hasks : (asks ∘ entryLoad env) ∘ (fun e => mapOut (queryOutBasechunk s.db)
      (outEntrySFGet env recvBuffer (mapOut (queryOutIndex s.db) e))) = asks := by
    funext e
    exact asks_answer s.db recvBuffer e
  rw [hasks]
  refine firsts_foldl _ _ (checkedOk_nil env s.insideDedupIndex) trivial fun e he => ?_
  obtain ⟨i, hi, rfl⟩ := List.mem_mapIdx.mp he
  rfl

/-! ## The store loop -/

/-- The store loop hands the chunk of this entry to the writer. -/
def stores (e : InQueryEntry) : Bool :=
  match e.out with
  | some o => decide (o.dedupFlag ≠ .duplicate)
  | none => false

theorem isSome_storeCall (recvBuffer : Bytes) (localFlag : Bool) (st : Storing) (e : InQueryEntry) :
    (storeCall env recvBuffer localFlag st e).isSome = stores e := by
  unfold storeCall stores
  cases e.out with
  | none => rfl
  | some o =>
      by_cases hdup : o.dedupFlag = .duplicate
      · simp [hdup]
      · simp [hdup]

theorem map_isSome_storeCalls (recvBuffer : Bytes) (localFlag : Bool) :
    ∀ (es : List InQueryEntry) (st : Storing),
      (outputs (storeEntry env recvBuffer localFlag) (storeCall env recvBuffer localFlag) st
        es).map Option.isSome = es.map stores
  | [], _ => rfl
  | e :: es, st => by
      rw [outputs, List.map_cons, isSome_storeCall, map_isSome_storeCalls recvBuffer localFlag es,
        List.map_cons]

/-- The entry of a chunk after its round, and the call of the round. -/
structure Recorded (env : Env) (call : Option SheCall) (e : InQueryEntry) : Prop where
  made : ∀ c, call = some c → ∃ o, e.out = some o ∧ o.dedupFlag = .unique ∧
    o.chunkHash = c.fp ∧ o.chunkAddr = env.encEntry (c.result env).1
  unmade : call = none → ∀ o, e.out = some o → o.dedupFlag ≠ .unique

/-- One round of the store loop, by its call. -/
theorem storeEntry_recorded {P : Chunk → Prop} {db : InMemoryDatabase} {recvBuffer : Bytes}
    (localFlag : Bool) (st : Storing) {e : InQueryEntry} (he : EntryOk env P db recvBuffer e) :
    (∃ e', (storeEntry env recvBuffer localFlag st e).entries = st.entries ++ [e'] ∧
      Recorded env (storeCall env recvBuffer localFlag st e) e') ∧
    ∀ c, storeCall env recvBuffer localFlag st e = some c →
      c.fp = env.indexAESCMCEnc e.chunkHash := by
  unfold storeEntry storeCall
  dsimp only
  cases ho : e.out with
  | none =>
      refine ⟨⟨e, rfl, fun c hc => (by cases hc), fun _ o ho' => ?_⟩, fun c hc => (by cases hc)⟩
      rw [ho] at ho'
      cases ho'
  | some o =>
      dsimp only
      by_cases hdup : o.dedupFlag = .duplicate
      · rw [if_pos hdup, if_pos hdup]
        refine ⟨⟨_, rfl, fun c hc => (by cases hc), fun _ o' ho' => ?_⟩, fun c hc => (by cases hc)⟩
        obtain rfl := Option.some.inj ho'
        rw [hdup]
        simp
      · rw [if_neg hdup, if_neg hdup]
        have hprep := he.prepared o ho
        have hunique : o.dedupFlag = .unique := (hprep.flag.resolve_left fun h => hdup h.1).1
        obtain ⟨-, o', hflag, hhash, hfp, hentries⟩ :=
          storeUnique_call env recvBuffer localFlag st e o
        refine ⟨⟨_, hentries, fun c hc => ?_, fun hc => (by cases hc)⟩, fun c hc => ?_⟩
        · obtain rfl := Option.some.inj hc
          exact ⟨_, rfl, hflag.trans hunique, hhash.trans hfp.symm, rfl⟩
        · obtain rfl := Option.some.inj hc
          exact hfp.trans hprep.hash

theorem storeCalls_recorded {P : Chunk → Prop} {db : InMemoryDatabase} {recvBuffer : Bytes}
    (localFlag : Bool) : ∀ (es : List InQueryEntry) (st : Storing),
    (∀ e ∈ es, EntryOk env P db recvBuffer e) →
    (∃ es', (es.foldl (storeEntry env recvBuffer localFlag) st).entries = st.entries ++ es' ∧
      List.Forall₂ (Recorded env) (outputs (storeEntry env recvBuffer localFlag)
        (storeCall env recvBuffer localFlag) st es) es') ∧
    List.Forall₂ (fun (call : Option SheCall) h => ∀ c, call = some c → c.fp = env.indexAESCMCEnc h)
      (outputs (storeEntry env recvBuffer localFlag) (storeCall env recvBuffer localFlag) st es)
      (es.map InQueryEntry.chunkHash)
  | [], st, _ => ⟨⟨[], (List.append_nil _).symm, .nil⟩, .nil⟩
  | e :: es, st, h => by
      obtain ⟨⟨e', hentries, hrec⟩, hown⟩ :=
        storeEntry_recorded localFlag st (h e (List.mem_cons_self ..))
      obtain ⟨⟨es', hentries', hrecs⟩, howns⟩ := storeCalls_recorded localFlag es
        (storeEntry env recvBuffer localFlag st e) fun e' he' => h e' (List.mem_cons_of_mem _ he')
      refine ⟨⟨e' :: es', ?_, .cons hrec hrecs⟩, .cons hown howns⟩
      rw [List.foldl_cons, hentries', hentries, List.append_assoc, List.singleton_append]

/-- The store loop leaves the index and the heap as they are. -/
theorem carried_foldl_storeEntry {P : Chunk → Prop} {db : InMemoryDatabase} {recvBuffer : Bytes}
    (localFlag : Bool) : ∀ (es : List InQueryEntry) (st : Storing),
    (∀ e ∈ es, EntryOk env P db recvBuffer e) →
    (es.foldl (storeEntry env recvBuffer localFlag) st).session.server.db = st.session.server.db ∧
      (es.foldl (storeEntry env recvBuffer localFlag) st).session.server.insideDedupIndex =
        st.session.server.insideDedupIndex
  | [], _, _ => ⟨rfl, rfl⟩
  | e :: es, st, h => by
      obtain ⟨⟨s, hcarried, heq⟩, -⟩ := storeEntry_frame localFlag st (h e (List.mem_cons_self ..))
      obtain ⟨hdb, hheap⟩ := carried_foldl_storeEntry localFlag es
        (storeEntry env recvBuffer localFlag st e) fun e' he' => h e' (List.mem_cons_of_mem _ he')
      rw [List.foldl_cons, hdb, hheap, heq, server_updateFileRecipe]
      exact ⟨hcarried.db, hcarried.heap⟩

/-- `Ocall_UpdateOutIndex` inserts what the calls answered. -/
theorem queryBuffer_foldl_updateOutIndex {calls : List (Option SheCall)} {es : List InQueryEntry}
    (h : List.Forall₂ (Recorded env) calls es) : ∀ db : InMemoryDatabase,
    ((es.filterMap InQueryEntry.out).foldl updateOutIndex db).queryBuffer =
      insertCalls env calls db.queryBuffer := by
  induction h with
  | nil => exact fun db => rfl
  | @cons call e calls es hrec _ ih =>
      intro db
      cases call with
      | none =>
          cases ho : e.out with
          | none =>
              rw [List.filterMap_cons_none ho]
              exact ih db
          | some o =>
              rw [List.filterMap_cons_some ho, List.foldl_cons, ih, queryBuffer_updateOutIndex,
                if_neg (hrec.unmade rfl o ho)]
              rfl
      | some c =>
          obtain ⟨o, ho, hu, hhash, haddr⟩ := hrec.made c rfl
          rw [List.filterMap_cons_some ho, List.foldl_cons, ih, queryBuffer_updateOutIndex,
            if_pos hu, hhash, haddr]
          rfl

end EcallFreqIndex

/-! ## Histories -/

/-- The index knows the fingerprints of the chunks so far and no others, and
the heap only such. -/
structure Knows (env : Env) (s : Server) (seen : List Fp) : Prop where
  index : ∀ f, (s.db.queryBuffer f).isSome ↔ f ∈ seen.map env.indexAESCMCEnc
  heap : ∀ h, s.insideDedupIndex.contains h = true → h ∈ seen

theorem knows_boot (env : Env) (m : Residue) : Knows env (.boot env m) [] where
  index := fun f => ⟨fun hf => (by cases hf), fun hf => (by cases hf)⟩
  heap := fun h hh => (by cases hh)

/-- What some chunks of the history did. -/
structure Advances (env : Env) (seen hashes : List Fp) (calls : List (Option SheCall))
    (s s' : Server) : Prop where
  deduped : Deduped env seen calls hashes
  index : s'.db.queryBuffer = insertCalls env calls s.db.queryBuffer
  knows : Knows env s' (seen ++ hashes)

theorem Advances.trans {seen hs hs' : List Fp} {calls calls' : List (Option SheCall)}
    {s t u : Server} (h : Advances env seen hs calls s t)
    (h' : Advances env (seen ++ hs) hs' calls' t u) :
    Advances env seen (hs ++ hs') (calls ++ calls') s u where
  deduped := h.deduped.append h'.deduped
  index := by rw [h'.index, h.index, insertCalls_append]
  knows := by
    rw [← List.append_assoc]
    exact h'.knows

/-- Nothing that counts here has changed. -/
theorem Advances.of_eq {seen : List Fp} {s s' : Server} (h : Knows env s seen) (hdb : s'.db = s.db)
    (hheap : s'.insideDedupIndex = s.insideDedupIndex) : Advances env seen [] [] s s' where
  deduped := ⟨rfl, .nil⟩
  index := by
    rw [hdb]
    rfl
  knows := by
    rw [List.append_nil]
    exact ⟨by rw [hdb]; exact h.index, by rw [hheap]; exact h.heap⟩

open EcallFreqIndex in
/-- The three levels together. -/
theorem Knows.stores_eq_novel (henv : env.Lawful) {s : Server} {seen : List Fp}
    (h : Knows env s seen) : ∀ (es : List InQueryEntry) (earlier : List Fp),
    Firsts s.insideDedupIndex earlier (es.map asks) →
    (∀ e ∈ es, ∀ o, e.out = some o → Prepared env s.db e o) →
    es.map stores = novel (seen ++ earlier) (es.map InQueryEntry.chunkHash)
  | [], _, _, _ => rfl
  | e :: es, earlier, ⟨hfirst, hcover, hrest⟩, hprep => by
      have htail := h.stores_eq_novel henv es (earlier ++ [e.chunkHash]) hrest
        fun e' he' => hprep e' (List.mem_cons_of_mem _ he')
      have hknown : env.indexAESCMCEnc e.chunkHash ∈ seen.map env.indexAESCMCEnc ↔
          e.chunkHash ∈ seen := List.mem_map_of_injective henv.cmc_injective
      have hhead : stores e = decide (e.chunkHash ∉ seen ++ earlier) := by
        rw [Bool.eq_iff_iff, decide_eq_true_iff, List.mem_append, not_or]
        cases ho : e.out with
        | none =>
            refine ⟨fun hs => ?_, fun hnew => ?_⟩
            · simp only [stores, ho] at hs
              cases hs
            · rcases hcover hnew.2 with hasked | hheap
              · simp only [ho] at hasked
                cases hasked
              · exact absurd (h.heap _ hheap) hnew.1
        | some o =>
            have ho' := hprep e (List.mem_cons_self ..) o ho
            have hearlier : e.chunkHash ∉ earlier := hfirst (by rw [ho]; rfl)
            have hindex := h.index o.chunkHash
            rw [ho'.hash, hknown] at hindex
            simp only [stores, ho, decide_eq_true_iff]
            rcases ho'.flag with ⟨hdup, hsome⟩ | ⟨hunique, hnone⟩
            · rw [ho'.hash] at hsome
              exact iff_of_false (fun hne => hne hdup) fun hnew => hnew.1 (hindex.mp hsome)
            · rw [ho'.hash] at hnone
              refine iff_of_true (by rw [hunique]; simp) ⟨fun hseen => ?_, hearlier⟩
              have := hindex.mpr hseen
              rw [hnone] at this
              cases this
      rw [List.map_cons, List.map_cons, novel, hhead, htail, List.append_assoc]

open EcallFreqIndex in
/-- One batch. -/
theorem Knows.batch (henv : env.Lawful) {s : Session} {seen : List Fp}
    (h : Knows env s.server seen) (cs : List Chunk) (stale : Nat → RecipeEntry) :
    Advances env seen (cs.map fun c => env.generateHash c.1)
      (batchCalls env s (env.sessionKeyEnc s.client.sessionKey (frameChunks (cs.map Subtype.val)))
        cs.length stale) s.server
      (processOneBatch env s (env.sessionKeyEnc s.client.sessionKey
        (frameChunks (cs.map Subtype.val))) cs.length stale).server := by
  obtain ⟨sketch, es, hquery, hbatch⟩ := queryBatch_spec henv s.server cs stale
  have hfirsts := queryBatch_firsts env s.server (frameChunks (cs.map Subtype.val)) cs.length stale
  have hentry : ∀ e ∈ es, EntryOk env (fun _ => True) s.server.db
      (frameChunks (cs.map Subtype.val)) e := hbatch.entryOk fun _ _ => trivial
  rw [hquery] at hfirsts
  unfold processOneBatch batchCalls
  simp only [henv.sessionKey, hquery]
  obtain ⟨⟨es', hentries, hrecs⟩, hown⟩ := storeCalls_recorded (localChecker env es) es
    ⟨{ s with server := { s.server with cmSketch := sketch } }, [], [], []⟩ hentry
  obtain ⟨hdb, hheap⟩ := carried_foldl_storeEntry (localChecker env es) es
    ⟨{ s with server := { s.server with cmSketch := sketch } }, [], [], []⟩ hentry
  have hflags := @map_isSome_storeCalls env (frameChunks (cs.map Subtype.val))
    (localChecker env es) es ⟨{ s with server := { s.server with cmSketch := sketch } }, [], [], []⟩
  rw [h.stores_eq_novel henv es [] hfirsts hbatch.prepared, List.append_nil, hbatch.hashes] at hflags
  rw [hbatch.hashes] at hown
  generalize hcalls : outputs _ _ _ es = calls at hrecs hown hflags
  generalize hst : es.foldl _ _ = st at hentries hdb hheap
  rw [List.nil_append] at hentries
  have hindex : (finishBatch env (localChecker env es) st).server.db.queryBuffer =
      insertCalls env calls s.server.db.queryBuffer := by
    rw [db_finishBatch, applied, hentries, queryBuffer_foldl_updateOutIndex hrecs,
      queryBuffer_insertPairs, hdb]
  have hdeduped : Deduped env seen calls (cs.map fun c => env.generateHash c.1) := ⟨hflags, hown⟩
  refine ⟨hdeduped, hindex, ?_, ?_⟩
  · intro f
    rw [hindex, insertCalls_isSome, h.index, List.map_append, List.mem_append]
    refine ⟨Or.imp_right ?_, ?_⟩
    · rintro ⟨c, hc, rfl⟩
      obtain ⟨k, hk, -, hfp⟩ := hdeduped.unseen c hc
      exact List.mem_map.mpr ⟨k, hk, hfp.symm⟩
    · rintro (hseen | hnew)
      · exact Or.inl hseen
      · obtain ⟨k, hk, rfl⟩ := List.mem_map.mp hnew
        exact (hdeduped.covers k hk).imp_left fun hseen => List.mem_map.mpr ⟨k, hseen, rfl⟩
  · intro k hk
    rw [List.mem_append]
    rcases contains_foldl_updateHeap st.entries hk with hk | ⟨e, he, rfl⟩
    · rw [hheap] at hk
      exact Or.inl (h.heap k hk)
    · have hmem : (e.chunkHash, e.out.isSome) ∈ st.entries.map
          (fun e => (e.chunkHash, e.out.isSome)) := List.mem_map.mpr ⟨e, he, rfl⟩
      rw [← hst, entries_foldl_storeEntry _ es _ hentry, List.map_nil, List.nil_append] at hmem
      obtain ⟨e', he', heq⟩ := List.mem_map.mp hmem
      refine Or.inr ?_
      rw [← hbatch.hashes, ← (Prod.mk.injEq .. |>.mp heq).1]
      exact List.mem_map.mpr ⟨e', he', rfl⟩

/-- The batches of a session. -/
theorem Knows.batches (henv : env.Lawful) (u : Upload) : ∀ (bs : List Batch) {s : Session}
    {seen : List Fp}, Knows env s.server seen → s.client.sessionKey = u.login.sessionKey →
    Advances env seen ((bs.flatMap Batch.chunks).map fun c => env.generateHash c.1)
      (outputs (Session.receive env) (Session.calls env) s (bs.map (u.message env))).flatten
      s.server ((bs.map (u.message env)).foldl (Session.receive env) s).server
  | [], s, seen, h, _ => .of_eq h rfl rfl
  | b :: bs, s, seen, h, hkey => by
      have hfirst := h.batch henv b.chunks b.stale
      have hframe := (frame_batch henv s b.chunks b.stale []).1
      rw [← receive_message env u b hkey] at hfirst hframe
      have hrest := Knows.batches henv u bs hfirst.knows (hframe.sessionKey.trans hkey)
      have hcalls : EcallFreqIndex.batchCalls env s (env.sessionKeyEnc s.client.sessionKey
          (frameChunks (b.chunks.map Subtype.val))) b.chunks.length b.stale =
            s.calls env (u.message env b) := by
        rw [hkey]
        rfl
      rw [hcalls] at hfirst
      rw [List.flatMap_cons, List.map_append]
      exact hfirst.trans hrest

/-- A session, complete or not. -/
theorem Knows.upload (henv : env.Lawful) {s : Server} {seen : List Fp} (h : Knows env s seen)
    (u : Upload) (toEnd : Bool) :
    Advances env seen (u.chunks.map fun c => env.generateHash c.1) (u.calls env s toEnd) s
      (s.receiveUpload env u toEnd) := by
  have hstart : Knows env (Session.start s u.login).server seen := ⟨h.index, h.heap⟩
  have hbatches := hstart.batches henv u u.batches rfl
  -- the end of the recipe stores nothing, and the end of the session neither
  have hcalls : u.calls env s toEnd = (outputs (Session.receive env) (Session.calls env)
      (Session.start s u.login) (u.batches.map (u.message env))).flatten := by
    rw [Upload.calls, Upload.messages, outputs_append, List.flatten_append]
    cases toEnd with
    | false => exact List.append_nil _
    | true => exact List.append_nil _
  have hserver : ((u.messages env toEnd).foldl (Session.receive env)
      (Session.start s u.login)).server = ((u.batches.map (u.message env)).foldl
        (Session.receive env) (Session.start s u.login)).server := by
    rw [Upload.messages, List.foldl_append]
    cases toEnd with
    | false => rfl
    | true => exact server_recipeEnd env _ u.head
  have hclosed := Session.closed_close ((u.messages env toEnd).foldl (Session.receive env)
    (Session.start s u.login))
  rw [hcalls]
  have hlast : Advances env (seen ++ u.chunks.map fun c => env.generateHash c.1) [] [] _
      (s.receiveUpload env u toEnd) := .of_eq hbatches.knows
    (by rw [← hserver]; exact hclosed.db) (by rw [← hserver]; exact hclosed.heap)
  have hend := hbatches.trans hlast
  rw [List.append_nil, List.append_nil] at hend
  exact ⟨hend.deduped, hend.index, hend.knows⟩

/-- The sessions of a run, each of them complete or not. -/
def Server.receiveAll (env : Env) (s : Server) (us : List (Upload × Bool)) : Server :=
  us.foldl (fun s u => s.receiveUpload env u.1 u.2) s

/-- The calls of a run, one position for each chunk. -/
def Server.callsOf (env : Env) (s : Server) (us : List (Upload × Bool)) : List (Option SheCall) :=
  (outputs (fun s u => s.receiveUpload env u.1 u.2) (fun s u => u.1.calls env s u.2) s us).flatten

theorem Knows.receiveAll (henv : env.Lawful) : ∀ (us : List (Upload × Bool)) {s : Server}
    {seen : List Fp}, Knows env s seen →
    Advances env seen ((us.flatMap fun u => u.1.chunks).map fun c => env.generateHash c.1)
      (s.callsOf env us) s (s.receiveAll env us)
  | [], s, seen, h => .of_eq h rfl rfl
  | (u, toEnd) :: us, s, seen, h => by
      have hfirst := h.upload henv u toEnd
      have hrest := Knows.receiveAll henv us hfirst.knows
      rw [List.flatMap_cons, List.map_append]
      exact hfirst.trans hrest

/-- **Deduplication.** A chunk of a history is stored exactly if its
fingerprint does not occur earlier in it. Then the index has the
fingerprints of the history and no others, and each stored chunk's entry is
under the fingerprint of that chunk. -/
theorem stored_iff_novel (henv : env.Lawful) (m : Residue) (us : List (Upload × Bool)) :
    (∀ (i : Nat) (c : Chunk), (us.flatMap fun u => u.1.chunks)[i]? = some c →
      ((∃ call, ((Server.boot env m).callsOf env us)[i]? = some (some call)) ↔
        env.generateHash c.1 ∉ ((us.flatMap fun u => u.1.chunks).take i).map
          fun c => env.generateHash c.1) ∧
      ∀ call, ((Server.boot env m).callsOf env us)[i]? = some (some call) →
        call.fp = env.fp c.1 ∧
        ((Server.boot env m).receiveAll env us).db.queryBuffer (env.fp c.1) =
          some (env.encEntry (call.result env).1)) ∧
    ∀ f, (((Server.boot env m).receiveAll env us).db.queryBuffer f).isSome ↔
      f ∈ (us.flatMap fun u => u.1.chunks).map fun c => env.fp c.1 := by
  have hall := (knows_boot env m).receiveAll henv us
  generalize (us.flatMap fun u => u.1.chunks) = chunks at hall ⊢
  generalize hcalls : (Server.boot env m).callsOf env us = calls at hall ⊢
  refine ⟨fun i c hc => ?_, fun f => ?_⟩
  · have hhash : (chunks.map fun c => env.generateHash c.1)[i]? = some (env.generateHash c.1) := by
      rw [List.getElem?_map, hc]
      rfl
    have hflag := congrArg (·[i]?) hall.deduped.flags
    simp only [novel_getElem?, List.getElem?_map, hc, Option.map_some, List.nil_append,
      ← List.map_take] at hflag
    constructor
    · constructor
      · rintro ⟨call, hcall⟩
        rw [hcall] at hflag
        exact of_decide_eq_true (Option.some.inj hflag).symm
      · intro hnew
        rw [decide_eq_true hnew, Option.map_eq_some_iff] at hflag
        obtain ⟨call, hcall, hsome⟩ := hflag
        obtain ⟨c', rfl⟩ := Option.isSome_iff_exists.mp hsome
        exact ⟨c', hcall⟩
    · intro call hcall
      obtain ⟨hi, hget⟩ := List.getElem?_eq_some_iff.mp hcall
      obtain ⟨hj, hget'⟩ := List.getElem?_eq_some_iff.mp hhash
      have hfp : call.fp = env.fp c.1 := by
        have hown := hall.deduped.own.get hi hj
        rw [List.get_eq_getElem, List.get_eq_getElem, hget, hget'] at hown
        exact hown call rfl
      rw [← hfp, hall.index]
      exact ⟨rfl, hall.deduped.inserted henv _ call (List.mem_of_getElem? hcall)⟩
  · rw [hall.knows.index, List.nil_append, List.map_map]
    rfl

/-- The first chunk of the first session is stored, and its repetition in the
same and in the next session is not. -/
theorem stored_threeChunks :
    (∃ call, ((Server.boot .plain ⟨[], fun _ => []⟩).callsOf .plain
      [(threeChunkUpload, true), (threeChunkUpload, false)])[0]? = some (some call)) ∧
    ¬ (∃ call, ((Server.boot .plain ⟨[], fun _ => []⟩).callsOf .plain
      [(threeChunkUpload, true), (threeChunkUpload, false)])[2]? = some (some call)) ∧
    ¬ (∃ call, ((Server.boot .plain ⟨[], fun _ => []⟩).callsOf .plain
      [(threeChunkUpload, true), (threeChunkUpload, false)])[3]? = some (some call)) := by
  have h := (stored_iff_novel Env.lawful_plain ⟨[], fun _ => []⟩
    [(threeChunkUpload, true), (threeChunkUpload, false)]).1
  refine ⟨(h 0 ⟨[1, 2], by decide⟩ rfl).1.mpr (by decide), fun hcall => ?_, fun hcall => ?_⟩
  · exact (h 2 ⟨[1, 2], by decide⟩ rfl).1.mp hcall (by decide)
  · exact (h 3 ⟨[1, 2], by decide⟩ rfl).1.mp hcall (by decide)

end ShieldReduce
