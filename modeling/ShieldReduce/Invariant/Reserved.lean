import ShieldReduce.Invariant.Clients

/-!
# Reserved fingerprints

Clients that run at the same time ask the index in one step and update it
in another. A fingerprint that the index does not know is *reserved* in
between: its chunk is stored, or will be. `Reserved` says what holds of the
batches of all clients, and has one lemma for each step of a batch.
-/

namespace ShieldReduce

open ByteLib UMapLib CatalogLib StepLib EcallFreqIndex

variable {env : Env}

/-! ## Reserved fingerprints -/

/-- The query entries that ask for a chunk, by its fingerprint. -/
def asked (es : List InQueryEntry) : List Fp :=
  (es.filterMap InQueryEntry.out).map OutQueryEntry.chunkHash

/-- The query entries that the index answered with `UNIQUE`. -/
def uniques (es : List InQueryEntry) : List OutQueryEntry :=
  (es.filterMap InQueryEntry.out).filter fun o => decide (o.dedupFlag = .unique)

@[simp] theorem uniques_append (es es' : List InQueryEntry) :
    uniques (es ++ es') = uniques es ++ uniques es' := by
  simp [uniques]

namespace BatchAt

/-- The entries whose round of the store loop is over. -/
def stored : BatchAt → List InQueryEntry
  | .storing _ _ entries _ _ _ => entries
  | .logged entries => entries
  | .heaped entries => entries
  | _ => []

/-- The entries that the index has answered and the store loop has not come to. -/
def todo : BatchAt → List InQueryEntry
  | .queried _ entries => entries
  | .storing _ _ _ _ _ todo => todo
  | _ => []

/-- The fingerprints that are new to the index and not in it yet. -/
def reserved (a : BatchAt) : List Fp :=
  (uniques (a.stored ++ a.todo)).map OutQueryEntry.chunkHash

/-- The chunks that were not looked up yet. -/
def counting : BatchAt → List Fp
  | .counted _ entries => entries.map InQueryEntry.chunkHash
  | .checked _ entries => entries.map InQueryEntry.chunkHash
  | _ => []

end BatchAt

/-- The index knows the fingerprint, or some client has reserved it. -/
def Claimed (index : Fp → Option Cipher) (batch : Nat → BatchAt) (f : Fp) : Prop :=
  (index f).isSome ∨ ∃ i, f ∈ (batch i).reserved

/-- The chunk of an entry is one that a client sent. -/
def OfChunk (e : InQueryEntry) : Prop := ∃ c : Chunk, c.1 = e.chunk

/-- The index has answered. -/
def Answered (e : InQueryEntry) : Prop :=
  ∀ o, e.out = some o → o.dedupFlag = .duplicate ∨ o.dedupFlag = .unique

/-- The entry is ready for the store loop. -/
def Loaded (e : InQueryEntry) : Prop :=
  ∀ o, e.out = some o → o.dedupFlag = .unique →
    o.deltaFlag = .noDelta ∨ o.deltaFlag = .outDelta

/-- What is known of the entries, step by step. -/
def BatchAt.Form (env : Env) (claimed : Fp → Prop) : BatchAt → Prop
  | .counted _ es => ∀ e ∈ es, OfChunk e ∧ e.out = none
  | .checked _ es => (asked es).Nodup ∧ ∀ e ∈ es, OfChunk e ∧
      (claimed (env.indexAESCMCEnc e.chunkHash) ∨ env.indexAESCMCEnc e.chunkHash ∈ asked es)
  | .queried _ es => ∀ e ∈ es, OfChunk e ∧ Answered e
  | .storing _ _ _ _ _ todo => ∀ e ∈ todo, OfChunk e ∧ Answered e ∧ Loaded e
  | _ => True

/-- What is known of a batch. `idx` is where each fingerprint's record is, in
the index or not yet. -/
structure BatchAt.Ok (env : Env) (index idx : Fp → Option Cipher) (claimed : Fp → Prop)
    (a : BatchAt) : Prop where
  form : a.Form env claimed
  nodup : a.reserved.Nodup
  absent : ∀ f ∈ a.reserved, index f = none
  stored : ∀ o ∈ uniques a.stored, idx o.chunkHash = some o.chunkAddr
  todo : ∀ o ∈ uniques a.todo, idx o.chunkHash = none
  claimed : ∀ e ∈ a.stored ++ a.todo, claimed (env.indexAESCMCEnc e.chunkHash)

structure Reserved (env : Env) (index idx : Fp → Option Cipher) (heap : EntryHeap)
    (hashes : List Fp) (batch : Nat → BatchAt) : Prop where
  sound : ∀ f v, index f = some v → idx f = some v
  owned : ∀ f v, idx f = some v →
    index f = some v ∨ ∃ i, ∃ o ∈ uniques (batch i).stored, o.chunkHash = f
  /-- No two clients have reserved the same. -/
  apart : ∀ i j f, f ∈ (batch i).reserved → f ∈ (batch j).reserved → i = j
  ok : ∀ i, (batch i).Ok env index idx (Claimed index batch)
  frequent : ∀ h, heap.contains h = true → Claimed index batch (env.indexAESCMCEnc h)
  received : ∀ h ∈ hashes,
    Claimed index batch (env.indexAESCMCEnc h) ∨ ∃ i, h ∈ (batch i).counting

namespace BatchAt

theorem mem_reserved_of_stored {a : BatchAt} {o : OutQueryEntry} (ho : o ∈ uniques a.stored) :
    o.chunkHash ∈ a.reserved := by
  rw [reserved, uniques_append, List.map_append]
  exact List.mem_append_left _ (List.mem_map.mpr ⟨o, ho, rfl⟩)

theorem mem_reserved_of_todo {a : BatchAt} {o : OutQueryEntry} (ho : o ∈ uniques a.todo) :
    o.chunkHash ∈ a.reserved := by
  rw [reserved, uniques_append, List.map_append]
  exact List.mem_append_right _ (List.mem_map.mpr ⟨o, ho, rfl⟩)

theorem Form.mono {claimed claimed' : Fp → Prop} (hmono : ∀ f, claimed f → claimed' f) {a : BatchAt}
    (h : a.Form env claimed) : a.Form env claimed' := by
  cases a with
  | checked buf es =>
      exact ⟨h.1, fun e he => ⟨(h.2 e he).1, (h.2 e he).2.imp_left (hmono _)⟩⟩
  | _ => exact h

/-- What other clients do elsewhere is nothing to this one. -/
theorem Ok.mono {index index' idx idx' : Fp → Option Cipher} {claimed claimed' : Fp → Prop}
    {a : BatchAt} (h : a.Ok env index idx claimed)
    (hindex : ∀ f ∈ a.reserved, index' f = index f) (hidx : ∀ f ∈ a.reserved, idx' f = idx f)
    (hmono : ∀ f, claimed f → claimed' f) : a.Ok env index' idx' claimed' where
  form := h.form.mono hmono
  nodup := h.nodup
  absent := fun f hf => (hindex f hf).trans (h.absent f hf)
  stored := fun o ho => (hidx _ (mem_reserved_of_stored ho)).trans (h.stored o ho)
  todo := fun o ho => (hidx _ (mem_reserved_of_todo ho)).trans (h.todo o ho)
  claimed := fun e he => hmono _ (h.claimed e he)

end BatchAt

namespace Reserved

variable {index index' idx idx' : Fp → Option Cipher} {heap heap' : EntryHeap}
  {hashes hashes' : List Fp} {batch : Nat → BatchAt}

/-- Fingerprints stay claimed if those of the client that moves do. -/
theorem claimed_mono {i : Nat} {a : BatchAt}
    (hindex : ∀ f ∉ (batch i).reserved, index' f = index f)
    (hkept : ∀ f ∈ (batch i).reserved, f ∈ a.reserved ∨ (index' f).isSome) (f : Fp)
    (hf : Claimed index batch f) : Claimed index' (Function.update batch i a) f := by
  have hown : ∀ f ∈ (batch i).reserved, Claimed index' (Function.update batch i a) f := by
    intro f hf
    rcases hkept f hf with hres | hsome
    · exact Or.inr ⟨i, by rwa [Function.update_self]⟩
    · exact Or.inl hsome
  rcases hf with hf | ⟨j, hj⟩
  · by_cases hres : f ∈ (batch i).reserved
    · exact hown f hres
    · exact Or.inl (by rwa [hindex f hres])
  · by_cases hji : j = i
    · exact hown f (hji ▸ hj)
    · exact Or.inr ⟨j, by rwa [Function.update_of_ne hji]⟩

/-- One client moves: index and records change at what it has reserved at
most, and what it reserves no other client has. -/
theorem change {i : Nat} {a : BatchAt} (h : Reserved env index idx heap hashes batch)
    (hindex : ∀ f ∉ (batch i).reserved, index' f = index f)
    (hidx : ∀ f ∉ (batch i).reserved, idx' f = idx f)
    (hfresh : ∀ f ∈ a.reserved, f ∈ (batch i).reserved ∨ ∀ j ≠ i, f ∉ (batch j).reserved)
    (hkept : ∀ f ∈ (batch i).reserved, f ∈ a.reserved ∨ (index' f).isSome)
    (hsound : ∀ f ∈ (batch i).reserved, ∀ v, index' f = some v → idx' f = some v)
    (howned : ∀ f ∈ (batch i).reserved, ∀ v, idx' f = some v →
      index' f = some v ∨ ∃ o ∈ uniques a.stored, o.chunkHash = f)
    (hok : a.Ok env index' idx' (Claimed index' (Function.update batch i a)))
    (hheap : ∀ k, heap'.contains k = true → heap.contains k = true ∨
      Claimed index' (Function.update batch i a) (env.indexAESCMCEnc k))
    (hhashes : ∀ k ∈ hashes', k ∈ hashes ∨ k ∈ a.counting)
    (hcounting : ∀ k ∈ (batch i).counting, k ∈ a.counting ∨
      Claimed index' (Function.update batch i a) (env.indexAESCMCEnc k)) :
    Reserved env index' idx' heap' hashes' (Function.update batch i a) := by
  have hmono := claimed_mono hindex hkept
  have hother : ∀ {j f}, j ≠ i → f ∈ (batch j).reserved → f ∉ (batch i).reserved :=
    fun hji hj hi => hji (h.apart _ _ _ hj hi)
  constructor
  · intro f v hf
    by_cases hres : f ∈ (batch i).reserved
    · exact hsound f hres v hf
    · rw [hindex f hres] at hf
      rw [hidx f hres]
      exact h.sound f v hf
  · intro f v hf
    by_cases hres : f ∈ (batch i).reserved
    · refine (howned f hres v hf).imp_right ?_
      intro ho
      exact ⟨i, by rwa [Function.update_self]⟩
    · rw [hidx f hres] at hf
      rw [hindex f hres]
      refine (h.owned f v hf).imp_right ?_
      rintro ⟨j, o, ho, rfl⟩
      have hji : j ≠ i := by
        rintro rfl
        exact hres (BatchAt.mem_reserved_of_stored ho)
      exact ⟨j, o, by rwa [Function.update_of_ne hji], rfl⟩
  · -- nothing that another client has reserved
    have hnew : ∀ {j f}, j ≠ i → f ∈ (batch j).reserved → f ∉ a.reserved := by
      intro j f hji hj hf
      rcases hfresh f hf with hi | hi
      · exact hother hji hj hi
      · exact hi j hji hj
    intro j k f hj hk
    by_cases hji : j = i <;> by_cases hki : k = i
    · rw [hji, hki]
    · rw [hji, Function.update_self] at hj
      rw [Function.update_of_ne hki] at hk
      exact absurd hj (hnew hki hk)
    · rw [hki, Function.update_self] at hk
      rw [Function.update_of_ne hji] at hj
      exact absurd hk (hnew hji hj)
    · rw [Function.update_of_ne hji] at hj
      rw [Function.update_of_ne hki] at hk
      exact h.apart j k f hj hk
  · intro j
    by_cases hji : j = i
    · rw [hji, Function.update_self]
      exact hok
    · rw [Function.update_of_ne hji]
      exact (h.ok j).mono (fun f hf => hindex f (hother hji hf)) (fun f hf => hidx f (hother hji hf))
        hmono
  · intro k hk
    rcases hheap k hk with hk | hk
    · exact hmono _ (h.frequent k hk)
    · exact hk
  · intro k hk
    rcases hhashes k hk with hk | hk
    · rcases h.received k hk with hk | ⟨j, hj⟩
      · exact Or.inl (hmono _ hk)
      · by_cases hji : j = i
        · rcases hcounting k (hji ▸ hj) with hk | hk
          · exact Or.inr ⟨i, by rwa [Function.update_self]⟩
          · exact Or.inl hk
        · exact Or.inr ⟨j, by rwa [Function.update_of_ne hji]⟩
    · exact Or.inr ⟨i, by rwa [Function.update_self]⟩

/-- A client that has reserved nothing yet moves, and the index stays. -/
theorem early {i : Nat} {a : BatchAt} (h : Reserved env index idx heap hashes batch)
    (hnone : (batch i).reserved = [])
    (hfresh : ∀ f ∈ a.reserved, ∀ j ≠ i, f ∉ (batch j).reserved)
    (hok : a.Ok env index idx (Claimed index (Function.update batch i a)))
    (hhashes : ∀ k ∈ hashes', k ∈ hashes ∨ k ∈ a.counting)
    (hcounting : ∀ k ∈ (batch i).counting, k ∈ a.counting ∨
      Claimed index (Function.update batch i a) (env.indexAESCMCEnc k)) :
    Reserved env index idx heap hashes' (Function.update batch i a) := by
  have hnot : ∀ {f}, f ∉ (batch i).reserved := by
    intro f
    rw [hnone]
    exact List.not_mem_nil
  exact h.change (fun _ _ => rfl) (fun _ _ => rfl) (fun f hf => Or.inr (hfresh f hf))
    (fun f hf => absurd hf hnot) (fun f hf => absurd hf hnot) (fun f hf => absurd hf hnot) hok
    (fun k hk => Or.inl hk) hhashes hcounting

/-- A fingerprint that the index does not know and no client has reserved has
no record. -/
theorem unstored (h : Reserved env index idx heap hashes batch) {f : Fp} (hindex : index f = none)
    (hfree : ∀ i, f ∉ (batch i).reserved) : idx f = none := by
  by_contra hne
  obtain ⟨v, hv⟩ := Option.ne_none_iff_exists'.mp hne
  rcases h.owned f v hv with hf | ⟨i, o, ho, rfl⟩
  · rw [hindex] at hf
    cases hf
  · exact hfree i (BatchAt.mem_reserved_of_stored ho)

end Reserved

/-! ## The steps of a batch -/

theorem countBatch_spec (henv : env.Lawful) (s : Session) (b : Batch) : ∃ sketch recvBuffer es,
    countBatch env s b =
      ({ s with server := { s.server with cmSketch := sketch } }, .counted recvBuffer es) ∧
    es.map InQueryEntry.chunkHash = b.chunks.map (fun c => env.generateHash c.1) ∧
    ∀ e ∈ es, OfChunk e ∧ e.out = none := by
  refine ⟨_, _, _, rfl, ?_⟩
  rw [henv.sessionKey]
  have hsnd := (parseChunks_frame b.chunks []).1
  rw [List.nil_append, List.length_nil] at hsnd
  generalize hchunks : parseChunks (frameChunks (b.chunks.map Subtype.val)) b.chunks.length 0 = chunks
    at hsnd ⊢
  generalize hfreqs : (countChunks env s.server.cmSketch (chunks.map Prod.snd)).2 = freqs
  have hread := ident_readEntries env chunks freqs
    (by rw [← hfreqs, length_countChunks, List.length_map]) b.stale
  refine ⟨?_, fun e he => ⟨?_, ?_⟩⟩
  · have hhash := congrArg (List.map fun p => p.2.2) hread
    rw [List.map_map, List.map_map] at hhash
    rw [show (InQueryEntry.chunkHash) = (fun p : Bytes × Nat × Fp => p.2.2) ∘
      (fun e : InQueryEntry => (e.chunk, e.currentOffset, e.chunkHash)) from rfl, hhash]
    have hmap := congrArg (List.map env.generateHash) hsnd
    rw [List.map_map, List.map_map] at hmap
    exact hmap
  · have hmem : e.chunk ∈ b.chunks.map Subtype.val := by
      rw [← hsnd]
      have hchunk := congrArg (List.map fun p => p.1) hread
      rw [List.map_map, List.map_map] at hchunk
      have hin := List.mem_map_of_mem (f := fun e : InQueryEntry => e.chunk) he
      rw [show (fun e : InQueryEntry => e.chunk) = (fun p : Bytes × Nat × Fp => p.1) ∘
        (fun e : InQueryEntry => (e.chunk, e.currentOffset, e.chunkHash)) from rfl, hchunk] at hin
      exact hin
    obtain ⟨c, -, hc⟩ := List.mem_map.mp hmem
    exact ⟨c, hc⟩
  · obtain ⟨j, hj, rfl⟩ := List.mem_mapIdx.mp he
    rfl

/-- The query entries after the chunks were checked, by what they ask for. -/
theorem asked_fresh : ∀ {es : List InQueryEntry},
    (∀ p ∈ es.map ident, p.2.2.2 = none ∨ p.2.2.2 = some (.fresh (env.indexAESCMCEnc p.2.2.1))) →
    asked es =
      (((es.map ident).filter fun p => p.2.2.2.isSome).map fun p => p.2.2.1).map env.indexAESCMCEnc
  | [], _ => rfl
  | e :: es, h => by
      have ih := asked_fresh fun p hp => h p (List.mem_cons_of_mem _ hp)
      unfold asked at ih ⊢
      rcases h (ident e) (List.mem_cons_self ..) with hout | hout
      · have hnone : e.out = none := hout
        rw [List.filterMap_cons_none hnone, ih, List.map_cons, List.filter_cons_of_neg (by simp [hout])]
      · have hsome : e.out = some (.fresh (env.indexAESCMCEnc e.chunkHash)) := hout
        rw [List.filterMap_cons_some hsome, List.map_cons, ih, List.map_cons,
          List.filter_cons_of_pos (by simp [hout])]
        rfl

theorem checkBatch_spec (henv : env.Lawful) (s : Server) {es : List InQueryEntry}
    (hout : ∀ e ∈ es, OfChunk e ∧ e.out = none) :
    (asked (checkBatch env s es)).Nodup ∧
    (checkBatch env s es).map InQueryEntry.chunkHash = es.map InQueryEntry.chunkHash ∧
    ∀ e ∈ checkBatch env s es, OfChunk e ∧ (s.insideDedupIndex.contains e.chunkHash = true ∨
      env.indexAESCMCEnc e.chunkHash ∈ asked (checkBatch env s es)) := by
  have hok := (checkedOk_nil env s.insideDedupIndex).foldl
    (if s.insideDedupIndex.size = env.topThreshold then s.insideDedupIndex.topEntry else 0) es
    fun e he => (hout e he).2
  rw [List.nil_append] at hok
  have hst : ((es.foldl (checkEntry env s.insideDedupIndex
      (if s.insideDedupIndex.size = env.topThreshold then s.insideDedupIndex.topEntry else 0))
        ⟨[], ∅⟩).entries) = checkBatch env s es := rfl
  have hident := hok.ident
  have hasked := asked_fresh hok.out
  have hcovered := hok.covered
  have hfresh := hok.out
  have hdistinct := hok.distinct
  rw [hst] at hident hasked hcovered hfresh hdistinct
  rw [List.map_map] at hident
  refine ⟨by rw [hasked]; exact hdistinct.map henv.cmc_injective, ?_, fun e he => ⟨?_, ?_⟩⟩
  · have hhash := congrArg (List.map fun p => p.2.2) hident
    rw [List.map_map, List.map_map] at hhash
    exact hhash
  · have hmem : (e.chunk, e.currentOffset, e.chunkHash) ∈
        es.map fun e => (e.chunk, e.currentOffset, e.chunkHash) := by
      rw [← hident]
      exact List.mem_map.mpr ⟨e, he, rfl⟩
    obtain ⟨e', he', heq⟩ := List.mem_map.mp hmem
    obtain ⟨c, hc⟩ := (hout e' he').1
    exact ⟨c, hc.trans (congrArg Prod.fst heq)⟩
  · refine (hcovered (ident e) (List.mem_map.mpr ⟨e, he, rfl⟩)).imp_right ?_
    rintro ⟨q, hq, hhash, hsome⟩
    rw [hasked]
    refine List.mem_map.mpr ⟨e.chunkHash, List.mem_map.mpr ⟨q, List.mem_filter.mpr ⟨hq, ?_⟩, hhash⟩, rfl⟩
    exact Option.isSome_iff_ne_none.mpr hsome

/-- What the index answers, by its two answers. -/
theorem queryOutIndex_spec (db : InMemoryDatabase) (o : OutQueryEntry) :
    (queryOutIndex db o).chunkHash = o.chunkHash ∧
      ((queryOutIndex db o).dedupFlag = .duplicate ∧ (db.queryBuffer o.chunkHash).isSome ∨
        (queryOutIndex db o).dedupFlag = .unique ∧ db.queryBuffer o.chunkHash = none) := by
  unfold queryOutIndex
  cases hq : db.queryBuffer o.chunkHash with
  | none => exact ⟨rfl, Or.inr ⟨rfl, rfl⟩⟩
  | some v => exact ⟨rfl, Or.inl ⟨rfl, rfl⟩⟩

/-- What is asked for and not in the index is reserved. -/
theorem reserved_queried (s : Server) : ∀ (es : List InQueryEntry),
    (uniques (queryOutIndexBatch s es)).map OutQueryEntry.chunkHash =
      (asked es).filter fun f => (s.db.queryBuffer f).isNone
  | [] => rfl
  | e :: es => by
      have ih := reserved_queried s es
      unfold uniques queryOutIndexBatch asked at ih ⊢
      rw [List.map_cons]
      cases ho : e.out with
      | none =>
          rw [List.filterMap_cons_none (by rw [mapOut, ho]; rfl), ih, List.filterMap_cons_none ho]
      | some o =>
          rw [List.filterMap_cons_some (b := queryOutIndex s.db o) (by rw [mapOut, ho]; rfl),
            List.filterMap_cons_some ho, List.map_cons]
          obtain ⟨hhash, ⟨hflag, hq⟩ | ⟨hflag, hq⟩⟩ := queryOutIndex_spec s.db o
          · obtain ⟨v, hv⟩ := Option.isSome_iff_exists.mp hq
            rw [List.filter_cons_of_neg (by simp [hflag]), ih,
              List.filter_cons_of_neg (by simp [hv])]
          · rw [List.filter_cons_of_pos (by simp [hflag]), List.map_cons, ih, hhash,
              List.filter_cons_of_pos (by simp [hq])]

theorem answered_queryOutIndexBatch (s : Server) {es : List InQueryEntry}
    (h : ∀ e ∈ es, OfChunk e) : ∀ e ∈ queryOutIndexBatch s es, OfChunk e ∧ Answered e := by
  intro e he
  obtain ⟨e, he', rfl⟩ := List.mem_map.mp he
  refine ⟨h e he', fun o ho => ?_⟩
  obtain ⟨o', -, rfl⟩ := Option.map_eq_some_iff.mp ho
  exact (queryOutIndex_spec s.db o').2.imp And.left And.left

/-- A step over entries that keeps their hashes and flags keeps what is reserved. -/
theorem hashes_uniques_map {g : InQueryEntry → InQueryEntry}
    (hg : ∀ e o, (g e).out = some o → ∃ o', e.out = some o' ∧ o.chunkHash = o'.chunkHash ∧
      o.dedupFlag = o'.dedupFlag)
    (hnone : ∀ e, (g e).out = none → e.out = none) : ∀ (es : List InQueryEntry),
    (uniques (es.map g)).map OutQueryEntry.chunkHash = (uniques es).map OutQueryEntry.chunkHash
  | [] => rfl
  | e :: es => by
      have ih := hashes_uniques_map hg hnone es
      unfold uniques at ih ⊢
      rw [List.map_cons]
      cases ho : (g e).out with
      | none => rw [List.filterMap_cons_none ho, ih, List.filterMap_cons_none (hnone e ho)]
      | some o =>
          obtain ⟨o', ho', hhash, hflag⟩ := hg e o ho
          rw [List.filterMap_cons_some ho, List.filterMap_cons_some ho', List.filter_cons,
            List.filter_cons, hflag]
          split
          · rw [List.map_cons, List.map_cons, ih, hhash]
          · exact ih

/-- An entry before and after the queries for bases. -/
theorem load_spec (db : InMemoryDatabase) (recvBuffer : Bytes) (e : InQueryEntry) :
    (entryLoad env (mapOut (queryOutBasechunk db) (outEntrySFGet env recvBuffer e))).chunk = e.chunk ∧
    (entryLoad env (mapOut (queryOutBasechunk db) (outEntrySFGet env recvBuffer e))).chunkHash =
      e.chunkHash ∧
    ((entryLoad env (mapOut (queryOutBasechunk db) (outEntrySFGet env recvBuffer e))).out = none →
      e.out = none) ∧
    ∀ o, (entryLoad env (mapOut (queryOutBasechunk db) (outEntrySFGet env recvBuffer e))).out =
        some o → ∃ o', e.out = some o' ∧ o.chunkHash = o'.chunkHash ∧ o.dedupFlag = o'.dedupFlag ∧
          (o.dedupFlag = .unique → o.deltaFlag = .noDelta ∨ o.deltaFlag = .outDelta) := by
  have hident := entryLoad_ident env
    (mapOut (queryOutBasechunk db) (outEntrySFGet env recvBuffer e))
  obtain ⟨hchunk, -, hhash, hout⟩ := by simpa only [ident, Prod.mk.injEq] using hident
  rw [hchunk, hhash, hout]
  refine ⟨rfl, rfl, fun hnone => ?_, fun o ho => ?_⟩
  · simpa [mapOut, outEntrySFGet] using hnone
  · cases hout' : e.out with
    | none => simp [mapOut, outEntrySFGet, hout'] at ho
    | some o' =>
        refine ⟨o', rfl, ?_⟩
        simp only [mapOut, outEntrySFGet, hout', Option.map_some, Option.some.injEq] at ho
        subst ho
        by_cases hu : o'.dedupFlag = .unique
        · simp only [hu, if_true, queryOutBasechunk, and_self]
          split <;> simp
        · simp [queryOutBasechunk, hu]

theorem loadBatch_spec (s : Server) (recvBuffer : Bytes) (es : List InQueryEntry)
    (h : ∀ e ∈ es, OfChunk e ∧ Answered e) :
    (uniques (loadBatch env s recvBuffer es)).map OutQueryEntry.chunkHash =
        (uniques es).map OutQueryEntry.chunkHash ∧
      (∀ e ∈ loadBatch env s recvBuffer es, OfChunk e ∧ Answered e ∧ Loaded e) ∧
      ∀ e ∈ loadBatch env s recvBuffer es, ∃ e' ∈ es, e'.chunkHash = e.chunkHash := by
  refine ⟨?_, fun e he => ?_, fun e he => ?_⟩
  · refine hashes_uniques_map (fun e o ho => ?_) (fun e ho => ?_) es
    · obtain ⟨o', ho', hhash, hflag, -⟩ := (load_spec s.db recvBuffer e).2.2.2 o ho
      exact ⟨o', ho', hhash, hflag⟩
    · exact (load_spec s.db recvBuffer e).2.2.1 ho
  · obtain ⟨e, he', rfl⟩ := List.mem_map.mp he
    obtain ⟨hchunk, -, -, hout⟩ := @load_spec env s.db recvBuffer e
    obtain ⟨⟨c, hc⟩, hans⟩ := h e he'
    refine ⟨⟨c, hc.trans hchunk.symm⟩, fun o ho => ?_, fun o ho => ?_⟩
    · obtain ⟨o', ho', -, hflag, -⟩ := hout o ho
      rw [hflag]
      exact hans o' ho'
    · obtain ⟨-, -, -, -, hdelta⟩ := hout o ho
      exact hdelta
  · obtain ⟨e, he', rfl⟩ := List.mem_map.mp he
    exact ⟨e, he', (load_spec s.db recvBuffer e).2.1.symm⟩

/-- What the update of the index changes. -/
theorem queryBuffer_updates : ∀ (os : List OutQueryEntry) (db : InMemoryDatabase),
    ((os.filter fun o => decide (o.dedupFlag = .unique)).map OutQueryEntry.chunkHash).Nodup →
    (∀ f ∉ (os.filter fun o => decide (o.dedupFlag = .unique)).map OutQueryEntry.chunkHash,
      (os.foldl updateOutIndex db).queryBuffer f = db.queryBuffer f) ∧
    ∀ o ∈ os.filter fun o => decide (o.dedupFlag = .unique),
      (os.foldl updateOutIndex db).queryBuffer o.chunkHash = some o.chunkAddr
  | [], _, _ => ⟨fun _ _ => rfl, fun o ho => (by cases ho)⟩
  | o :: os, db, hnodup => by
      by_cases hu : o.dedupFlag = .unique
      · rw [List.filter_cons_of_pos (by simp [hu])] at hnodup ⊢
        obtain ⟨hnew, hrest⟩ := List.nodup_cons.mp hnodup
        obtain ⟨hother, hown⟩ := queryBuffer_updates os (updateOutIndex db o) hrest
        have hfirst := queryBuffer_updateOutIndex db o
        rw [if_pos hu] at hfirst
        refine ⟨fun f hf => ?_, fun p hp => ?_⟩
        · rw [List.map_cons, List.mem_cons, not_or] at hf
          rw [List.foldl_cons, hother f hf.2, hfirst, Function.update_of_ne hf.1]
        · rcases List.mem_cons.mp hp with rfl | hp
          · rw [List.foldl_cons, hother _ hnew, hfirst, Function.update_self]
          · exact hown p hp
      · rw [List.filter_cons_of_neg (by simp [hu])] at hnodup ⊢
        obtain ⟨hother, hown⟩ := queryBuffer_updates os (updateOutIndex db o) hnodup
        have hfirst := queryBuffer_updateOutIndex db o
        rw [if_neg hu] at hfirst
        refine ⟨fun f hf => ?_, hown⟩
        rw [List.foldl_cons, hother f hf, hfirst]

/-! ## What each step does to them -/

variable {index idx : Fp → Option Cipher} {heap : EntryHeap} {hashes : List Fp} {batch : Nat → BatchAt}
  {i : Nat}

namespace Reserved

/-- The chunks of a batch come in. -/
theorem receive (h : Reserved env index idx heap hashes batch) (hat : batch i = .idle)
    {recvBuffer : Bytes} {es : List InQueryEntry} (hes : ∀ e ∈ es, OfChunk e ∧ e.out = none)
    {cs : List Fp} (hcs : es.map InQueryEntry.chunkHash = cs) :
    Reserved env index idx heap (hashes ++ cs)
      (Function.update batch i (.counted recvBuffer es)) := by
  refine h.early (by rw [hat]; rfl) (fun f hf => (by cases hf)) ?_ ?_ ?_
  · exact ⟨hes, List.nodup_nil, fun f hf => (by cases hf), fun o ho => (by cases ho),
      fun o ho => (by cases ho), fun e he => (by cases he)⟩
  · intro k hk
    rcases List.mem_append.mp hk with hk | hk
    · exact Or.inl hk
    · exact Or.inr (by rw [← hcs] at hk; exact hk)
  · intro k hk
    rw [hat] at hk
    cases hk

/-- They are checked against the batch and the heap. -/
theorem check (henv : env.Lawful) {s : Server}
    (h : Reserved env index idx s.insideDedupIndex hashes batch) {recvBuffer : Bytes}
    {es : List InQueryEntry} (hat : batch i = .counted recvBuffer es) :
    Reserved env index idx s.insideDedupIndex hashes
      (Function.update batch i (.checked recvBuffer (checkBatch env s es))) := by
  have hform : ∀ e ∈ es, OfChunk e ∧ e.out = none := by
    have := (h.ok i).form
    rwa [hat] at this
  obtain ⟨hnodup, hhashes, hchecked⟩ := checkBatch_spec henv s hform
  have hnone : (batch i).reserved = [] := by
    rw [hat]
    rfl
  have hmono := claimed_mono (a := .checked recvBuffer (checkBatch env s es))
    (fun f (_ : f ∉ (batch i).reserved) => Eq.refl (index f)) fun f hf => by
      rw [hnone] at hf
      cases hf
  refine h.early hnone (fun f hf => (by cases hf)) ?_ (fun k hk => Or.inl hk) ?_
  · refine ⟨⟨hnodup, fun e he => ⟨(hchecked e he).1, ?_⟩⟩, List.nodup_nil, fun f hf => (by cases hf),
      fun o ho => (by cases ho), fun o ho => (by cases ho), fun e he => (by cases he)⟩
    exact (hchecked e he).2.imp_left fun hheap => hmono _ (h.frequent _ hheap)
  · intro k hk
    rw [hat] at hk
    refine Or.inl ?_
    rw [BatchAt.counting, hhashes]
    exact hk

/-- The index is asked: what it does not know is reserved, as no other client
has. -/
theorem query {s : Server} (h : Reserved env s.db.queryBuffer idx heap hashes batch)
    {recvBuffer : Bytes} {es : List InQueryEntry} (hat : batch i = .checked recvBuffer es)
    (hfree : ∀ f ∈ asked es, ∀ j ≠ i, f ∉ (batch j).reserved) :
    Reserved env s.db.queryBuffer idx heap hashes
      (Function.update batch i (.queried recvBuffer (queryOutIndexBatch s es))) := by
  obtain ⟨hnodup, hes⟩ : (BatchAt.checked recvBuffer es).Form env
      (Claimed s.db.queryBuffer batch) := by
    have := (h.ok i).form
    rwa [hat] at this
  have hnone : (batch i).reserved = [] := by
    rw [hat]
    rfl
  have hres : (BatchAt.queried recvBuffer (queryOutIndexBatch s es)).reserved =
      (asked es).filter fun f => (s.db.queryBuffer f).isNone := reserved_queried s es
  have hmem : ∀ {f}, f ∈ (BatchAt.queried recvBuffer (queryOutIndexBatch s es)).reserved →
      f ∈ asked es ∧ s.db.queryBuffer f = none := by
    intro f hf
    rw [hres, List.mem_filter] at hf
    exact ⟨hf.1, Option.isNone_iff_eq_none.mp hf.2⟩
  have hmono := claimed_mono (a := .queried recvBuffer (queryOutIndexBatch s es))
    (fun f (_ : f ∉ (batch i).reserved) => Eq.refl (s.db.queryBuffer f)) fun f hf => by
      rw [hnone] at hf
      cases hf
  -- now the index knows each chunk of the batch, or somebody has reserved it
  have hclaimed : ∀ e ∈ es, Claimed s.db.queryBuffer
      (Function.update batch i (.queried recvBuffer (queryOutIndexBatch s es)))
      (env.indexAESCMCEnc e.chunkHash) := by
    intro e he
    rcases (hes e he).2 with hc | hasked
    · exact hmono _ hc
    · cases hq : s.db.queryBuffer (env.indexAESCMCEnc e.chunkHash) with
      | some v => exact Or.inl (by rw [hq]; rfl)
      | none =>
          refine Or.inr ⟨i, ?_⟩
          rw [Function.update_self, hres, List.mem_filter]
          exact ⟨hasked, by rw [hq]; rfl⟩
  refine h.early hnone (fun f hf => hfree f (hmem hf).1) ⟨?_, ?_, ?_, ?_, ?_, ?_⟩
    (fun k hk => Or.inl hk) ?_
  · exact answered_queryOutIndexBatch s fun e he => (hes e he).1
  · rw [hres]
    exact hnodup.filter _
  · exact fun f hf => (hmem hf).2
  · exact fun o ho => (by cases ho)
  · intro o ho
    have ho' := hmem (BatchAt.mem_reserved_of_todo ho)
    refine h.unstored ho'.2 fun j hj => ?_
    by_cases hji : j = i
    · rw [hji, hnone] at hj
      cases hj
    · exact hfree _ ho'.1 j hji hj
  · intro e he
    obtain ⟨e, he', rfl⟩ := List.mem_map.mp he
    exact hclaimed e he'
  · intro k hk
    rw [hat] at hk
    obtain ⟨e, he, rfl⟩ := List.mem_map.mp hk
    exact Or.inr (hclaimed e he)

/-- A step that keeps what is reserved, and the index. -/
theorem keep {heap' : EntryHeap} {a : BatchAt} (h : Reserved env index idx heap hashes batch)
    (hres : a.reserved = (batch i).reserved) (hform : a.Form env (Claimed index batch))
    (hstored : ∀ o ∈ uniques a.stored, idx o.chunkHash = some o.chunkAddr)
    (htodo : ∀ o ∈ uniques a.todo, idx o.chunkHash = none)
    (hclaimed : ∀ e ∈ a.stored ++ a.todo, Claimed index batch (env.indexAESCMCEnc e.chunkHash))
    (hheap : ∀ k, heap'.contains k = true → heap.contains k = true ∨
      Claimed index batch (env.indexAESCMCEnc k))
    (hcounting : (batch i).counting = []) :
    Reserved env index idx heap' hashes (Function.update batch i a) := by
  have hown := h.ok i
  have hmono := claimed_mono (i := i) (a := a) (fun f (_ : f ∉ (batch i).reserved) => Eq.refl (index f))
    fun f hf => Or.inl (by rwa [hres])
  refine h.change (fun _ _ => rfl) (fun _ _ => rfl) (fun f hf => Or.inl (by rwa [← hres]))
    (fun f hf => Or.inl (by rwa [hres])) (fun f hf v hv => h.sound f v hv) ?_
    ⟨hform.mono hmono, ?_, ?_, hstored, htodo, fun e he => hmono _ (hclaimed e he)⟩
    (fun k hk => (hheap k hk).imp_right (hmono _)) (fun k hk => Or.inl hk) ?_
  · intro f hf v hv
    rw [← hres, BatchAt.reserved, uniques_append, List.map_append, List.mem_append] at hf
    rcases hf with hf | hf
    · exact Or.inr (List.mem_map.mp hf)
    · obtain ⟨o, ho, rfl⟩ := List.mem_map.mp hf
      rw [htodo o ho] at hv
      cases hv
  · rw [hres]
    exact hown.nodup
  · rw [hres]
    exact hown.absent
  · intro k hk
    rw [hcounting] at hk
    cases hk

/-- The bases are asked for. -/
theorem load {s : Server} (h : Reserved env index idx heap hashes batch) {recvBuffer : Bytes}
    {es : List InQueryEntry} (hat : batch i = .queried recvBuffer es) (localFlag : Bool) :
    Reserved env index idx heap hashes (Function.update batch i
      (.storing recvBuffer localFlag [] [] [] (loadBatch env s recvBuffer es))) := by
  have hown := h.ok i
  rw [hat] at hown
  obtain ⟨hhash, hform, hentries⟩ := loadBatch_spec s recvBuffer es hown.form
  refine h.keep ?_ hform (fun o ho => (by cases ho)) ?_ ?_ (fun k hk => Or.inl hk)
    (by rw [hat]; rfl)
  · rw [hat]
    exact hhash
  · intro o ho
    have hmem := List.mem_map_of_mem (f := OutQueryEntry.chunkHash) ho
    rw [BatchAt.todo, hhash] at hmem
    obtain ⟨o', ho', heq⟩ := List.mem_map.mp hmem
    rw [← heq]
    exact hown.todo o' ho'
  · intro e he
    obtain ⟨e', he', heq⟩ := hentries e he
    rw [← heq]
    exact hown.claimed e' he'

/-- A round of the store loop that stores nothing. -/
theorem skip (h : Reserved env index idx heap hashes batch) {recvBuffer : Bytes} {localFlag : Bool}
    {es todo : List InQueryEntry} {basemap process basemap' process' : List (Fp × Fp)}
    {e e' : InQueryEntry} (hat : batch i = .storing recvBuffer localFlag es basemap process (e :: todo))
    (hhash : e'.chunkHash = e.chunkHash) (hold : uniques [e] = []) (hnew : uniques [e'] = []) :
    Reserved env index idx heap hashes (Function.update batch i
      (.storing recvBuffer localFlag (es ++ [e']) basemap' process' todo)) := by
  have hown := h.ok i
  rw [hat] at hown
  have hform : ∀ e' ∈ e :: todo, OfChunk e' ∧ Answered e' ∧ Loaded e' := hown.form
  have htodo : uniques (e :: todo) = uniques todo := by
    rw [← List.singleton_append, uniques_append, hold, List.nil_append]
  refine h.keep ?_ (fun e' he' => hform e' (List.mem_cons_of_mem _ he')) ?_ ?_ ?_
    (fun k hk => Or.inl hk) (by rw [hat]; rfl)
  · rw [hat]
    simp only [BatchAt.reserved, BatchAt.stored, BatchAt.todo, uniques_append, hnew, htodo,
      List.append_nil]
  · intro o ho
    rw [BatchAt.stored, uniques_append, hnew, List.append_nil] at ho
    exact hown.stored o ho
  · intro o ho
    refine hown.todo o ?_
    rw [BatchAt.todo, htodo]
    exact ho
  · intro e₁ he₁
    simp only [BatchAt.stored, BatchAt.todo, List.append_assoc, List.mem_append,
      List.mem_singleton] at he₁
    rcases he₁ with he₁ | rfl | he₁
    · exact hown.claimed e₁ (List.mem_append_left _ he₁)
    · rw [hhash]
      exact hown.claimed e (List.mem_append_right _ (List.mem_cons_self ..))
    · exact hown.claimed e₁ (List.mem_append_right _ (List.mem_cons_of_mem _ he₁))

/-- A round that stores a chunk. -/
theorem store (h : Reserved env index idx heap hashes batch) {recvBuffer : Bytes} {localFlag : Bool}
    {es todo : List InQueryEntry} {basemap process basemap' process' : List (Fp × Fp)}
    {e e' : InQueryEntry} (hat : batch i = .storing recvBuffer localFlag es basemap process (e :: todo))
    (hhash : e'.chunkHash = e.chunkHash) {o o' : OutQueryEntry} (hold : uniques [e] = [o])
    (hnew : uniques [e'] = [o']) (hout : o'.chunkHash = o.chunkHash) :
    Reserved env index (Function.update idx o.chunkHash (some o'.chunkAddr)) heap hashes
      (Function.update batch i
        (.storing recvBuffer localFlag (es ++ [e']) basemap' process' todo)) := by
  have hown := h.ok i
  rw [hat] at hown
  have hform : ∀ e' ∈ e :: todo, OfChunk e' ∧ Answered e' ∧ Loaded e' := hown.form
  have htodo : uniques (e :: todo) = o :: uniques todo := by
    rw [← List.singleton_append, uniques_append, hold, List.singleton_append]
  have hres : (batch i).reserved = (uniques es).map OutQueryEntry.chunkHash ++
      o.chunkHash :: (uniques todo).map OutQueryEntry.chunkHash := by
    rw [hat, BatchAt.reserved, BatchAt.stored, BatchAt.todo, uniques_append, htodo, List.map_append,
      List.map_cons]
  have hres' : (BatchAt.storing recvBuffer localFlag (es ++ [e']) basemap' process' todo).reserved =
      (batch i).reserved := by
    rw [hres, BatchAt.reserved, BatchAt.stored, BatchAt.todo, uniques_append, uniques_append, hnew,
      List.append_assoc, List.singleton_append, List.map_append, List.map_cons, hout]
  have hmem : o.chunkHash ∈ (batch i).reserved := by
    rw [hres]
    exact List.mem_append_right _ (List.mem_cons_self ..)
  have hnodup := hown.nodup
  rw [← hat, hres, List.nodup_middle, List.nodup_cons, List.mem_append, not_or] at hnodup
  have hmono := claimed_mono (i := i)
    (a := .storing recvBuffer localFlag (es ++ [e']) basemap' process' todo)
    (fun f (_ : f ∉ (batch i).reserved) => Eq.refl (index f)) fun f hf => Or.inl (by rwa [hres'])
  refine h.change (fun _ _ => rfl) ?_ (fun f hf => Or.inl (by rwa [← hres']))
    (fun f hf => Or.inl (by rwa [hres'])) ?_ ?_ ⟨?_, ?_, ?_, ?_, ?_, ?_⟩ (fun k hk => Or.inl hk)
    (fun k hk => Or.inl hk) ?_
  · intro f hf
    refine Function.update_of_ne ?_ _ _
    rintro rfl
    exact hf hmem
  · intro f hf v hv
    rw [hat] at hf
    rw [hown.absent f hf] at hv
    cases hv
  · intro f hf v hv
    refine Or.inr ?_
    rw [BatchAt.stored, uniques_append, hnew]
    by_cases heq : f = o.chunkHash
    · exact ⟨o', List.mem_append_right _ (List.mem_singleton_self _), by rw [hout, heq]⟩
    · rw [Function.update_of_ne heq] at hv
      rw [hres, List.mem_append, List.mem_cons] at hf
      rcases hf with hf | hf | hf
      · obtain ⟨p, hp, rfl⟩ := List.mem_map.mp hf
        exact ⟨p, List.mem_append_left _ hp, rfl⟩
      · exact absurd hf heq
      · obtain ⟨p, hp, rfl⟩ := List.mem_map.mp hf
        rw [hown.todo p (by rw [BatchAt.todo, htodo]; exact List.mem_cons_of_mem _ hp)] at hv
        cases hv
  · exact fun e' he' => hform e' (List.mem_cons_of_mem _ he')
  · rw [hres', hat]
    exact hown.nodup
  · rw [hres', hat]
    exact hown.absent
  · intro p hp
    rw [BatchAt.stored, uniques_append, hnew, List.mem_append, List.mem_singleton] at hp
    rcases hp with hp | rfl
    · rw [Function.update_of_ne]
      · exact hown.stored p hp
      · intro heq
        exact hnodup.1.1 (heq ▸ List.mem_map_of_mem hp)
    · rw [hout, Function.update_self]
  · intro p hp
    rw [Function.update_of_ne]
    · exact hown.todo p (by rw [BatchAt.todo, htodo]; exact List.mem_cons_of_mem _ hp)
    · intro heq
      exact hnodup.1.2 (heq ▸ List.mem_map_of_mem hp)
  · intro e₁ he₁
    simp only [BatchAt.stored, BatchAt.todo, List.append_assoc, List.mem_append,
      List.mem_singleton] at he₁
    refine hmono _ ?_
    rcases he₁ with he₁ | rfl | he₁
    · exact hown.claimed e₁ (List.mem_append_left _ he₁)
    · rw [hhash]
      exact hown.claimed e (List.mem_append_right _ (List.mem_cons_self ..))
    · exact hown.claimed e₁ (List.mem_append_right _ (List.mem_cons_of_mem _ he₁))
  · intro k hk
    rw [hat] at hk
    cases hk

/-- The store loop is over. -/
theorem log (h : Reserved env index idx heap hashes batch) {recvBuffer : Bytes} {localFlag : Bool}
    {es : List InQueryEntry} {basemap process : List (Fp × Fp)}
    (hat : batch i = .storing recvBuffer localFlag es basemap process []) :
    Reserved env index idx heap hashes (Function.update batch i (.logged es)) := by
  have hown := h.ok i
  rw [hat] at hown
  exact h.keep (by rw [hat]; rfl) trivial hown.stored (fun o ho => (by cases ho)) hown.claimed
    (fun k hk => Or.inl hk) (by rw [hat]; rfl)

/-- The heap gets chunks of the batch. -/
theorem heaps (h : Reserved env index idx heap hashes batch) {es : List InQueryEntry}
    (hat : batch i = .logged es) :
    Reserved env index idx (es.foldl (updateHeap env) heap) hashes
      (Function.update batch i (.heaped es)) := by
  have hown := h.ok i
  rw [hat] at hown
  refine h.keep (by rw [hat]; rfl) trivial hown.stored (fun o ho => (by cases ho)) hown.claimed
    (fun k hk => ?_) (by rw [hat]; rfl)
  refine (contains_foldl_updateHeap es hk).imp_right ?_
  rintro ⟨e, he, rfl⟩
  exact hown.claimed e (List.mem_append_left _ he)

/-- The index gets what was reserved. -/
theorem update {db : InMemoryDatabase} (h : Reserved env db.queryBuffer idx heap hashes batch)
    {es : List InQueryEntry} (hat : batch i = .heaped es) :
    Reserved env ((es.filterMap InQueryEntry.out).foldl updateOutIndex db).queryBuffer idx heap hashes
      (Function.update batch i .idle) := by
  have hown := h.ok i
  rw [hat] at hown
  have hres : (BatchAt.heaped es).reserved = (uniques es).map OutQueryEntry.chunkHash := by
    show (uniques (es ++ [])).map OutQueryEntry.chunkHash = _
    rw [List.append_nil]
  obtain ⟨hother, hnew⟩ := queryBuffer_updates (es.filterMap InQueryEntry.out) db
    (by rw [← uniques, ← hres]; exact hown.nodup)
  rw [← uniques, ← hres, ← hat] at hother
  have hmem : ∀ f ∈ (batch i).reserved, ∃ v,
      ((es.filterMap InQueryEntry.out).foldl updateOutIndex db).queryBuffer f = some v ∧
        idx f = some v := by
    intro f hf
    rw [hat, hres] at hf
    obtain ⟨o, ho, rfl⟩ := List.mem_map.mp hf
    exact ⟨_, hnew o ho, hown.stored o ho⟩
  refine h.change hother (fun _ _ => rfl) (fun f hf => (by cases hf)) ?_ ?_ ?_ ?_
    (fun k hk => Or.inl hk) (fun k hk => Or.inl hk) ?_
  · intro f hf
    obtain ⟨v, hv, -⟩ := hmem f hf
    exact Or.inr (by rw [hv]; rfl)
  · intro f hf v hv
    obtain ⟨v', hv', hidx⟩ := hmem f hf
    rwa [← hv, hv']
  · intro f hf v hv
    obtain ⟨v', hv', hidx⟩ := hmem f hf
    exact Or.inl (by rw [hv', ← hidx, hv])
  · exact ⟨trivial, List.nodup_nil, fun f hf => (by cases hf), fun o ho => (by cases ho),
      fun o ho => (by cases ho), fun e he => (by cases he)⟩
  · intro k hk
    rw [hat] at hk
    cases hk

end Reserved

end ShieldReduce
