import ShieldReduce.System.Clients
import ShieldReduce.Invariant.Upload

/-!
# Several clients

`exec_batchSteps` connects the steps of a batch with `processOneBatch`.
`Benches` is what `Shelved` is for one session: the containers are the
files and the open containers of all clients.
-/

namespace ShieldReduce

open ByteLib UMapLib TilingLib CatalogLib StepLib

variable {env : Env}

/-! ## A batch without interference -/

namespace EcallFreqIndex

/-- The store loop, round by round. -/
theorem exec_store [ContainerNames] (recvBuffer : Bytes) (localFlag : Bool) : ∀ (todo : List InQueryEntry)
    (st : Storing), exec (batchStep env)
      (st.session, .storing recvBuffer localFlag st.entries st.batchBasemap st.processBuffer todo)
      (List.replicate todo.length .store) =
    some ((todo.foldl (storeEntry env recvBuffer localFlag) st).session, .storing recvBuffer localFlag
      (todo.foldl (storeEntry env recvBuffer localFlag) st).entries
      (todo.foldl (storeEntry env recvBuffer localFlag) st).batchBasemap
      (todo.foldl (storeEntry env recvBuffer localFlag) st).processBuffer [])
  | [], _ => rfl
  | e :: todo, st => by
      rw [List.length_cons, List.replicate_succ]
      exact exec_store recvBuffer localFlag todo (storeEntry env recvBuffer localFlag st e)

/-- The queries, step by step. -/
theorem exec_queries [ContainerNames] (s : Session) (b : Batch) {recvBuffer : Bytes}
    (hbuf : env.sessionKeyDec s.client.sessionKey (env.sessionKeyEnc s.client.sessionKey
      (frameChunks (b.chunks.map Subtype.val))) = recvBuffer) :
    exec (batchStep env) (s, .idle) [.receive b, .check, .query, .load] =
      some ({ s with server := (queryBatch env s.server recvBuffer b.chunks.length b.stale).1 },
        .storing recvBuffer
          (localChecker env (queryBatch env s.server recvBuffer b.chunks.length b.stale).2) [] [] []
          (queryBatch env s.server recvBuffer b.chunks.length b.stale).2) := by
  have hload : ∀ (db : InMemoryDatabase) (es : List InQueryEntry),
      (es.map (mapOut (queryOutIndex db))).map (fun e =>
        entryLoad env (mapOut (queryOutBasechunk db) (outEntrySFGet env recvBuffer e))) =
      (es.map fun e => mapOut (queryOutBasechunk db)
        (outEntrySFGet env recvBuffer (mapOut (queryOutIndex db) e))).map (entryLoad env) := by
    intro db es
    rw [List.map_map, List.map_map]
    rfl
  subst hbuf
  unfold queryBatch
  simp only [← hload]
  rfl

/-- A batch that no other client interferes with. -/
theorem exec_batchSteps [ContainerNames] (s : Session) (b : Batch) :
    exec (batchStep env) (s, .idle) (batchSteps b) = some (processOneBatch env s
      (env.sessionKeyEnc s.client.sessionKey (frameChunks (b.chunks.map Subtype.val)))
      b.chunks.length b.stale, .idle) := by
  unfold processOneBatch
  dsimp only
  generalize hbuf : env.sessionKeyDec s.client.sessionKey _ = recvBuffer
  have hstore := @exec_store env _ recvBuffer
    (localChecker env (queryBatch env s.server recvBuffer b.chunks.length b.stale).2)
    (queryBatch env s.server recvBuffer b.chunks.length b.stale).2
    ⟨{ s with server := (queryBatch env s.server recvBuffer b.chunks.length b.stale).1 }, [], [], []⟩
  rw [length_queryBatch] at hstore
  rw [batchSteps, exec_append, exec_append, exec_queries s b hbuf, Option.bind_some, hstore,
    Option.bind_some]
  rfl

end EcallFreqIndex

/-! ## The open containers of all clients -/

/-- The open containers, by client and directory. -/
abbrev Bench := Nat × Dir → Option OpenContainer

/-- The open containers and the files make up the containers. -/
structure Benches (v : View) (b : Bench) (F : Containers) : Prop where
  opened : ∀ {i d c}, b (i, d) = some c → ∃ rs, F (d, c.containerID) = some rs ∧
    c.buf = records.flat rs
  closed : ∀ {i d c}, b (i, d) = some c → v d c.containerID = none ∧ c.body = []
  files : ∀ {d n}, (∀ i c, b (i, d) = some c → c.containerID ≠ n) →
    v d n = (F (d, n)).map records.flat
  apart : ∀ {i j d c c'}, b (i, d) = some c → b (j, d) = some c' →
    c.containerID = c'.containerID → i = j

namespace Benches

variable {v : View} {b : Bench} {F : Containers}

/-- A new container is opened. -/
theorem fresh (h : Benches v b F) {i : Nat} {d : Dir} (hnone : b (i, d) = none) {n : ContainerName}
    (hn : ∀ d, F (d, n) = none) :
    Benches v (Function.update b (i, d) (some ⟨n, [], []⟩))
      (Function.update F (d, n) (some [])) := by
  have hne : ∀ {j d' c}, b (j, d') = some c → c.containerID ≠ n := by
    intro j d' c hc heq
    obtain ⟨rs, hrs, -⟩ := h.opened hc
    rw [heq, hn] at hrs
    cases hrs
  have hview : ∀ d', v d' n = none := by
    intro d'
    rw [h.files fun j c hc => hne hc, hn]
    rfl
  have hcases : ∀ {j d' c}, Function.update b (i, d) (some ⟨n, [], []⟩) (j, d') = some c →
      ((j, d') = (i, d) ∧ c = ⟨n, [], []⟩) ∨ b (j, d') = some c := by
    intro j d' c hc
    by_cases heq : (j, d') = (i, d)
    · rw [heq, Function.update_self] at hc
      exact Or.inl ⟨heq, (Option.some.inj hc).symm⟩
    · rw [Function.update_of_ne heq] at hc
      exact Or.inr hc
  constructor
  · intro j d' c hc
    rcases hcases hc with ⟨heq, rfl⟩ | hc
    · obtain ⟨-, rfl⟩ := Prod.mk.injEq .. |>.mp heq
      exact ⟨[], Function.update_self .., rfl⟩
    · rw [Function.update_of_ne (fun heq => hne hc (congrArg Prod.snd heq))]
      exact h.opened hc
  · intro j d' c hc
    rcases hcases hc with ⟨-, rfl⟩ | hc
    · exact ⟨hview d', rfl⟩
    · exact h.closed hc
  · intro d' m hm
    have hold : ∀ j c, b (j, d') = some c → c.containerID ≠ m := by
      intro j c hc
      by_cases heq : (j, d') = (i, d)
      · rw [heq, hnone] at hc
        cases hc
      · exact hm j c (by rw [Function.update_of_ne heq, hc])
    by_cases heq : (d', m) = (d, n)
    · obtain ⟨rfl, rfl⟩ := Prod.mk.injEq .. |>.mp heq
      exact absurd rfl (hm i ⟨m, [], []⟩ (Function.update_self ..))
    · rw [Function.update_of_ne heq]
      exact h.files hold
  · intro j k d' c c' hc hc' heq
    rcases hcases hc with ⟨hj, rfl⟩ | hc
    · rcases hcases hc' with ⟨hk, -⟩ | hc'
      · exact (congrArg Prod.fst hj).trans (congrArg Prod.fst hk).symm
      · exact absurd heq.symm (hne hc')
    · rcases hcases hc' with ⟨-, rfl⟩ | hc'
      · exact absurd heq (hne hc)
      · exact h.apart hc hc' heq

/-- A record goes behind the others of an open container. -/
theorem append (h : Benches v b F) {i : Nat} {d : Dir} {c : OpenContainer}
    (hc : b (i, d) = some c) {rs : List Record} (hrs : F (d, c.containerID) = some rs) (r : Record) :
    Benches v (Function.update b (i, d) (some { c with buf := c.buf ++ r.toBytes }))
      (Function.update F (d, c.containerID) (some (rs ++ [r]))) := by
  have hbuf : c.buf = records.flat rs := by
    obtain ⟨ts, hts, hbuf⟩ := h.opened hc
    obtain rfl := Option.some.inj (hrs.symm.trans hts)
    exact hbuf
  -- the containers are the same, by name
  have hcases : ∀ {j d' c'},
      Function.update b (i, d) (some { c with buf := c.buf ++ r.toBytes }) (j, d') = some c' →
      ∃ c'', b (j, d') = some c'' ∧ c'.containerID = c''.containerID ∧ c'.body = c''.body ∧
        ((j, d') ≠ (i, d) → c' = c'') := by
    intro j d' c' hc'
    by_cases heq : (j, d') = (i, d)
    · rw [heq, Function.update_self] at hc'
      obtain rfl := Option.some.inj hc'
      exact ⟨c, by rw [heq, hc], rfl, rfl, fun hne => absurd heq hne⟩
    · rw [Function.update_of_ne heq] at hc'
      exact ⟨c', hc', rfl, rfl, fun _ => rfl⟩
  constructor
  · intro j d' c' hc'
    by_cases heq : (j, d') = (i, d)
    · obtain ⟨rfl, rfl⟩ := Prod.mk.injEq .. |>.mp heq
      rw [Function.update_self] at hc'
      obtain rfl := Option.some.inj hc'
      refine ⟨rs ++ [r], Function.update_self .., ?_⟩
      rw [Layout.flat_append, ← hbuf]
      simp
    · rw [Function.update_of_ne heq] at hc'
      rw [Function.update_of_ne]
      · exact h.opened hc'
      · intro hname
        obtain ⟨rfl, hid⟩ := Prod.mk.injEq .. |>.mp hname
        exact heq (by rw [h.apart hc' hc hid])
  · intro j d' c' hc'
    obtain ⟨c'', hc'', hid, hbody, -⟩ := hcases hc'
    rw [hid, hbody]
    exact h.closed hc''
  · intro d' m hm
    have hold : ∀ j c', b (j, d') = some c' → c'.containerID ≠ m := by
      intro j c' hc'
      by_cases heq : (j, d') = (i, d)
      · rw [heq, hc] at hc'
        obtain rfl := Option.some.inj hc'
        exact hm j { c with buf := c.buf ++ r.toBytes } (by rw [heq]; exact Function.update_self ..)
      · exact hm j c' (by rw [Function.update_of_ne heq, hc'])
    rw [Function.update_of_ne]
    · exact h.files hold
    · intro hname
      obtain ⟨rfl, rfl⟩ := Prod.mk.injEq .. |>.mp hname
      exact hold i c hc rfl
  · intro j k d' c₁ c₂ h₁ h₂ heq
    obtain ⟨c₁', h₁', hid₁, -⟩ := hcases h₁
    obtain ⟨c₂', h₂', hid₂, -⟩ := hcases h₂
    rw [hid₁, hid₂] at heq
    exact h.apart h₁' h₂' heq

/-- An open container becomes a file. -/
theorem write (h : Benches v b F) {i : Nat} {d : Dir} {c : OpenContainer} (hc : b (i, d) = some c)
    {v' : View} (hv : ∀ d' n, v' d' n =
      if d' = d ∧ n = c.containerID then some c.buf else v d' n) :
    Benches v' (Function.update b (i, d) none) F := by
  have hcases : ∀ {j d' c'}, Function.update b (i, d) none (j, d') = some c' →
      b (j, d') = some c' ∧ ¬ (d' = d ∧ c'.containerID = c.containerID) := by
    intro j d' c' hc'
    by_cases heq : (j, d') = (i, d)
    · rw [heq, Function.update_self] at hc'
      cases hc'
    · rw [Function.update_of_ne heq] at hc'
      refine ⟨hc', ?_⟩
      rintro ⟨rfl, hid⟩
      exact heq (by rw [h.apart hc' hc hid])
  constructor
  · exact fun hc' => h.opened (hcases hc').1
  · intro j d' c' hc'
    rw [hv, if_neg (hcases hc').2]
    exact h.closed (hcases hc').1
  · intro d' m hm
    rw [hv]
    by_cases heq : d' = d ∧ m = c.containerID
    · obtain ⟨rfl, rfl⟩ := heq
      obtain ⟨rs, hrs, hbuf⟩ := h.opened hc
      rw [if_pos ⟨rfl, rfl⟩, hrs, hbuf]
      rfl
    · rw [if_neg heq]
      refine h.files fun j c' hc' => ?_
      by_cases hslot : (j, d') = (i, d)
      · obtain ⟨rfl, rfl⟩ := Prod.mk.injEq .. |>.mp hslot
        obtain rfl := Option.some.inj (hc.symm.trans hc')
        exact fun hid => heq ⟨rfl, hid.symm⟩
      · exact hm j c' (by rw [Function.update_of_ne hslot, hc'])
  · exact fun h₁ h₂ heq => h.apart (hcases h₁).1 (hcases h₂).1 heq

/-- An open container that is empty is given up. -/
theorem drop (h : Benches v b F) {i : Nat} {d : Dir} {c : OpenContainer} (hc : b (i, d) = some c) :
    Benches v (Function.update b (i, d) none) (Function.update F (d, c.containerID) none) := by
  have hcases : ∀ {j d' c'}, Function.update b (i, d) none (j, d') = some c' →
      b (j, d') = some c' ∧ (d', c'.containerID) ≠ (d, c.containerID) := by
    intro j d' c' hc'
    by_cases heq : (j, d') = (i, d)
    · rw [heq, Function.update_self] at hc'
      cases hc'
    · rw [Function.update_of_ne heq] at hc'
      refine ⟨hc', fun hname => ?_⟩
      obtain ⟨rfl, hid⟩ := Prod.mk.injEq .. |>.mp hname
      exact heq (by rw [h.apart hc' hc hid])
  constructor
  · intro j d' c' hc'
    rw [Function.update_of_ne (hcases hc').2]
    exact h.opened (hcases hc').1
  · exact fun hc' => h.closed (hcases hc').1
  · intro d' m hm
    by_cases heq : (d', m) = (d, c.containerID)
    · obtain ⟨rfl, rfl⟩ := Prod.mk.injEq .. |>.mp heq
      rw [Function.update_self]
      exact (h.closed hc).1
    · rw [Function.update_of_ne heq]
      refine h.files fun j c' hc' => ?_
      by_cases hslot : (j, d') = (i, d)
      · obtain ⟨rfl, rfl⟩ := Prod.mk.injEq .. |>.mp hslot
        obtain rfl := Option.some.inj (hc.symm.trans hc')
        exact fun hid => heq (by rw [hid])
      · exact hm j c' (by rw [Function.update_of_ne hslot, hc'])
  · exact fun h₁ h₂ heq => h.apart (hcases h₁).1 (hcases h₂).1 heq

end Benches

/-- The open containers of the clients. -/
def benchOf (clients : Nat → Option Client) : Bench := fun p => (clients p.1).map fun c => c.cur p.2

theorem benchOf_self (clients : Nat → Option Client) (i : Nat) (c : Client) (d : Dir) :
    benchOf (Function.update clients i (some c)) (i, d) = some (c.cur d) := by
  rw [benchOf, Function.update_self]
  rfl

theorem benchOf_of_ne (clients : Nat → Option Client) {i j : Nat} (hij : j ≠ i) (c : Option Client)
    (d : Dir) : benchOf (Function.update clients i c) (j, d) = benchOf clients (j, d) := by
  rw [benchOf, benchOf, Function.update_of_ne hij]

/-- A client changes one of its open containers. -/
theorem benchOf_update (clients : Nat → Option Client) (i : Nat) {c c' : Client} {d : Dir}
    (hother : ∀ d', d' ≠ d → c'.cur d' = c.cur d') :
    benchOf (Function.update clients i (some c')) =
      Function.update (benchOf (Function.update clients i (some c))) (i, d) (some (c'.cur d)) := by
  funext ⟨j, d'⟩
  by_cases hj : j = i
  · subst hj
    by_cases hd : d' = d
    · subst hd
      rw [Function.update_self, benchOf_self]
    · rw [Function.update_of_ne (by simp [hd]), benchOf_self, benchOf_self, hother d' hd]
  · rw [Function.update_of_ne (by simp [hj]), benchOf_of_ne _ hj, benchOf_of_ne _ hj]

/-- A client leaves. -/
theorem benchOf_none (clients : Nat → Option Client) (i : Nat) (c : Client) :
    benchOf (Function.update clients i none) =
      Function.update (Function.update (benchOf (Function.update clients i (some c)))
        (i, .base) none) (i, .delta) none := by
  funext ⟨j, d⟩
  by_cases hj : j = i
  · subst hj
    rw [benchOf, Function.update_self]
    cases d with
    | base => rw [Function.update_of_ne (by simp), Function.update_self]; rfl
    | delta => rw [Function.update_self]; rfl
  · rw [Function.update_of_ne (by simp [hj]), Function.update_of_ne (by simp [hj]),
      benchOf_of_ne _ hj, benchOf_of_ne _ hj]

variable [names : ContainerNames]

/-- What `Stocked` is for one session, for that of client `i` among others. -/
structure Housed (env : Env) (clients : Nat → Option Client) (i : Nat) (s : Session) (F : Containers)
    (idx : Fp → Option Cipher) (abs : Fp → Option Content) : Prop where
  stock : Stock env F idx abs s.server.created
  benches : Benches s.server.view (benchOf (Function.update clients i (some s.client))) F

variable {clients : Nat → Option Client} {i : Nat} {F : Containers} {idx : Fp → Option Cipher}
  {abs : Fp → Option Content}

namespace Housed

theorem congr {s s' : Session} (h : Housed env clients i s F idx abs) (hs : SameShelves s s') :
    Housed env clients i s' F idx abs where
  stock := by
    rw [hs.created]
    exact h.stock
  benches := by
    have hbench : benchOf (Function.update clients i (some s'.client)) =
        benchOf (Function.update clients i (some s.client)) := by
      funext ⟨j, d⟩
      by_cases hj : j = i
      · rw [hj, benchOf_self, benchOf_self, hs.cur]
      · rw [benchOf_of_ne _ hj, benchOf_of_ne _ hj]
    rw [hs.view, hbench]
    exact h.benches

/-- The full container becomes a file and a new one is opened. -/
theorem rollOver {s : Session} (h : Housed env clients i s F idx abs)
    (hlt : s.server.created < names.distinct) (d : Dir) :
    Housed env clients i (s.rollOver d)
      (Function.update F (d, containerName s.server.created) (some [])) idx abs where
  stock := h.stock.fresh hlt d
  benches := by
    have hwritten := h.benches.write (benchOf_self clients i s.client d) (view_rollOver s d)
    have hopened := hwritten.fresh (Function.update_self ..) (h.stock.next_none hlt)
    rw [Function.update_idem, ← cur_rollOver_self s d] at hopened
    rw [benchOf_update clients i fun d' hd => cur_rollOver_of_ne s hd]
    exact hopened

/-- A chunk of a fingerprint that is new goes into the open container, which
has room for it. -/
theorem store {s : Session} (h : Housed env clients i s F idx abs) {d : Dir} {chunkData : Bytes}
    {chunkAddr : RecipeEntry} {sf : Sf} {fp : Fp} (hsize : chunkData.length ≤ MAX_CHUNK_SIZE)
    (hroom : (s.client.cur d).buf.length + chunkData.length + recordOverhead < MAX_CONTAINER_SIZE)
    (hflag : chunkAddr.deltaFlag = d.flag) (hnew : idx fp = none) :
    ∃ F', Housed env clients i (s.setCur d { s.client.cur d with buf :=
          (s.client.cur d).buf ++ (s.recordFor d chunkData chunkAddr sf fp).toBytes }) F'
      (Function.update idx fp
        (some (env.encEntry (s.recordFor d chunkData chunkAddr sf fp).entry)))
      (Function.update abs fp (some ((s.recordFor d chunkData chunkAddr sf fp).content env))) := by
  have hcur := benchOf_self clients i s.client d
  obtain ⟨rs, hrs, hbuf⟩ := h.benches.opened hcur
  obtain ⟨hplaced, hstart⟩ : (s.recordFor d chunkData chunkAddr sf fp).PlacedIn
      (s.client.cur d).containerID ∧
      (s.recordFor d chunkData chunkAddr sf fp).start = (s.client.cur d).buf.length := by
    have hmax : MAX_CONTAINER_SIZE < 2 ^ 32 := by decide
    exact ⟨(s.recordFor_found d chunkAddr sf fp hsize hroom).1, Nat.mod_eq_of_lt (by omega)⟩
  have hsmall : (records.flat rs).length +
      (s.recordFor d chunkData chunkAddr sf fp).toBytes.length < MAX_CONTAINER_SIZE := by
    rw [Record.length_toBytes, ← hbuf, ← Nat.add_assoc]
    exact hroom
  rw [hbuf] at hstart
  refine ⟨_, h.stock.put hrs hplaced hstart hsmall hflag hnew, ?_⟩
  rw [benchOf_update clients i fun d' hd => cur_setCur_of_ne hd _, cur_setCur_self]
  exact h.benches.append hcur hrs _

/-- `SavebaseChunk` and `SavedeltaChunk`. -/
theorem saveChunk {s : Session} (h : Housed env clients i s F idx abs) {d : Dir} {chunkData : Bytes}
    (chunkAddr : RecipeEntry) (sf : Sf) {fp : Fp} (hsize : chunkData.length ≤ MAX_CHUNK_SIZE)
    (hflag : chunkAddr.deltaFlag = d.flag) (hnew : idx fp = none)
    (hcreated : (s.saveChunk d chunkData chunkAddr sf fp).2.server.created ≤ names.distinct) :
    ∃ F' abs', Housed env clients i (s.saveChunk d chunkData chunkAddr sf fp).2 F'
      (Function.update idx fp (some (env.encEntry (s.saveChunk d chunkData chunkAddr sf fp).1)))
      abs' := by
  obtain ⟨t, ht, hroom, heq⟩ := s.saveChunk_cases d chunkAddr sf fp hsize
  rw [heq] at hcreated ⊢
  rcases ht with rfl | rfl
  · obtain ⟨F', hF'⟩ := h.store hsize hroom hflag hnew
    exact ⟨F', _, hF'⟩
  · obtain ⟨F', hF'⟩ := (h.rollOver (show s.server.created < names.distinct from hcreated) d).store hsize
      hroom hflag hnew
    exact ⟨F', _, hF'⟩

/-- A chunk that is stored whole. -/
theorem whole (henv : env.Lawful) {s : Session} (h : Housed env clients i s F idx abs) (c : Chunk)
    (a : RecipeEntry) (sf : Sf) {fp : Fp} (hnew : idx fp = none)
    (hcreated : (s.processSheUniqueChunk env { a with deltaFlag := NO_DELTA } c.1 sf
      fp).2.server.created ≤ names.distinct) :
    ∃ F' abs', Housed env clients i
      (s.processSheUniqueChunk env { a with deltaFlag := NO_DELTA } c.1 sf fp).2 F'
      (Function.update idx fp (some (env.encEntry
        (s.processSheUniqueChunk env { a with deltaFlag := NO_DELTA } c.1 sf fp).1))) abs' := by
  have hsize : (env.encryptWithKeyIV (env.pack c.1) (pickNewIV s.client.iv)).length ≤
      MAX_CHUNK_SIZE := by
    rw [henv.length_keyIV]
    exact le_trans (henv.length_pack c).2 c.2.2
  have hnext : Housed env clients i { s with
      client := { s.client with iv := pickNewIV s.client.iv }
      server := { s.server with
        onlineBackupSize := s.server.onlineBackupSize + UInt64.ofNat (env.pack c.1).length } }
      F idx abs := h.congr ⟨rfl, rfl, rfl⟩
  exact hnext.saveChunk (d := .base) { a with deltaFlag := NO_DELTA, superfeature := sf } sf hsize rfl
    hnew hcreated

/-- A chunk that is stored as a delta. -/
theorem delta (henv : env.Lawful) {s : Session} (h : Housed env clients i s F idx abs) {delta : Bytes}
    (hdelta : delta.length ≤ MAX_CHUNK_SIZE) (a : RecipeEntry) (sf : Sf) {fp : Fp}
    (hnew : idx fp = none)
    (hcreated : (s.processSheUniqueChunk env { a with deltaFlag := DELTA } delta sf
      fp).2.server.created ≤ names.distinct) :
    ∃ F' abs', Housed env clients i
      (s.processSheUniqueChunk env { a with deltaFlag := DELTA } delta sf fp).2 F'
      (Function.update idx fp (some (env.encEntry
        (s.processSheUniqueChunk env { a with deltaFlag := DELTA } delta sf fp).1))) abs' := by
  have hsize : (env.encryptWithKeyIV delta (pickNewIV s.client.iv)).length ≤ MAX_CHUNK_SIZE := by
    rwa [henv.length_keyIV]
  have hnext : Housed env clients i { s with
      client := { s.client with iv := pickNewIV s.client.iv }
      server := { s.server with
        onlineBackupSize := s.server.onlineBackupSize + UInt64.ofNat delta.length } }
      F idx abs := h.congr ⟨rfl, rfl, rfl⟩
  exact hnext.saveChunk (d := .delta) { a with deltaFlag := DELTA } sf hsize rfl hnew hcreated

/-- The new chunk of a round, stored in one of its three ways. -/
theorem stores (henv : env.Lawful) {recvBuffer : Bytes} {localFlag : Bool}
    {st st' : EcallFreqIndex.Storing} {e : InQueryEntry} {o : OutQueryEntry}
    (h : Housed env clients i st.session F idx abs)
    (hstores : EcallFreqIndex.Stores env recvBuffer localFlag st e o st') (c : Chunk)
    (hc : c.1 = e.chunk) (hnew : idx o.chunkHash = none)
    (hcreated : st'.session.server.created ≤ names.distinct) :
    ∃ F' abs' v, Housed env clients i st'.session F' (Function.update idx o.chunkHash (some v)) abs' ∧
      Carried st.session st'.session ∧
      ∃ e' o', st'.entries = st.entries ++ [e'] ∧ e'.chunkHash = e.chunkHash ∧ e'.out = some o' ∧
        o'.dedupFlag = o.dedupFlag ∧ o'.chunkHash = o.chunkHash ∧ o'.chunkAddr = v := by
  cases hstores with
  | listed s calls buffer hcalls hready =>
      dsimp only at hcreated ⊢
      rw [← hc] at hcreated ⊢
      obtain ⟨F', abs', h'⟩ := (h.congr hready.shelves).whole henv c e.chunkAddr o.superfeature hnew
        hcreated
      exact ⟨F', abs', _, h', hready.carried.trans (EcallFreqIndex.carried_processSheUniqueChunk ..).1,
        _, _, rfl, rfl, rfl, rfl, rfl, rfl⟩
  | logged hflag hd =>
      dsimp only at hcreated ⊢
      rw [← hc] at hcreated ⊢
      obtain ⟨F', abs', h'⟩ := h.whole henv c e.chunkAddr o.superfeature hnew hcreated
      exact ⟨F', abs', _, h', (EcallFreqIndex.carried_processSheUniqueChunk ..).1,
        _, _, rfl, rfl, rfl, rfl, rfl, rfl⟩
  | delta s buffer t hflag hd hready hshort =>
      rw [← hc] at hshort
      obtain ⟨F', abs', h'⟩ := (h.congr hready.shelves).delta henv
        (le_trans (le_of_lt hshort) c.2.2) e.chunkAddr o.superfeature hnew hcreated
      exact ⟨F', abs', _, h', hready.carried.trans (EcallFreqIndex.carried_processSheUniqueChunk ..).1,
        _, _, rfl, rfl, rfl, rfl, rfl, rfl⟩

/-! ## Clients come and go -/

/-- A new client opens two containers. -/
theorem login {s : Server} (hstock : Stock env F idx abs s.created)
    (h : Benches s.view (benchOf clients) F) (hnone : clients i = none) (l : Login)
    (hcreated : s.created + 2 ≤ names.distinct) : ∃ F', Housed env clients i (Session.start s l) F' idx abs := by
  have hslot : ∀ d, benchOf clients (i, d) = none := by
    intro d
    rw [benchOf, hnone]
    rfl
  have hbase := hstock.fresh (by omega) .base
  have hdelta := hbase.fresh (by omega) .delta
  refine ⟨_, hdelta, ?_⟩
  have hfirst := h.fresh (hslot .base) (hstock.next_none (by omega))
  have hsecond := hfirst.fresh (i := i) (d := .delta)
    (by rw [Function.update_of_ne (by simp), hslot]) (hbase.next_none (by omega))
  have hbench : benchOf (Function.update clients i (some (Session.start s l).client)) =
      Function.update (Function.update (benchOf clients) (i, .base)
        (some ⟨containerName s.created, [], []⟩)) (i, .delta)
        (some ⟨containerName (s.created + 1), [], []⟩) := by
    funext ⟨j, d⟩
    by_cases hj : j = i
    · subst hj
      rw [benchOf_self]
      cases d with
      | base => rw [Function.update_of_ne (by simp), Function.update_self]; rfl
      | delta => rw [Function.update_self]; rfl
    · rw [Function.update_of_ne (by simp [hj]), Function.update_of_ne (by simp [hj]),
        benchOf_of_ne _ hj]
  rw [hbench]
  exact hsecond

/-- A container goes out, or is given up if it is empty. -/
theorem leave {v v' : View} {b : Bench} {created : Nat} (hstock : Stock env F idx abs created)
    (h : Benches v b F) {d : Dir} {c : OpenContainer} (hc : b (i, d) = some c)
    (hv : ∀ d' n, v' d' n =
      if d' = d ∧ n = c.containerID ∧ c.buf ≠ [] then some c.buf else v d' n) :
    ∃ F', Stock env F' idx abs created ∧ Benches v' (Function.update b (i, d) none) F' := by
  by_cases hempty : c.buf = []
  · have hview : v' = v := by
      funext d' n
      rw [hv, if_neg (fun hn => hn.2.2 hempty)]
    obtain ⟨rs, hrs, hbuf⟩ := h.opened hc
    obtain rfl : rs = [] := by
      rcases rs with _ | ⟨r, rs⟩
      · rfl
      · have hlen := congrArg List.length (hempty.symm.trans hbuf)
        have hpos := records.bytes_pos r
        rw [Layout.flat_cons, List.length_append, List.length_nil] at hlen
        omega
    rw [hview]
    exact ⟨_, hstock.drop hrs, h.drop hc⟩
  · refine ⟨F, hstock, h.write hc fun d' n => ?_⟩
    rw [hv]
    simp only [hempty, ne_eq, not_false_iff, and_true]

/-- What the end of a session leaves: the end of the recipe file changes no
container. -/
theorem ended (env : Env) (s : Session) (head : BytesN 16) :
    (Clients.endSession env s head).view = (s.receive env (.recipeEnd head)).close.server.view ∧
      (Clients.endSession env s head).created =
        (s.receive env (.recipeEnd head)).close.server.created ∧
      (Clients.endSession env s head).db = s.server.db ∧
      (Clients.endSession env s head).insideDedupIndex = s.server.insideDedupIndex := by
  have hclosed := Session.closed_close (s.receive env (.recipeEnd head))
  have hdb := hclosed.db
  have hheap := hclosed.heap
  rw [server_recipeEnd] at hdb hheap
  unfold Clients.endSession
  generalize (s.receive env (.recipeEnd head)).close = t at hdb hheap ⊢
  exact ⟨rfl, rfl, hdb, hheap⟩

/-- The session of a client ends. -/
theorem finish {s : Session} (h : Housed env clients i s F idx abs) (head : BytesN 16) :
    ∃ F', Stock env F' idx abs (Clients.endSession env s head).created ∧
      Benches (Clients.endSession env s head).view (benchOf (Function.update clients i none)) F' := by
  have hbody : ∀ d, (s.client.cur d).body = [] := fun d =>
    (h.benches.closed (benchOf_self clients i s.client d)).2
  have hserver := server_recipeEnd env s head
  have hcur := cur_recipeEnd env head hbody
  have hcreated : s.server.created ≤ (Clients.endSession env s head).created := by
    rw [(ended env s head).2.1, ← hserver]
    exact created_close _
  have hview : ∀ d n, (Clients.endSession env s head).view d n =
      if n = (s.client.cur d).containerID ∧ (s.client.cur d).buf ≠ [] then
        some (s.client.cur d).buf else s.server.view d n := by
    intro d n
    have hclose := view_close (s.receive env (.recipeEnd head)) d n
    rw [hcur, hserver] at hclose
    rw [(ended env s head).1, hclose]
  -- one directory after the other
  obtain ⟨v, hv⟩ : ∃ v : View, ∀ d n, v d n =
      if d = .base ∧ n = (s.client.cur .base).containerID ∧ (s.client.cur .base).buf ≠ [] then
        some (s.client.cur .base).buf else s.server.view d n := ⟨_, fun _ _ => rfl⟩
  obtain ⟨G, hG, hbase⟩ := leave h.stock h.benches (benchOf_self clients i s.client .base) hv
  have hlast : ∀ d n, (Clients.endSession env s head).view d n =
      if d = .delta ∧ n = (s.client.cur .delta).containerID ∧ (s.client.cur .delta).buf ≠ [] then
        some (s.client.cur .delta).buf else v d n := by
    intro d n
    rw [hview, hv]
    cases d <;> simp
  obtain ⟨F', hF', hdelta⟩ := leave (i := i) hG hbase
    (by rw [Function.update_of_ne (by simp), benchOf_self]) hlast
  rw [← benchOf_none] at hdelta
  exact ⟨F', hF'.mono hcreated, hdelta⟩

end Housed

end ShieldReduce
