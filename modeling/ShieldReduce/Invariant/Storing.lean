import ShieldReduce.Invariant.Session
import ShieldReduce.Invariant.Batch
import ShieldReduce.Invariant.Ledger

/-!
# Storing a batch

The store loop of `ProcessOneBatch`. While it runs the index store stays
as it was at the start of the batch, and what the loop has learned is
written to it at the end. The invariant is therefore about the index
store as it would be if the batch ended here (`applied`).

Three ways a chunk can go are told apart in `offlinedeltaTure_cases`: it
is stored whole and listed, it is stored whole and logged as the
replacement of a base, or it is encoded against a base.
-/

namespace ShieldReduce

open ByteLib UMapLib TilingLib CatalogLib

namespace EcallFreqIndex

variable {env : Env} {P : Chunk → Prop}

/-! ## The index store, if the batch ended here -/

/-- The pairs of the batch go to the log or to the index of delta chunks. -/
def insertPairs (localFlag : Bool) (db : InMemoryDatabase) (pairs process : List (Fp × Fp)) :
    InMemoryDatabase :=
  if localFlag then pairs.foldl (fun db p => db.localInsert p.1 p.2) db
  else process.foldl (fun db p => db.insertDeltaIndex p.1 p.2) db

def applied (localFlag : Bool) (db : InMemoryDatabase) (st : Storing) : InMemoryDatabase :=
  (st.entries.filterMap InQueryEntry.out).foldl updateOutIndex
    (insertPairs localFlag db st.batchBasemap st.processBuffer)

theorem db_finishBatch (env : Env) (localFlag : Bool) (st : Storing) :
    (finishBatch env localFlag st).server.db = applied localFlag st.session.server.db st := by
  cases localFlag <;> rfl

theorem queryBuffer_updateOutIndex (db : InMemoryDatabase) (o : OutQueryEntry) :
    (updateOutIndex db o).queryBuffer = if o.dedupFlag = .unique then
      Function.update db.queryBuffer o.chunkHash (some o.chunkAddr) else db.queryBuffer := by
  unfold updateOutIndex
  by_cases hu : o.dedupFlag = .unique
  · rw [if_pos hu, if_pos hu, ← InMemoryDatabase.queryBuffer_insertBothBuffer]
    dsimp only
    split <;> rfl
  · rw [if_neg hu, if_neg hu]

theorem queryBuffer_insertPairs (localFlag : Bool) (db : InMemoryDatabase)
    (pairs process : List (Fp × Fp)) :
    (insertPairs localFlag db pairs process).queryBuffer = db.queryBuffer := by
  cases localFlag with
  | false =>
      show (process.foldl _ db).queryBuffer = _
      induction process generalizing db with
      | nil => rfl
      | cons p process ih => exact ih (db.insertDeltaIndex p.1 p.2)
  | true =>
      show (pairs.foldl _ db).queryBuffer = _
      induction pairs generalizing db with
      | nil => rfl
      | cons p pairs ih => exact ih (db.localInsert p.1 p.2)

theorem updateOutIndex_localInsert (db : InMemoryDatabase) (b f : Fp) (o : OutQueryEntry) :
    updateOutIndex (db.localInsert b f) o = (updateOutIndex db o).localInsert b f := by
  unfold updateOutIndex
  split
  · split <;> rfl
  · rfl

theorem updateOutIndex_insertDeltaIndex (db : InMemoryDatabase) (b f : Fp) (o : OutQueryEntry) :
    updateOutIndex (db.insertDeltaIndex b f) o = (updateOutIndex db o).insertDeltaIndex b f := by
  unfold updateOutIndex
  split
  · split <;> rfl
  · rfl

/-- The pairs and the index entries are written in either order. -/
theorem foldl_updateOutIndex_insertPairs (localFlag : Bool) (os : List OutQueryEntry) :
    ∀ (db : InMemoryDatabase) (pairs process : List (Fp × Fp)),
      os.foldl updateOutIndex (insertPairs localFlag db pairs process) =
        insertPairs localFlag (os.foldl updateOutIndex db) pairs process := by
  induction os with
  | nil => exact fun db pairs process => rfl
  | cons o os ih =>
      intro db pairs process
      have hstep : updateOutIndex (insertPairs localFlag db pairs process) o =
          insertPairs localFlag (updateOutIndex db o) pairs process := by
        cases localFlag
        · show updateOutIndex (process.foldl _ db) o = process.foldl _ (updateOutIndex db o)
          induction process generalizing db with
          | nil => rfl
          | cons p process ihp =>
              rw [List.foldl_cons, List.foldl_cons, ihp, updateOutIndex_insertDeltaIndex]
        · show updateOutIndex (pairs.foldl _ db) o = pairs.foldl _ (updateOutIndex db o)
          induction pairs generalizing db with
          | nil => rfl
          | cons p pairs ihp =>
              rw [List.foldl_cons, List.foldl_cons, ihp, updateOutIndex_localInsert]
      rw [List.foldl_cons, List.foldl_cons, hstep, ih]

/-- One more entry with its pairs. -/
theorem applied_snoc (localFlag : Bool) (db : InMemoryDatabase) (st : Storing) (s : Session)
    (e : InQueryEntry) {o : OutQueryEntry} (ho : e.out = some o) (pairs process : List (Fp × Fp)) :
    applied localFlag db ⟨s, st.entries ++ [e], st.batchBasemap ++ pairs,
        st.processBuffer ++ process⟩ =
      updateOutIndex (insertPairs localFlag (applied localFlag db st) pairs process) o := by
  have hsplit : ∀ db, insertPairs localFlag db (st.batchBasemap ++ pairs)
      (st.processBuffer ++ process) = insertPairs localFlag
        (insertPairs localFlag db st.batchBasemap st.processBuffer) pairs process := by
    intro db
    cases localFlag
    · exact List.foldl_append ..
    · exact List.foldl_append ..
  have hout : [e].filterMap InQueryEntry.out = [o] := by simp [ho]
  unfold applied
  simp only
  rw [List.filterMap_append, hout, List.foldl_append, hsplit, foldl_updateOutIndex_insertPairs]
  rfl

/-- One more entry that was no news. -/
theorem applied_snoc_same (localFlag : Bool) (db : InMemoryDatabase) (st : Storing)
    (e : InQueryEntry) (he : ∀ o, e.out = some o → o.dedupFlag ≠ .unique) :
    applied localFlag db { st with entries := st.entries ++ [e] } = applied localFlag db st := by
  unfold applied
  simp only
  rw [List.filterMap_append, List.foldl_append]
  cases ho : e.out with
  | none => simp [ho]
  | some o => simp [ho, updateOutIndex, he o ho]

/-! ## Which way a chunk goes -/

/-- The server's part that `OfflinedeltaTure` and `ProcessDeltachunk` leave
alone. -/
structure SameStore (s s' : Server) : Prop where
  db : s'.db = s.db
  recipes : s'.recipes = s.recipes
  containers : s'.containers = s.containers
  created : s'.created = s.created
  heap : s'.insideDedupIndex = s.insideDedupIndex

/-- Every cached container begins with its file. -/
structure CacheOk (s : Server) : Prop where
  valid : s.inContainercache.Valid
  cached : ∀ n data, s.inContainercache.Caches n data →
    ∃ file, (s.containers .base).lookup n = some file ∧ file <+: data

/-- The container that is handed to the encoder: the copy in the cache, or the
file. -/
structure FetchOk (s s' : Server) (name : ContainerName) (buffer : Bytes) : Prop where
  same : SameStore s s'
  encodes : s'.encodes = s.encodes
  cache : CacheOk s → CacheOk s'
  source : s.inContainercache.Caches name buffer ∨
    ∃ file, (s.containers .base).lookup name = some file ∧ file <+: buffer

/-- It holds the file of the base's container, provided that the cache does. -/
theorem FetchOk.buffer {s s' : Server} {name : ContainerName} {buffer : Bytes}
    (h : FetchOk s s' name buffer) (hc : CacheOk s) :
    ∃ file, (s.containers .base).lookup name = some file ∧ file <+: buffer :=
  h.source.elim (hc.cached name buffer) id

theorem fetch_cached {s : Server} {name : ContainerName}
    (hc : s.inContainercache.existsInCache name = true) :
    FetchOk s { s with inContainercache := (s.inContainercache.readFromCache name).2 } name
      (s.inContainercache.readFromCache name).1 where
  same := ⟨rfl, rfl, rfl, rfl, rfl⟩
  encodes := rfl
  cache := by
    rintro ⟨hv, hcached⟩
    exact ⟨hv.touch name, fun n data hn => hcached n data (InContainercache.Caches.of_touch hn)⟩
  source := Or.inl (InContainercache.caches_readFromCache hc)

theorem fetch_file {s : Server} {name : ContainerName} {file : Bytes}
    (hc : s.inContainercache.existsInCache name = false)
    (hfile : (s.containers .base).lookup name = some file) :
    FetchOk s
      { s.readContainer file with
        inContainercache := ((s.readContainer file).inContainercache.insertToCacheOffline name
          (s.readContainer file).tmpOcallcontainer) }
      name (s.readContainer file).tmpOcallcontainer where
  same := ⟨rfl, rfl, rfl, rfl, rfl⟩
  encodes := rfl
  cache := by
    rintro ⟨hv, hcached⟩
    refine ⟨hv.insertToCacheOffline hc _, fun n data hn => ?_⟩
    rcases InContainercache.Caches.of_insert hv hc hn with ⟨rfl, rfl⟩ | hn
    · exact ⟨file, hfile, prefix_writeAt _ _⟩
    · exact hcached n data hn
  source := Or.inr ⟨file, hfile, prefix_writeAt _ _⟩

/-- The three ways of `OfflinedeltaTure`, for a chunk that is new. -/
theorem offlinedeltaTure_cases (localFlag : Bool) (s : Server) (e : InQueryEntry) {o : OutQueryEntry}
    (hdelta : o.deltaFlag = .noDelta ∨ o.deltaFlag = .outDelta) :
    (offlinedeltaTure localFlag s e o = (s, { o with deltaFlag := .noDelta }, [])) ∨
    (localFlag = true ∧ o.deltaFlag = .outDelta ∧ offlinedeltaTure localFlag s e o =
      (s, { o with deltaFlag := .noDelta, offlineFlag := true },
        [(o.basechunkHash, o.chunkHash)])) ∨
    (localFlag = false ∧ o.deltaFlag = .outDelta ∧ ∃ s' buffer,
      FetchOk s s' e.basechunkAddr.containerName buffer ∧ offlinedeltaTure localFlag s e o =
        (s', { o with containerbuffer := buffer, deltaFlag := .delta }, [])) := by
  unfold offlinedeltaTure
  by_cases hex : isExcluded e.chunkHash = true
  · rw [if_pos hex]
    exact Or.inl rfl
  rw [if_neg hex]
  rcases hdelta with hd | hd
  · rw [if_neg (by rw [hd]; simp)]
    refine Or.inl ?_
    rw [← hd]
  rw [if_pos hd]
  cases localFlag with
  | true => exact Or.inr (Or.inl ⟨rfl, hd, rfl⟩)
  | false =>
      rw [if_neg (by simp)]
      refine Or.elim (Bool.eq_false_or_eq_true
        (s.inContainercache.existsInCache e.basechunkAddr.containerName)) (fun hc => ?_) fun hc => ?_
      · simp only [hc, if_true]
        exact Or.inr (Or.inr ⟨trivial, hd, _, _, fetch_cached hc, rfl⟩)
      · simp only [hc, Bool.false_eq_true, if_false]
        cases hfile : (s.containers .base).lookup e.basechunkAddr.containerName with
        | none => exact Or.inl rfl
        | some file => exact Or.inr (Or.inr ⟨trivial, hd, _, _, fetch_file hc hfile, rfl⟩)

/-! ## One chunk is stored -/

variable [names : ContainerNames]

theorem carried_processSheUniqueChunk (env : Env) (s : Session) (chunkAddr : RecipeEntry)
    (chunk : Bytes) (sf : Sf) (fp : Fp) :
    Carried s (s.processSheUniqueChunk env chunkAddr chunk sf fp).2 ∧
      (s.processSheUniqueChunk env chunkAddr chunk sf fp).2.server.inContainercache =
        s.server.inContainercache ∧
      (s.processSheUniqueChunk env chunkAddr chunk sf fp).2.server.encodes = s.server.encodes := by
  have hfirst : ∀ (iv : Iv) (n : UInt64), Carried s { s with
      client := { s.client with iv := iv }
      server := { s.server with onlineBackupSize := n } } :=
    fun iv n => ⟨rfl, rfl, rfl, le_refl _, rfl, rfl, rfl, rfl, rfl⟩
  unfold Session.processSheUniqueChunk
  dsimp only
  split
  · obtain ⟨hcarried, hcache, hencodes⟩ := Session.carried_saveChunk _ .base _ _ _ _
    exact ⟨(hfirst _ _).trans hcarried, hcache, hencodes⟩
  · obtain ⟨hcarried, hcache, hencodes⟩ := Session.carried_saveChunk _ .delta _ _ _ _
    exact ⟨(hfirst _ _).trans hcarried, hcache, hencodes⟩

variable {F : Containers} {idx : Fp → Option Cipher} {abs : Fp → Option Content}

/-- Every file stays. -/
theorem kept_processSheUniqueChunk {s : Session} (h : Shelved s F) (chunkAddr : RecipeEntry)
    (chunk : Bytes) (sf : Sf) (fp : Fp) {d : Dir} {n : ContainerName} {file : Bytes}
    (hfile : s.server.view d n = some file) :
    (s.processSheUniqueChunk env chunkAddr chunk sf fp).2.server.view d n = some file := by
  have hfirst : ∀ (iv : Iv) (n : UInt64), Shelved { s with
      client := { s.client with iv := iv }
      server := { s.server with onlineBackupSize := n } } F :=
    fun iv n => ⟨h.opened, h.files, h.closed⟩
  unfold Session.processSheUniqueChunk Session.savebaseChunk Session.savedeltaChunk
  dsimp only
  split
  · exact (hfirst _ _).kept_saveChunk .base _ _ _ _ hfile
  · exact (hfirst _ _).kept_saveChunk .delta _ _ _ _ hfile

/-- A chunk that is stored whole. -/
theorem stocked_whole (henv : env.Lawful) {s : Session} (h : Stocked env s F idx abs) (c : Chunk)
    (a : RecipeEntry) (sf : Sf) {fp : Fp} (hnew : idx fp = none)
    (hcreated : (s.processSheUniqueChunk env { a with deltaFlag := NO_DELTA } c.1 sf
      fp).2.server.created ≤ names.distinct) :
    ∃ F', Stocked env (s.processSheUniqueChunk env { a with deltaFlag := NO_DELTA } c.1 sf fp).2 F'
      (Function.update idx fp (some (env.encEntry
        (s.processSheUniqueChunk env { a with deltaFlag := NO_DELTA } c.1 sf fp).1)))
      (Function.update abs fp (some ⟨NO_DELTA, a.basechunkHash, sf, env.pack c.1⟩)) := by
  have hsize : (env.encryptWithKeyIV (env.pack c.1) (pickNewIV s.client.iv)).length ≤
      MAX_CHUNK_SIZE := by
    rw [henv.length_keyIV]
    exact le_trans (henv.length_pack c).2 c.2.2
  have hnext : Stocked env { s with
      client := { s.client with iv := pickNewIV s.client.iv }
      server := { s.server with
        onlineBackupSize := s.server.onlineBackupSize + UInt64.ofNat (env.pack c.1).length } }
      F idx abs := h.congr ⟨rfl, rfl, rfl⟩
  obtain ⟨F', hF'⟩ := hnext.saveChunk (d := .base)
    { a with deltaFlag := NO_DELTA, superfeature := sf } sf hsize rfl hnew hcreated
  rw [henv.keyIV] at hF'
  exact ⟨F', hF'⟩

/-- A chunk that is stored as a delta. -/
theorem stocked_delta (henv : env.Lawful) {s : Session} (h : Stocked env s F idx abs) {delta : Bytes}
    (hdelta : delta.length ≤ MAX_CHUNK_SIZE) (a : RecipeEntry) (sf : Sf) {fp : Fp}
    (hnew : idx fp = none)
    (hcreated : (s.processSheUniqueChunk env { a with deltaFlag := DELTA } delta sf
      fp).2.server.created ≤ names.distinct) :
    ∃ F', Stocked env (s.processSheUniqueChunk env { a with deltaFlag := DELTA } delta sf fp).2 F'
      (Function.update idx fp (some (env.encEntry
        (s.processSheUniqueChunk env { a with deltaFlag := DELTA } delta sf fp).1)))
      (Function.update abs fp (some ⟨DELTA, a.basechunkHash, a.superfeature, delta⟩)) := by
  have hsize : (env.encryptWithKeyIV delta (pickNewIV s.client.iv)).length ≤ MAX_CHUNK_SIZE := by
    rwa [henv.length_keyIV]
  have hnext : Stocked env { s with
      client := { s.client with iv := pickNewIV s.client.iv }
      server := { s.server with
        onlineBackupSize := s.server.onlineBackupSize + UInt64.ofNat delta.length } }
      F idx abs := h.congr ⟨rfl, rfl, rfl⟩
  obtain ⟨F', hF'⟩ := hnext.saveChunk (d := .delta) { a with deltaFlag := DELTA } sf hsize rfl hnew
    hcreated
  rw [henv.keyIV] at hF'
  exact ⟨F', hF'⟩

/-! ## The base of a delta -/

/-- The base that is found in a copy of its container. -/
def baseIn (env : Env) (buffer : Bytes) (a : RecipeEntry) : Bytes :=
  env.unpack (env.decryptionWithKeyIV (getChunkContent buffer a) (getChunkIV buffer a))

omit names in
theorem length_baseIn (henv : env.Lawful) {a : RecipeEntry} (ha : a.length.toNat ≤ MAX_CHUNK_SIZE)
    (buffer : Bytes) : (baseIn env buffer a).length ≤ MAX_CHUNK_SIZE := by
  refine henv.length_unpack ?_
  rwa [henv.length_decKeyIV, getChunkContent, length_slice]

/-- A base that is stored whole: the length that its entry says, and what a
copy of its container gives if that container is a file. -/
theorem base_found (henv : env.Lawful) {s : Session} (h : Stocked env s F idx abs) {b : Fp}
    {c : Content} (hb : abs b = some c) (hflag : c.deltaFlag = NO_DELTA) {v : Cipher}
    (hv : idx b = some v) :
    (env.decEntry v).length.toNat = c.data.length ∧
      ∀ file buffer, s.server.view .base (env.decEntry v).containerName = some file →
        file <+: buffer → baseIn env buffer (env.decEntry v) = env.unpack c.data ∧
          (s.server.db.queryBuffer b = some v →
            s.server.plaintext env b = some (env.unpack c.data)) := by
  obtain ⟨d, n, r, hr, rfl, hidx, rfl⟩ := h.stock.rep.found hb
  have hplaced := h.stock.rep.placed hr
  rw [hidx] at hv
  obtain rfl := Option.some.inj hv
  rw [henv.decEntry_encEntry]
  have hd : d = .base := by
    have hrflag := h.stock.rep.flag hr
    cases d
    · rfl
    · exact absurd (hflag.symm.trans hrflag) noDelta_ne_delta
  subst hd
  refine ⟨?_, ?_⟩
  · rw [hplaced.2]
    exact (henv.length_decKeyIV r.payload r.iv).symm
  · intro file buffer hfile hpre
    rw [hplaced.1] at hfile
    obtain ⟨rs, hrs, hmem⟩ := hr
    -- a container that is still open is no file
    have hclosed : n ≠ (s.client.cur .base).containerID := by
      rintro rfl
      rw [h.shelved.closed .base] at hfile
      cases hfile
    have hflat : file = records.flat rs := by
      have := h.shelved.files .base n hclosed
      rw [hfile, hrs] at this
      exact Option.some.inj this
    have hholds := h.stock.rep.holds hrs
    rw [← hflat] at hholds
    refine ⟨?_, ?_⟩
    · have hfound := hholds.found hmem hpre
      rw [baseIn, hfound.getChunkContent hplaced, hfound.getChunkIV hplaced]
      rfl
    · intro hdb
      have hview : s.server.view.file n = some file := by
        rw [View.file, hfile]
      have hread := readData_of_found henv hdb hplaced hview (hholds.found hmem (List.prefix_refl _))
      have hne : r.entry.deltaFlag ≠ DELTA := fun heq => noDelta_ne_delta (hflag.symm.trans heq)
      simp only [Server.plaintext, plaintext, hread, Option.bind_eq_bind, Option.bind_some, hne,
        if_false]
      rfl

/-! ## A chunk that is new -/

/-- The entry of a chunk that was stored. -/
def storedEntry (env : Env) (e : InQueryEntry) (o : OutQueryEntry) (chunkAddr : RecipeEntry) :
    InQueryEntry :=
  { e with chunkAddr := chunkAddr, out := some ({ o with chunkAddr := env.encEntry chunkAddr }) }

/-- What has been done before a chunk is stored: a base container was fetched,
and the chunk was encoded against each of `calls`. -/
structure Readied (env : Env) (s s' : Session) (e : InQueryEntry) (o : OutQueryEntry)
    (calls : List Bytes) : Prop where
  carried : Carried s s'
  shelves : SameShelves s s'
  cache : CacheOk s.server → CacheOk s'.server
  encodes : s'.server.encodes = s.server.encodes ++
    calls.map fun buffer => ⟨o.basechunkHash, baseIn env buffer e.basechunkAddr,
      s.server.plaintext env o.basechunkHash⟩
  source : ∀ buffer ∈ calls,
    s.server.inContainercache.Caches e.basechunkAddr.containerName buffer ∨
      ∃ file, s.server.view .base e.basechunkAddr.containerName = some file ∧ file <+: buffer

omit names in
theorem Readied.refl (env : Env) (s : Session) (e : InQueryEntry) (o : OutQueryEntry) :
    Readied env s s e o [] where
  carried := .refl s
  shelves := ⟨rfl, rfl, rfl⟩
  cache := fun h => h
  encodes := (List.append_nil _).symm
  source := fun buffer hb => by cases hb

omit names in
theorem Readied.buffer {s s' : Session} {e : InQueryEntry} {o : OutQueryEntry} {calls : List Bytes}
    (h : Readied env s s' e o calls) (hc : CacheOk s.server) : ∀ buffer ∈ calls, ∃ file,
      s.server.view .base e.basechunkAddr.containerName = some file ∧ file <+: buffer :=
  fun buffer hb => (h.source buffer hb).elim (hc.cached _ buffer) id

/-- The delta that the encoder makes. -/
def deltaOf (env : Env) (recvBuffer : Bytes) (t : Edelta.CleanTable) (e : InQueryEntry)
    (base : Bytes) : Bytes :=
  (Edelta.EcallFreqIndex.eDeltaEncode env.heuristics t (deltaJob recvBuffer e base)).1

/-- How a chunk that is new is stored: whole and listed, whole and logged, or
as a delta. -/
inductive Stores (env : Env) (recvBuffer : Bytes) (localFlag : Bool) (st : Storing) (e : InQueryEntry)
    (o : OutQueryEntry) : Storing → Prop where
  | listed (s : Session) (calls : List Bytes) (buffer : Bytes)
      (hcalls : calls ≠ [] → localFlag = false ∧ o.deltaFlag = .outDelta)
      (hready : Readied env st.session s e o calls) :
      Stores env recvBuffer localFlag st e o
        (let p := s.processSheUniqueChunk env { e.chunkAddr with deltaFlag := NO_DELTA } e.chunk
          o.superfeature o.chunkHash
        ⟨p.2, st.entries ++
          [storedEntry env e { o with containerbuffer := buffer, deltaFlag := .noDelta } p.1],
          st.batchBasemap, st.processBuffer⟩)
  | logged (hflag : localFlag = true) (hdelta : o.deltaFlag = .outDelta) :
      Stores env recvBuffer localFlag st e o
        (let p := st.session.processSheUniqueChunk env { e.chunkAddr with deltaFlag := NO_DELTA }
          e.chunk o.superfeature o.chunkHash
        ⟨p.2, st.entries ++
          [storedEntry env e { o with deltaFlag := .noDelta, offlineFlag := true } p.1],
          st.batchBasemap ++ [(o.basechunkHash, o.chunkHash)], st.processBuffer⟩)
  | delta (s : Session) (buffer : Bytes) (t : Edelta.CleanTable) (hflag : localFlag = false)
      (hdelta : o.deltaFlag = .outDelta) (hready : Readied env st.session s e o [buffer])
      (hshort : (deltaOf env recvBuffer t e (baseIn env buffer e.basechunkAddr)).length <
        e.chunk.length) :
      Stores env recvBuffer localFlag st e o
        (let p := s.processSheUniqueChunk env { e.chunkAddr with deltaFlag := DELTA }
          (deltaOf env recvBuffer t e (baseIn env buffer e.basechunkAddr)) o.superfeature o.chunkHash
        ⟨p.2, st.entries ++
          [storedEntry env e { o with containerbuffer := buffer, deltaFlag := .delta } p.1],
          st.batchBasemap, st.processBuffer ++ [(o.basechunkHash, o.chunkHash)]⟩)

theorem stores_storeUnique (recvBuffer : Bytes) (localFlag : Bool) (st : Storing) (e : InQueryEntry)
    {o : OutQueryEntry} (hdelta : o.deltaFlag = .noDelta ∨ o.deltaFlag = .outDelta) :
    Stores env recvBuffer localFlag st e o (storeUnique env recvBuffer localFlag st e o) := by
  rcases offlinedeltaTure_cases localFlag st.session.server e hdelta with
    heq | ⟨hflag, hd, heq⟩ | ⟨hflag, hd, s', buffer, hfetch, heq⟩
  · unfold storeUnique
    simp only [heq, reduceCtorEq, if_false, List.append_nil]
    exact .listed st.session [] o.containerbuffer (fun h => absurd rfl h) (.refl env _ e o)
  · unfold storeUnique
    simp only [heq, reduceCtorEq, if_false, List.append_nil]
    exact .logged hflag hd
  · -- the chunk is encoded, and then stored either way
    have hready : Readied env st.session
        (processDeltachunk env recvBuffer { st.session with server := s' } e
          { o with containerbuffer := buffer, deltaFlag := .delta }).2 e o [buffer] := by
      constructor
      · exact ⟨hfetch.same.db, hfetch.same.recipes, hfetch.same.heap, le_of_eq hfetch.same.created.symm,
          rfl, rfl, rfl, rfl, rfl⟩
      · refine ⟨?_, hfetch.same.created, rfl⟩
        funext d n
        exact congrArg (fun c => AList.lookup n (c d)) hfetch.same.containers
      · intro hc
        obtain ⟨hvalid, hcached⟩ := hfetch.cache hc
        exact ⟨hvalid, hcached⟩
      · have hplain : s'.plaintext env o.basechunkHash =
            st.session.server.plaintext env o.basechunkHash := by
          unfold Server.plaintext Server.view
          rw [hfetch.same.db, hfetch.same.containers]
        show s'.encodes ++ [_] = _
        rw [hfetch.encodes, ← hplain]
        rfl
      · intro b hb
        rw [List.mem_singleton.mp hb]
        exact hfetch.source
    by_cases hlong : e.chunk.length ≤ (deltaOf env recvBuffer st.session.client.psHTable e
        (baseIn env buffer e.basechunkAddr)).length
    · have hnone : (processDeltachunk env recvBuffer { st.session with server := s' } e
          { o with containerbuffer := buffer, deltaFlag := .delta }).1 = none := if_pos hlong
      unfold storeUnique
      simp only [heq, if_true, List.append_nil, hnone]
      exact .listed _ [buffer] buffer (fun _ => ⟨hflag, hd⟩) hready
    · have hsome : (processDeltachunk env recvBuffer { st.session with server := s' } e
          { o with containerbuffer := buffer, deltaFlag := .delta }).1 = some (deltaOf env recvBuffer
            st.session.client.psHTable e (baseIn env buffer e.basechunkAddr)) := if_neg hlong
      unfold storeUnique
      simp only [heq, if_true, List.append_nil, hsome]
      exact .delta _ buffer st.session.client.psHTable hflag hd hready (by omega)

/-! ## The store loop -/

/-- What holds while a batch is stored. The server was `s₀` and the contents
were `abs₀` when the loop began; the entries of `todo` are still to come. -/
structure StoreOk (env : Env) (P : Chunk → Prop) (localFlag : Bool) (s₀ : Server) (abs₀ : Fp → Option Content)
    (todo : List InQueryEntry) (st : Storing) (F : Containers) (abs : Fp → Option Content) :
    Prop where
  stocked : Stocked env st.session F (applied localFlag s₀.db st).queryBuffer abs
  ledger : Ledger env (applied localFlag s₀.db st) abs
  db : st.session.server.db = s₀.db
  heap : st.session.server.insideDedupIndex = s₀.insideDedupIndex
  keeps : ∀ f c, abs₀ f = some c → abs f = some c
  index : ∀ f v, s₀.db.queryBuffer f = some v →
    (applied localFlag s₀.db st).queryBuffer f = some v
  listed : ∀ f, s₀.db.InSF f → (applied localFlag s₀.db st).InSF f
  fresh : ∀ e ∈ todo, ∀ o, e.out = some o → s₀.db.queryBuffer o.chunkHash = none →
    abs o.chunkHash = none
  done : ∀ e ∈ st.entries, e.out ≠ none → (abs (env.indexAESCMCEnc e.chunkHash)).isSome
  cache : CacheOk s₀ → CacheOk st.session.server
  encodes : CacheOk s₀ → ∀ call ∈ st.session.server.encodes,
    call ∈ s₀.encodes ∨ call.plain = some call.baseBuf
  sound : CacheOk s₀ → env.Lz4Raw → Sound env P abs₀ → Sound env P abs

omit names in
theorem CacheOk.mono {s s' : Server} (h : CacheOk s) (hcache : s'.inContainercache = s.inContainercache)
    (hkept : ∀ n file, s.view .base n = some file → s'.view .base n = some file) : CacheOk s' := by
  constructor
  · rw [hcache]
    exact h.valid
  · intro n data hn
    rw [hcache] at hn
    obtain ⟨file, hfile, hpre⟩ := h.cached n data hn
    exact ⟨file, hkept n file hfile, hpre⟩

namespace StoreOk

variable {localFlag : Bool} {s₀ : Server} {abs₀ : Fp → Option Content} {todo : List InQueryEntry}
  {st : Storing}

/-- The recipe and the like may change. -/
theorem congr (h : StoreOk env P localFlag s₀ abs₀ todo st F abs) {s : Session}
    (hserver : s.server = st.session.server) (hcur : s.client.cur = st.session.client.cur) :
    StoreOk env P localFlag s₀ abs₀ todo { st with session := s } F abs where
  stocked := h.stocked.congr ⟨by rw [hserver], by rw [hserver], hcur⟩
  ledger := h.ledger
  db := by rw [hserver, h.db]
  heap := by rw [hserver, h.heap]
  keeps := h.keeps
  index := h.index
  listed := h.listed
  fresh := h.fresh
  done := h.done
  cache := by
    rw [hserver]
    exact h.cache
  encodes := by
    rw [hserver]
    exact h.encodes
  sound := h.sound

/-- A chunk was stored that is new. -/
theorem snoc {e : InQueryEntry} (h : StoreOk env P localFlag s₀ abs₀ (e :: todo) st F abs)
    {o : OutQueryEntry} (ho : e.out = some o) (o' : OutQueryEntry)
    (hhash : o.chunkHash = env.indexAESCMCEnc e.chunkHash)
    (hnew : s₀.db.queryBuffer o.chunkHash = none)
    (hdistinct : (((e :: todo).filterMap InQueryEntry.out).map OutQueryEntry.chunkHash).Nodup)
    {s : Session} {calls : List Bytes} (hready : Readied env st.session s e o calls)
    (hbase : CacheOk s₀ → ∀ buffer ∈ calls, st.session.server.plaintext env o.basechunkHash =
      some (baseIn env buffer e.basechunkAddr))
    {a : RecipeEntry} {data : Bytes} {sf : Sf} {c : Content} {F' : Containers}
    (pairs process : List (Fp × Fp))
    (hstocked : Stocked env (s.processSheUniqueChunk env a data sf o.chunkHash).2 F'
      (Function.update (applied localFlag s₀.db st).queryBuffer o.chunkHash
        (some (env.encEntry (s.processSheUniqueChunk env a data sf o.chunkHash).1)))
      (Function.update abs o.chunkHash (some c)))
    (hindex : (updateOutIndex (insertPairs localFlag (applied localFlag s₀.db st) pairs process)
        { o' with chunkAddr := env.encEntry (s.processSheUniqueChunk env a data sf
          o.chunkHash).1 }).queryBuffer =
      Function.update (applied localFlag s₀.db st).queryBuffer o.chunkHash
        (some (env.encEntry (s.processSheUniqueChunk env a data sf o.chunkHash).1)))
    (hlisted : ∀ f, (applied localFlag s₀.db st).InSF f →
      (updateOutIndex (insertPairs localFlag (applied localFlag s₀.db st) pairs process)
        { o' with chunkAddr := env.encEntry (s.processSheUniqueChunk env a data sf
          o.chunkHash).1 }).InSF f)
    (hledger : Ledger env
      (updateOutIndex (insertPairs localFlag (applied localFlag s₀.db st) pairs process)
        { o' with chunkAddr := env.encEntry (s.processSheUniqueChunk env a data sf
          o.chunkHash).1 }) (Function.update abs o.chunkHash (some c)))
    (hsound : CacheOk s₀ → env.Lz4Raw → Sound env P abs →
      Sound env P (Function.update abs o.chunkHash (some c))) :
    StoreOk env P localFlag s₀ abs₀ todo
      ⟨(s.processSheUniqueChunk env a data sf o.chunkHash).2,
        st.entries ++ [storedEntry env e o' (s.processSheUniqueChunk env a data sf o.chunkHash).1],
        st.batchBasemap ++ pairs, st.processBuffer ++ process⟩ F'
      (Function.update abs o.chunkHash (some c)) := by
  have happlied := applied_snoc localFlag s₀.db st
    (s.processSheUniqueChunk env a data sf o.chunkHash).2
    (storedEntry env e o' (s.processSheUniqueChunk env a data sf o.chunkHash).1) rfl pairs process
  obtain ⟨hcarried, hcache, hencodes⟩ :=
    carried_processSheUniqueChunk env s a data sf o.chunkHash
  have habs : abs o.chunkHash = none := h.fresh e (by simp) o ho hnew
  have hkeep : ∀ f c', abs f = some c' → Function.update abs o.chunkHash (some c) f = some c' := by
    intro f c' hf
    rw [Function.update_of_ne, hf]
    rintro rfl
    rw [habs] at hf
    cases hf
  constructor
  · rw [happlied, hindex]
    exact hstocked
  · rw [happlied]
    exact hledger
  · exact (hready.carried.trans hcarried).db.trans h.db
  · exact (hready.carried.trans hcarried).heap.trans h.heap
  · exact fun f c' hf => hkeep f c' (h.keeps f c' hf)
  · intro f v hf
    rw [happlied, hindex, Function.update_of_ne, h.index f v hf]
    rintro rfl
    rw [hnew] at hf
    cases hf
  · intro f hf
    rw [happlied]
    exact hlisted f (h.listed f hf)
  · intro e' he' o'' ho'' hnew'
    rw [Function.update_of_ne]
    · exact h.fresh e' (by simp [he']) o'' ho'' hnew'
    · intro heq
      rw [List.filterMap_cons, ho, List.map_cons, List.nodup_cons] at hdistinct
      exact hdistinct.1 (List.mem_map.mpr ⟨o'', List.mem_filterMap.mpr ⟨e', he', ho''⟩, heq⟩)
  · intro e' he' hout
    rcases List.mem_append.mp he' with he' | he'
    · obtain ⟨c', hc'⟩ := Option.isSome_iff_exists.mp (h.done e' he' hout)
      rw [hkeep _ c' hc']
      rfl
    · rw [List.mem_singleton.mp he']
      show (Function.update abs o.chunkHash (some c) (env.indexAESCMCEnc e.chunkHash)).isSome = true
      rw [← hhash, Function.update_self]
      rfl
  · intro hc
    refine (hready.cache (h.cache hc)).mono hcache fun n file hfile => ?_
    exact kept_processSheUniqueChunk (h.stocked.congr hready.shelves).shelved a data sf _ hfile
  · intro hc call hcall
    have hcall' : call ∈ s.server.encodes := by rwa [← hencodes]
    rw [hready.encodes, List.mem_append] at hcall'
    rcases hcall' with hcall' | hcall'
    · exact h.encodes hc call hcall'
    · obtain ⟨buffer, hbuffer, rfl⟩ := List.mem_map.mp hcall'
      exact Or.inr (hbase hc buffer hbuffer)
  · exact fun hc hraw h₀ => hsound hc hraw (h.sound hc hraw h₀)

/-- The base that the queries found for a chunk. -/
theorem base (h : StoreOk env P localFlag s₀ abs₀ todo st F abs)
    (hsf : ∀ f, s₀.db.InSF f → (s₀.db.queryBuffer f).isSome) {e : InQueryEntry} {o : OutQueryEntry}
    (hprep : Prepared env s₀.db e o) (hu : o.dedupFlag = .unique) (hd : o.deltaFlag = .outDelta) :
    (applied localFlag s₀.db st).InSF o.basechunkHash ∧
      e.chunkAddr.basechunkHash = o.basechunkHash ∧
      ∃ c v, abs o.basechunkHash = some c ∧ c.deltaFlag = NO_DELTA ∧
        s₀.db.queryBuffer o.basechunkHash = some v ∧ e.basechunkAddr = env.decEntry v := by
  rcases hprep.delta hu with hno | ⟨-, hin, haddr, hv⟩
  · rw [hd] at hno
    cases hno
  · have hin' := h.listed _ hin
    obtain ⟨c, hc, hflag⟩ := h.ledger.linked.InSF_whole hin'
    obtain ⟨v, hv'⟩ := Option.isSome_iff_exists.mp (hsf _ hin)
    exact ⟨hin', haddr, c, v, hc, hflag, hv', hv v hv'⟩

/-- What the encoder gets as the base, if the cache holds what the files do. -/
theorem base_text (henv : env.Lawful) {e : InQueryEntry} {o : OutQueryEntry}
    (h : StoreOk env P localFlag s₀ abs₀ todo st F abs) {s : Session} {calls : List Bytes}
    (hready : Readied env st.session s e o calls) {c : Content} {v : Cipher}
    (hc : abs o.basechunkHash = some c) (hflag : c.deltaFlag = NO_DELTA)
    (hv : s₀.db.queryBuffer o.basechunkHash = some v) (ha : e.basechunkAddr = env.decEntry v)
    (hcache : CacheOk s₀) : ∀ buffer ∈ calls, baseIn env buffer e.basechunkAddr = env.unpack c.data ∧
      st.session.server.plaintext env o.basechunkHash =
        some (baseIn env buffer e.basechunkAddr) := by
  intro buffer hbuffer
  obtain ⟨file, hfile, hpre⟩ := hready.buffer (h.cache hcache) buffer hbuffer
  rw [ha] at hfile ⊢
  obtain ⟨hbase, hplain⟩ :=
    (base_found henv h.stocked hc hflag (h.index _ v hv)).2 file buffer hfile hpre
  refine ⟨hbase, ?_⟩
  rw [hbase]
  refine hplain ?_
  rw [h.db, hv]

/-- One chunk that is new to the store. -/
theorem storeUnique (henv : env.Lawful) {e : InQueryEntry} {o : OutQueryEntry} {recvBuffer : Bytes}
    (h : StoreOk env P localFlag s₀ abs₀ (e :: todo) st F abs)
    (hsf : ∀ f, s₀.db.InSF f → (s₀.db.queryBuffer f).isSome) (ho : e.out = some o)
    (hprep : Prepared env s₀.db e o) (hu : o.dedupFlag = .unique) (chunk : Chunk)
    (hP : P chunk) (hchunk : chunk.1 = e.chunk) (hhash : e.chunkHash = env.generateHash e.chunk)
    (htext : slice (memOf (recvBuffer.drop e.currentOffset)) 0 e.chunk.length = e.chunk)
    (hdistinct : (((e :: todo).filterMap InQueryEntry.out).map OutQueryEntry.chunkHash).Nodup)
    (hcreated : (EcallFreqIndex.storeUnique env recvBuffer localFlag st e o).session.server.created ≤
      names.distinct) :
    ∃ F' abs', StoreOk env P localFlag s₀ abs₀ todo
      (EcallFreqIndex.storeUnique env recvBuffer localFlag st e o) F' abs' := by
  have hnew : s₀.db.queryBuffer o.chunkHash = none := by
    rcases hprep.flag with ⟨hdup, -⟩ | ⟨-, hnone⟩
    · rw [hu] at hdup
      cases hdup
    · exact hnone
  have habs : abs o.chunkHash = none := h.fresh e (by simp) o ho hnew
  have hidx := h.stocked.stock.rep.catalog.known _ habs
  have hoff := hprep.offline hu
  have hfp : env.fp chunk.1 = o.chunkHash := by
    rw [hprep.hash, hhash, Env.fp, hchunk]
  have hnil : ∀ db, insertPairs localFlag db [] [] = db := by
    intro db
    cases localFlag <;> rfl
  -- a chunk that is stored whole
  have hwhole : ∀ (b : Fp), Content.Ok env o.chunkHash
      ⟨NO_DELTA, b, o.superfeature, env.pack chunk.1⟩ := fun b =>
    ⟨le_trans (henv.length_pack chunk).2 chunk.2.2, fun _ => ⟨chunk, hfp, rfl⟩,
      fun hf => absurd hf noDelta_ne_delta⟩
  have hwholeSound : ∀ b, CacheOk s₀ → env.Lz4Raw → Sound env P abs → Sound env P (Function.update abs
      o.chunkHash (some ⟨NO_DELTA, b, o.superfeature, env.pack chunk.1⟩)) :=
    fun b _ hraw hs => hs.add h.ledger.linked habs ⟨chunk, hP, hfp, by
      rw [plainOf_whole (Function.update_self ..) rfl, henv.unpack_pack hraw]⟩
  have hstores : Stores env recvBuffer localFlag st e o _ := stores_storeUnique recvBuffer localFlag st e
    ((hprep.delta hu).imp_right fun hd => hd.1)
  generalize EcallFreqIndex.storeUnique env recvBuffer localFlag st e o = st' at hstores hcreated
  cases hstores with
  | listed s calls buffer hcalls hready =>
      obtain ⟨F', hF'⟩ := stocked_whole henv (h.stocked.congr hready.shelves) chunk e.chunkAddr
        o.superfeature hidx (by rw [hchunk]; exact hcreated)
      rw [hchunk] at hF'
      have hstep := h.snoc ho { o with containerbuffer := buffer, deltaFlag := .noDelta } hprep.hash
        hnew hdistinct hready ?_ [] [] hF' ?_ ?_ ?_
        (by rw [← hchunk]; exact hwholeSound e.chunkAddr.basechunkHash)
      · simp only [List.append_nil] at hstep
        exact ⟨_, _, hstep⟩
      · intro hcache b hb
        obtain ⟨-, -, c, v, hc, hflag, hv, ha⟩ := h.base hsf hprep hu
          (hcalls (List.ne_nil_of_mem hb)).2
        exact (h.base_text henv hready hc hflag hv ha hcache b hb).2
      · rw [hnil, updateOutIndex, if_pos hu, if_pos ⟨rfl, hoff⟩]
        exact InMemoryDatabase.queryBuffer_insertBothBuffer ..
      · intro f hf
        rw [hnil, updateOutIndex, if_pos hu, if_pos ⟨rfl, hoff⟩]
        exact InSF_of_push hf
      · rw [hnil, updateOutIndex, if_pos hu, if_pos ⟨rfl, hoff⟩]
        have hok := hwhole e.chunkAddr.basechunkHash
        rw [hchunk] at hok
        exact h.ledger.addListed habs hok rfl _
  | logged hflag hd =>
      subst hflag
      obtain ⟨F', hF'⟩ := stocked_whole henv h.stocked chunk e.chunkAddr o.superfeature hidx
        (by rw [hchunk]; exact hcreated)
      rw [hchunk] at hF'
      obtain ⟨hin, -, -⟩ := h.base hsf hprep hu hd
      have hupdate : ∀ v, updateOutIndex (insertPairs true (applied true s₀.db st)
          [(o.basechunkHash, o.chunkHash)] []) ({ o with
            deltaFlag := .noDelta, offlineFlag := true, chunkAddr := v }) =
          (((applied true s₀.db st).localInsert o.basechunkHash o.chunkHash).insertBothBuffer
            o.chunkHash v) := by
        intro v
        rw [updateOutIndex, if_pos hu, if_neg (by simp)]
        rfl
      have hstep := h.snoc ho { o with deltaFlag := .noDelta, offlineFlag := true } hprep.hash hnew
        hdistinct (.refl env st.session e o) (fun _ b hb => by cases hb)
        [(o.basechunkHash, o.chunkHash)] [] hF' ?_ ?_ ?_
        (by rw [← hchunk]; exact hwholeSound e.chunkAddr.basechunkHash)
      · simp only [List.append_nil] at hstep
        exact ⟨_, _, hstep⟩
      · rw [hupdate]
        exact InMemoryDatabase.queryBuffer_insertBothBuffer ..
      · intro f hf
        rw [hupdate]
        exact hf
      · rw [hupdate]
        have hok := hwhole e.chunkAddr.basechunkHash
        rw [hchunk] at hok
        exact h.ledger.addLogged habs hok rfl hin _
  | delta s buffer t hflag hd hready hshort =>
      subst hflag
      obtain ⟨hin, haddr, b, v, hb, hbflag, hv, ha⟩ := h.base hsf hprep hu hd
      -- the delta spells the chunk, against whatever base it was made
      have hlen : e.basechunkAddr.length.toNat ≤ MAX_CHUNK_SIZE := by
        rw [ha, (base_found henv h.stocked hb hbflag (h.index _ v hv)).1]
        exact (h.ledger.contents _ b hb).size
      have hsmall : e.chunk.length ≤ MAX_CHUNK_SIZE := by
        rw [← hchunk]
        exact chunk.2.2
      have hspells := Edelta.EcallFreqIndex.spells_eDeltaEncode
        (f := deltaJob recvBuffer e (baseIn env buffer e.basechunkAddr))
        (Edelta.Job.small_of_le hsmall (length_baseIn henv hlen buffer)) env.heuristics t
      have hok : Content.Ok env o.chunkHash ⟨DELTA, e.chunkAddr.basechunkHash,
          e.chunkAddr.superfeature,
          deltaOf env recvBuffer t e (baseIn env buffer e.basechunkAddr)⟩ :=
        ⟨le_trans (le_of_lt hshort) hsmall, fun hf => absurd hf.symm noDelta_ne_delta,
          fun _ => ⟨e.chunk.length, hsmall, length_ed3Decode hspells⟩⟩
      obtain ⟨F', hF'⟩ := stocked_delta henv (h.stocked.congr hready.shelves) hok.size e.chunkAddr
        o.superfeature hidx hcreated
      have hupdate : ∀ v, updateOutIndex (insertPairs false (applied false s₀.db st) []
          [(o.basechunkHash, o.chunkHash)]) ({ o with
            containerbuffer := buffer, deltaFlag := .delta, chunkAddr := v }) =
          (((applied false s₀.db st).insertDeltaIndex e.chunkAddr.basechunkHash
            o.chunkHash).insertBothBuffer o.chunkHash v) := by
        intro v
        rw [updateOutIndex, if_pos hu, if_neg (by simp), haddr]
        rfl
      have hstep := h.snoc ho { o with containerbuffer := buffer, deltaFlag := .delta } hprep.hash hnew
        hdistinct hready ?_ [] [(o.basechunkHash, o.chunkHash)] hF' ?_ ?_ ?_ ?_
      · simp only [List.append_nil] at hstep
        exact ⟨_, _, hstep⟩
      · exact fun hcache b' hb' => (h.base_text henv hready hb hbflag hv ha hcache b' hb').2
      · rw [hupdate]
        exact InMemoryDatabase.queryBuffer_insertBothBuffer ..
      · intro f hf
        rw [hupdate]
        exact hf
      · rw [hupdate]
        refine h.ledger.addDelta habs hok rfl ?_ _
        rw [haddr]
        exact hin
      · intro hcache _ hs
        refine hs.add h.ledger.linked habs ⟨chunk, hP, hfp, ?_⟩
        have hne : e.chunkAddr.basechunkHash ≠ o.chunkHash := by
          rw [haddr]
          intro heq
          rw [heq, habs] at hb
          cases hb
        have hbase := (h.base_text henv hready hb hbflag hv ha hcache buffer (by simp)).1
        rw [plainOf_delta (b := b) (Function.update_self ..) rfl
          (by rw [Function.update_of_ne hne, haddr, hb]), ← hbase]
        have hpos : 0 < e.chunk.length := by
          rw [← hchunk]
          exact chunk.2.1
        exact congrArg some ((isDelta_of_spells hspells hpos htext (slice_memOf_self _) rfl).trans
          hchunk.symm)

end StoreOk

/-- What is known of an entry when the store loop comes to it. -/
structure EntryOk (env : Env) (P : Chunk → Prop) (db : InMemoryDatabase) (recvBuffer : Bytes) (e : InQueryEntry) :
    Prop where
  chunk : ∃ c : Chunk, P c ∧ c.1 = e.chunk
  hash : e.chunkHash = env.generateHash e.chunk
  text : slice (memOf (recvBuffer.drop e.currentOffset)) 0 e.chunk.length = e.chunk
  prepared : ∀ o, e.out = some o → Prepared env db e o

/-- One round of the loop, apart from what it stores: the recipe grows by the
fingerprint of the chunk. -/
theorem storeEntry_frame {db : InMemoryDatabase} {recvBuffer : Bytes} (localFlag : Bool) (st : Storing)
    {e : InQueryEntry} (he : EntryOk env P db recvBuffer e) :
    (∃ s, Carried st.session s ∧
      (storeEntry env recvBuffer localFlag st e).session = s.updateFileRecipe env e.chunkHash) ∧
    ∃ e', (storeEntry env recvBuffer localFlag st e).entries = st.entries ++ [e'] ∧
      e'.chunkHash = e.chunkHash ∧ e'.out.isSome = e.out.isSome := by
  unfold storeEntry
  dsimp only
  cases ho : e.out with
  | none => exact ⟨⟨st.session, .refl _, rfl⟩, e, rfl, rfl, by rw [ho]⟩
  | some o =>
      simp only
      split
      · exact ⟨⟨st.session, .refl _, rfl⟩, _, rfl, rfl, rfl⟩
      · rename_i hflag
        have hu : o.dedupFlag = .unique := ((he.prepared o ho).flag.resolve_left
          fun h => hflag h.1).1
        have hstores : Stores env recvBuffer localFlag st e o _ :=
          stores_storeUnique recvBuffer localFlag st e
            (((he.prepared o ho).delta hu).imp_right fun hd => hd.1)
        generalize storeUnique env recvBuffer localFlag st e o = st' at hstores
        cases hstores with
        | listed s calls buffer hcalls hready =>
            exact ⟨⟨_, hready.carried.trans (carried_processSheUniqueChunk ..).1, rfl⟩, _, rfl, rfl,
              rfl⟩
        | logged hflag hd =>
            exact ⟨⟨_, (carried_processSheUniqueChunk ..).1, rfl⟩, _, rfl, rfl, rfl⟩
        | delta s buffer t hflag hd hready hshort =>
            exact ⟨⟨_, hready.carried.trans (carried_processSheUniqueChunk ..).1, rfl⟩, _, rfl, rfl,
              rfl⟩

omit names in
theorem server_updateFileRecipe (env : Env) (s : Session) (chunkHash : Fp) :
    (s.updateFileRecipe env chunkHash).server = s.server := by
  unfold Session.updateFileRecipe
  dsimp only
  split <;> rfl

omit names in
theorem cur_updateFileRecipe (env : Env) (s : Session) (chunkHash : Fp) :
    (s.updateFileRecipe env chunkHash).client.cur = s.client.cur := by
  unfold Session.updateFileRecipe
  dsimp only
  split <;> rfl

theorem created_storeEntry {db : InMemoryDatabase} {recvBuffer : Bytes} (localFlag : Bool)
    (st : Storing) {e : InQueryEntry} (he : EntryOk env P db recvBuffer e) :
    st.session.server.created ≤
      (storeEntry env recvBuffer localFlag st e).session.server.created := by
  obtain ⟨⟨s, hcarried, heq⟩, -⟩ := storeEntry_frame localFlag st he
  rw [heq, server_updateFileRecipe]
  exact hcarried.created

theorem created_foldl_storeEntry {db : InMemoryDatabase} {recvBuffer : Bytes} (localFlag : Bool) :
    ∀ (es : List InQueryEntry) (st : Storing), (∀ e ∈ es, EntryOk env P db recvBuffer e) →
      st.session.server.created ≤
        (es.foldl (storeEntry env recvBuffer localFlag) st).session.server.created
  | [], _, _ => le_refl _
  | e :: es, st, h => le_trans (created_storeEntry localFlag st (h e (by simp)))
      (created_foldl_storeEntry localFlag es _ fun e' he' => h e' (by simp [he']))

/-- The entries that are done are those of the batch, with or without a query
entry as before. -/
theorem entries_foldl_storeEntry {db : InMemoryDatabase} {recvBuffer : Bytes} (localFlag : Bool) :
    ∀ (es : List InQueryEntry) (st : Storing), (∀ e ∈ es, EntryOk env P db recvBuffer e) →
      (es.foldl (storeEntry env recvBuffer localFlag) st).entries.map
          (fun e => (e.chunkHash, e.out.isSome)) =
        st.entries.map (fun e => (e.chunkHash, e.out.isSome)) ++
          es.map fun e => (e.chunkHash, e.out.isSome)
  | [], _, _ => by simp
  | e :: es, st, h => by
      obtain ⟨-, e', hentries, hhash, hout⟩ := storeEntry_frame localFlag st (h e (by simp))
      rw [List.foldl_cons, entries_foldl_storeEntry localFlag es _ fun e' he' => h e' (by simp [he']),
        hentries]
      simp [hhash, hout]

namespace StoreOk

variable {localFlag : Bool} {s₀ : Server} {abs₀ : Fp → Option Content} {todo : List InQueryEntry}
  {st : Storing}

/-- An entry that stores nothing. -/
theorem skip {e : InQueryEntry} (h : StoreOk env P localFlag s₀ abs₀ (e :: todo) st F abs)
    (e' : InQueryEntry) (hout : ∀ o, e'.out = some o → o.dedupFlag ≠ .unique)
    (hdone : e'.out ≠ none → (abs (env.indexAESCMCEnc e'.chunkHash)).isSome) :
    StoreOk env P localFlag s₀ abs₀ todo { st with entries := st.entries ++ [e'] } F abs := by
  have happlied := applied_snoc_same localFlag s₀.db st e' hout
  constructor
  · rw [happlied]
    exact h.stocked
  · rw [happlied]
    exact h.ledger
  · exact h.db
  · exact h.heap
  · exact h.keeps
  · rw [happlied]
    exact h.index
  · rw [happlied]
    exact h.listed
  · exact fun e he => h.fresh e (by simp [he])
  · intro e'' he'' hne
    rcases List.mem_append.mp he'' with he'' | he''
    · exact h.done e'' he'' hne
    · rw [List.mem_singleton.mp he''] at hne ⊢
      exact hdone hne
  · exact h.cache
  · exact h.encodes
  · exact h.sound

/-- One round of the store loop. -/
theorem storeEntry (henv : env.Lawful) {e : InQueryEntry} {recvBuffer : Bytes}
    (h : StoreOk env P localFlag s₀ abs₀ (e :: todo) st F abs)
    (hsf : ∀ f, s₀.db.InSF f → (s₀.db.queryBuffer f).isSome)
    (he : EntryOk env P s₀.db recvBuffer e)
    (hdistinct : (((e :: todo).filterMap InQueryEntry.out).map OutQueryEntry.chunkHash).Nodup)
    (hcreated : (EcallFreqIndex.storeEntry env recvBuffer localFlag st e).session.server.created ≤
      names.distinct) :
    ∃ F' abs', StoreOk env P localFlag s₀ abs₀ todo
      (EcallFreqIndex.storeEntry env recvBuffer localFlag st e) F' abs' := by
  have hrecipe : ∀ {st : Storing} {F : Containers} {abs : Fp → Option Content},
      StoreOk env P localFlag s₀ abs₀ todo st F abs → StoreOk env P localFlag s₀ abs₀ todo
        { st with session := st.session.updateFileRecipe env e.chunkHash } F abs :=
    fun h => h.congr (server_updateFileRecipe env _ _) (cur_updateFileRecipe env _ _)
  unfold EcallFreqIndex.storeEntry at hcreated ⊢
  dsimp only at hcreated ⊢
  rw [server_updateFileRecipe] at hcreated
  cases ho : e.out with
  | none =>
      refine ⟨F, abs, hrecipe (h.skip e ?_ ?_)⟩
      · intro o ho'
        rw [ho] at ho'
        cases ho'
      · exact fun hne => absurd ho hne
  | some o =>
      have hprep := he.prepared o ho
      simp only [ho] at hcreated ⊢
      split
      · rename_i hdup
        refine ⟨F, abs, hrecipe (h.skip
          { e with chunkAddr := env.decEntry o.chunkAddr, out := some o } ?_ fun _ => ?_)⟩
        · intro o' ho' hu
          obtain rfl : o = o' := Option.some.inj ho'
          rw [hdup] at hu
          cases hu
        · have hknown : (s₀.db.queryBuffer o.chunkHash).isSome := by
            rcases hprep.flag with ⟨-, hsome⟩ | ⟨hu, -⟩
            · exact hsome
            · rw [hdup] at hu
              cases hu
          obtain ⟨v, hv⟩ := Option.isSome_iff_exists.mp hknown
          rw [← hprep.hash]
          refine (h.stocked.stock.rep.catalog.isSome_iff _).mp ?_
          rw [h.index _ v hv]
          rfl
      · rename_i hdup
        rw [if_neg hdup] at hcreated
        have hu : o.dedupFlag = .unique := (hprep.flag.resolve_left fun h => hdup h.1).1
        obtain ⟨c, hP, hc⟩ := he.chunk
        obtain ⟨F', abs', h'⟩ := h.storeUnique henv hsf ho hprep hu c hP hc he.hash he.text hdistinct
          hcreated
        exact ⟨F', abs', hrecipe h'⟩

/-- The whole loop. -/
theorem foldl (henv : env.Lawful) {recvBuffer : Bytes}
    (hsf : ∀ f, s₀.db.InSF f → (s₀.db.queryBuffer f).isSome) :
    ∀ (es : List InQueryEntry) {st : Storing} {F : Containers} {abs : Fp → Option Content},
      StoreOk env P localFlag s₀ abs₀ es st F abs → (∀ e ∈ es, EntryOk env P s₀.db recvBuffer e) →
      ((es.filterMap InQueryEntry.out).map OutQueryEntry.chunkHash).Nodup →
      (es.foldl (EcallFreqIndex.storeEntry env recvBuffer localFlag) st).session.server.created ≤
        names.distinct →
      ∃ F' abs', StoreOk env P localFlag s₀ abs₀ []
        (es.foldl (EcallFreqIndex.storeEntry env recvBuffer localFlag) st) F' abs'
  | [], st, F, abs, h, _, _, _ => ⟨F, abs, h⟩
  | e :: es, st, F, abs, h, hes, hdistinct, hcreated => by
      have hrest : ∀ e' ∈ es, EntryOk env P s₀.db recvBuffer e' := fun e' he' => hes e' (by simp [he'])
      have hfinal := created_foldl_storeEntry localFlag es
        (EcallFreqIndex.storeEntry env recvBuffer localFlag st e) hrest
      obtain ⟨F', abs', h'⟩ := h.storeEntry henv hsf (hes e (by simp)) hdistinct
        (le_trans hfinal hcreated)
      refine foldl henv hsf es h' hrest ?_ hcreated
      have hsub : (es.filterMap InQueryEntry.out).Sublist ((e :: es).filterMap InQueryEntry.out) :=
        (List.sublist_cons_self e es).filterMap _
      exact (hsub.map _).nodup hdistinct

end StoreOk

end EcallFreqIndex

end ShieldReduce
