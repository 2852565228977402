import ShieldReduce.System.Restore

/-!
# A restore under way

What `EnclaveRecvDecoder` has collected and what it has written out, on
any server whose index leads from the fingerprints of the recipe to
records (`Readable`). `Collected` says that the entries it holds are
those of the fingerprints `fs` and that the bases it holds and still has
to look up are `bs`, which between two fingerprints are the bases of the
delta chunks among `fs`; each entry names the slot of its container.
`Written` says which chunks went out so far, and in which messages. One
fingerprint of the recipe is collected at a time
(`RestoreOk.procEntry`), and writing out empties the collection.
-/

namespace ShieldReduce

open ByteLib UMapLib

namespace Restore

variable {env : Env} {s : Server} {l : RestoreLogin}

/-! ## Records that can be read -/

/-- The record of the entry lies inside the container. -/
def Inside (e : RecipeEntry) (file : Bytes) : Prop :=
  e.offset.toNat + sizeofRecipeEntry + 4 * CHUNK_HASH_SIZE + e.length.toNat + CRYPTO_BLOCK_SIZE ≤
    file.length

/-- The index leads from the fingerprint to a record. -/
def Present (env : Env) (s : Server) (f : Fp) : Prop :=
  ∃ v file, s.db.queryBuffer f = some v ∧
    s.view.file (env.decEntry v).containerName = some file ∧ Inside (env.decEntry v) file

/-- The base of a delta chunk. -/
def baseOf? (env : Env) (s : Server) (f : Fp) : Option Fp :=
  match s.db.queryBuffer f with
  | some v => if (env.decEntry v).deltaFlag = DELTA then some (env.decEntry v).basechunkHash else none
  | none => none

/-- The index leads to the record of the chunk and, for a delta chunk, to that
of its base. -/
structure Readable (env : Env) (s : Server) (f : Fp) : Prop where
  self : Present env s f
  base : ∀ b, baseOf? env s f = some b → Present env s b

/-- What follows the container in a buffer does not matter. -/
theorem Inside.getChunkContent {file buf : Bytes} {e : RecipeEntry} (h : Inside e file)
    (hpre : file <+: buf) :
    ShieldReduce.getChunkContent buf e = ShieldReduce.getChunkContent file e := by
  obtain ⟨t, rfl⟩ := hpre
  unfold Inside at h
  unfold ShieldReduce.getChunkContent
  rw [slice_eq_iff]
  intro i hi
  unfold memOf
  rw [List.getD_eq_getElem?_getD, List.getD_eq_getElem?_getD, List.getElem?_append_left (by omega)]

theorem Inside.getChunkIV {file buf : Bytes} {e : RecipeEntry} (h : Inside e file)
    (hpre : file <+: buf) : ShieldReduce.getChunkIV buf e = ShieldReduce.getChunkIV file e := by
  obtain ⟨t, rfl⟩ := hpre
  unfold Inside CRYPTO_BLOCK_SIZE at h
  unfold ShieldReduce.getChunkIV
  rw [List.drop_append_of_le_length (by omega), BytesN.ofBytes_append_of_le]
  rw [List.length_drop]
  omega

theorem inside_of_found {t : Record} {name : ContainerName} {file : Bytes} (h : t.FoundIn file)
    (hp : t.PlacedIn name) : Inside t.entry file := by
  obtain ⟨rest, hrest⟩ := h
  have hlen := congrArg List.length hrest
  rw [List.length_drop, List.length_append, t.length_toBytes] at hlen
  unfold Record.start recordOverhead at hlen
  unfold Inside
  rw [hp.2]
  have hpos : 0 < sizeofRecipeEntry := by decide
  omega

/-! ## What was collected -/

/-- The entry is that of the fingerprint, and its slot that of its container. -/
def Located (env : Env) (s : Server) (ids : List ContainerName) (x : EnclaveRecipeEntry) (f : Fp) :
    Prop :=
  (∃ v, s.db.queryBuffer f = some v ∧ x.chunkAddr = env.decEntry v) ∧
    ids[x.containerID]? = some x.chunkAddr.containerName

theorem Located.mono {ids : List ContainerName} {x : EnclaveRecipeEntry} {f : Fp}
    (h : Located env s ids x f) (more : List ContainerName) : Located env s (ids ++ more) x f := by
  obtain ⟨hv, hid⟩ := h
  refine ⟨hv, ?_⟩
  rw [List.getElem?_append_left (List.getElem?_eq_some_iff.mp hid).1, hid]

structure Collected (env : Env) (s : Server) (r : Restore) (fs bs : List Fp) : Prop where
  entries : List.Forall₂ (Located env s r.idBuffer) r.enclaveRecipeBuffer fs
  bases : ∃ done, List.Forall₂ (Located env s r.idBuffer) r.baseRecipeBuffer done ∧
    done ++ r.baseQuery = bs
  slots : ∀ n k, r.tmpContainerMap.lookup n = some k → r.idBuffer[k]? = some n
  files : ∀ n ∈ r.idBuffer, (s.view.file n).isSome
  cache : ∀ n body, r.containerCache.lookup n = some body → s.view.file n = some body

theorem Collected.clearMap {r : Restore} {fs bs : List Fp} (h : Collected env s r fs bs) :
    Collected env s { r with tmpContainerMap := ∅ } fs bs :=
  ⟨h.entries, h.bases, fun n k hk => (by cases hk), h.files, h.cache⟩

/-! ## What was written -/

/-- A message with some chunks. -/
def message (env : Env) (sessionKey : Key) (final : Bool) (g : List Bytes) : RestoreMessage :=
  ⟨final, env.sessionKeyEnc sessionKey (frameChunks g), g.length⟩

/-- The chunks that went out, in messages and in the buffer. -/
def Written (env : Env) (sessionKey : Key) (r : Restore) (out : List Bytes) : Prop :=
  ∃ (groups : List (List Bytes)) (buf : List Bytes),
    r.sent = groups.map (message env sessionKey false) ∧
    r.restoreChunkBuf = frameChunks buf ∧ r.currentItemNum = buf.length ∧
    groups.flatten ++ buf = out ∧
    (1 ≤ env.sendChunkBatchSize → buf.length < env.sendChunkBatchSize ∧
      ∀ g ∈ groups, g.length ≤ env.sendChunkBatchSize)

/-- All chunks went out, and the last message says so. -/
def Finished (env : Env) (sessionKey : Key) (r : Restore) (out : List Bytes) : Prop :=
  ∃ (groups : List (List Bytes)) (last : List Bytes),
    r.sent = groups.map (message env sessionKey false) ++ [message env sessionKey true last] ∧
    groups.flatten ++ last = out ∧
    (1 ≤ env.sendChunkBatchSize → ∀ g ∈ groups ++ [last], g.length ≤ env.sendChunkBatchSize)

/-- What looking up bases leaves alone. -/
structure SameOut (r r' : Restore) : Prop where
  restoreChunkBuf : r'.restoreChunkBuf = r.restoreChunkBuf
  currentItemNum : r'.currentItemNum = r.currentItemNum
  sent : r'.sent = r.sent

theorem Written.congr {r r' : Restore} {out : List Bytes} (h : Written env l.sessionKey r out)
    (hs : SameOut r r') : Written env l.sessionKey r' out := by
  obtain ⟨groups, buf, h1, h2, h3, h4⟩ := h
  exact ⟨groups, buf, by rw [hs.sent, h1], by rw [hs.restoreChunkBuf, h2],
    by rw [hs.currentItemNum, h3], h4⟩

theorem frameChunks_snoc (buf : List Bytes) (c : Bytes) :
    frameChunks (buf ++ [c]) = frameChunks buf ++ (le32 (UInt32.ofNat c.length) ++ c) := by
  simp [frameChunks]

/-- One chunk more, and a message if that makes a batch. -/
theorem Written.put {r : Restore} {out : List Bytes} (h : Written env l.sessionKey r out)
    (c : Bytes) {p : Prop} [Decidable p]
    (hp : p ↔ (r.put c).currentItemNum % env.sendChunkBatchSize = 0) :
    Written env l.sessionKey (if p then (r.put c).send env l false else r.put c) (out ++ [c]) := by
  obtain ⟨groups, buf, hsent, hbuf, hnum, rfl, hfit⟩ := h
  have hnum' : (r.put c).currentItemNum = (buf ++ [c]).length := by simp [Restore.put, hnum]
  have hbuf' : (r.put c).restoreChunkBuf = frameChunks (buf ++ [c]) := by
    rw [frameChunks_snoc, ← hbuf]
    rfl
  rw [hnum'] at hp
  split
  · refine ⟨groups ++ [buf ++ [c]], [], ?_, rfl, rfl, by simp, fun hn => ⟨hn, fun g hg => ?_⟩⟩
    · rw [List.map_append, ← hsent, List.map_singleton, message, ← hbuf', ← hnum']
      rfl
    · obtain ⟨hlt, hgs⟩ := hfit hn
      rcases List.mem_append.mp hg with hg | hg
      · exact hgs g hg
      · rw [List.mem_singleton.mp hg, List.length_append]
        exact hlt
  · rename_i hnot
    refine ⟨groups, buf ++ [c], hsent, hbuf', hnum', by simp, fun hn => ?_⟩
    obtain ⟨hlt, hgs⟩ := hfit hn
    refine ⟨Nat.lt_of_le_of_ne ?_ ?_, hgs⟩
    · rw [List.length_append]
      exact hlt
    · intro heq
      exact hnot (hp.mpr (by rw [heq, Nat.mod_self]))

/-- The last chunk. -/
theorem Written.finish {r : Restore} {out : List Bytes} (h : Written env l.sessionKey r out)
    (c : Bytes) : Finished env l.sessionKey ((r.put c).send env l true) (out ++ [c]) := by
  obtain ⟨groups, buf, hsent, hbuf, hnum, rfl, hfit⟩ := h
  refine ⟨groups, buf ++ [c], ?_, by simp, fun hn g hg => ?_⟩
  · rw [message, frameChunks_snoc, ← hbuf, List.length_append, ← hnum, ← hsent]
    rfl
  · obtain ⟨hlt, hgs⟩ := hfit hn
    rcases List.mem_append.mp hg with hg | hg
    · exact hgs g hg
    · rw [List.mem_singleton.mp hg, List.length_append]
      exact hlt

/-- Nothing is left but what is in the buffer. -/
theorem Written.finish_buf {r : Restore} {out : List Bytes} (h : Written env l.sessionKey r out) :
    Finished env l.sessionKey (r.send env l true) out := by
  obtain ⟨groups, buf, hsent, hbuf, hnum, rfl, hfit⟩ := h
  refine ⟨groups, buf, ?_, rfl, fun hn g hg => ?_⟩
  · rw [message, ← hbuf, ← hnum, ← hsent]
    rfl
  · obtain ⟨hlt, hgs⟩ := hfit hn
    rcases List.mem_append.mp hg with hg | hg
    · exact hgs g hg
    · rw [List.mem_singleton.mp hg]
      exact le_of_lt hlt

/-! ## Fetching containers -/

/-- Every slot begins with the file of its container. -/
def Fetched (s : Server) (ids : List ContainerName) (r : Restore) : Prop :=
  ∀ k n, ids[k]? = some n → ∃ file, s.view.file n = some file ∧ file <+: r.containerArray k

/-- What fetching leaves alone. -/
structure Fetches (s : Server) (r r' : Restore) : Prop where
  idBuffer : r'.idBuffer = r.idBuffer
  enclaveRecipeBuffer : r'.enclaveRecipeBuffer = r.enclaveRecipeBuffer
  baseRecipeBuffer : r'.baseRecipeBuffer = r.baseRecipeBuffer
  baseQuery : r'.baseQuery = r.baseQuery
  restoreChunkBuf : r'.restoreChunkBuf = r.restoreChunkBuf
  currentItemNum : r'.currentItemNum = r.currentItemNum
  sent : r'.sent = r.sent
  cache : (∀ n body, r.containerCache.lookup n = some body → s.view.file n = some body) →
    ∀ n body, r'.containerCache.lookup n = some body → s.view.file n = some body

theorem Fetches.refl (s : Server) (r : Restore) : Fetches s r r :=
  ⟨rfl, rfl, rfl, rfl, rfl, rfl, rfl, fun h => h⟩

theorem Fetches.trans {r r' r'' : Restore} (h : Fetches s r r') (h' : Fetches s r' r'') :
    Fetches s r r'' :=
  ⟨h'.idBuffer.trans h.idBuffer, h'.enclaveRecipeBuffer.trans h.enclaveRecipeBuffer,
    h'.baseRecipeBuffer.trans h.baseRecipeBuffer, h'.baseQuery.trans h.baseQuery,
    h'.restoreChunkBuf.trans h.restoreChunkBuf, h'.currentItemNum.trans h.currentItemNum,
    h'.sent.trans h.sent, fun hc => h'.cache (h.cache hc)⟩

/-- What the restore cache keeps is what was inserted. -/
def Evicts (l : RestoreLogin) : Prop :=
  ∀ m n body, (l.evict m).lookup n = some body → m.lookup n = some body

theorem fetch_spec (hl : Evicts l) {r : Restore}
    (hcache : ∀ n body, r.containerCache.lookup n = some body → s.view.file n = some body)
    {n : ContainerName} {file : Bytes} (hfile : s.view.file n = some file) (k : Nat) :
    ∃ r', fetch s l r (n, k) = some r' ∧ Fetches s r r' ∧
      r'.containerArray = fun i =>
        if i = k then writeAt (r.containerArray i) 0 file else r.containerArray i := by
  unfold fetch
  cases hc : r.containerCache.lookup n with
  | some body =>
      obtain rfl : file = body := Option.some.inj (hfile.symm.trans (hcache n body hc))
      exact ⟨_, rfl, ⟨rfl, rfl, rfl, rfl, rfl, rfl, rfl, fun h => h⟩, rfl⟩
  | none =>
      simp only [hfile, Option.map_some]
      refine ⟨_, rfl, ⟨rfl, rfl, rfl, rfl, rfl, rfl, rfl, fun _ m body hm => ?_⟩, rfl⟩
      have hins := hl _ m body hm
      rw [lookup_eq_if] at hins
      split at hins
      · rename_i heq
        rw [heq, hfile]
        exact hins
      · exact hcache m body hins

/-- Fetching the containers of a list into the slots from `j` on. -/
theorem foldlM_fetch (hl : Evicts l) : ∀ (ids : List ContainerName) (j : Nat) (r : Restore),
    (∀ n body, r.containerCache.lookup n = some body → s.view.file n = some body) →
    (∀ n ∈ ids, (s.view.file n).isSome) →
    ∃ r', (ids.zipIdx j).foldlM (fetch s l) r = some r' ∧ Fetches s r r' ∧
      (∀ k < j, r'.containerArray k = r.containerArray k) ∧
      ∀ i n, ids[i]? = some n → ∃ file, s.view.file n = some file ∧
        file <+: r'.containerArray (j + i)
  | [], j, r, _, _ => ⟨r, rfl, .refl s r, fun _ _ => rfl, fun i n h => by cases h⟩
  | n :: ids, j, r, hcache, hfiles => by
      obtain ⟨file, hfile⟩ := Option.isSome_iff_exists.mp (hfiles n (by simp))
      obtain ⟨r₁, hfetch, hsame, harray⟩ := fetch_spec hl hcache hfile j
      obtain ⟨r', hfold, hsame', hkeep, hgot⟩ := foldlM_fetch hl ids (j + 1) r₁ (hsame.cache hcache)
        fun m hm => hfiles m (by simp [hm])
      refine ⟨r', ?_, hsame.trans hsame', ?_, ?_⟩
      · rw [List.zipIdx_cons, List.foldlM_cons, hfetch]
        exact hfold
      · intro k hk
        rw [hkeep k (by omega), harray]
        simp only
        rw [if_neg (by omega)]
      · rintro (_ | i) m hm
        · obtain rfl : n = m := Option.some.inj hm
          refine ⟨file, hfile, ?_⟩
          rw [Nat.add_zero, hkeep j (by omega), harray]
          simp only [if_true]
          exact prefix_writeAt _ _
        · rw [show j + (i + 1) = j + 1 + i by omega]
          exact hgot i m hm

theorem getReqContainers_spec (hl : Evicts l) {r : Restore} {fs bs : List Fp}
    (h : Collected env s r fs bs) :
    ∃ r', r.getReqContainers s l = some r' ∧ Fetches s r r' ∧ Fetched s r.idBuffer r' := by
  obtain ⟨r', hfold, hsame, -, hgot⟩ := foldlM_fetch hl r.idBuffer 0 r h.cache h.files
  refine ⟨r', hfold, hsame, fun k n hk => ?_⟩
  have := hgot k n hk
  rwa [Nat.zero_add] at this

/-! ## Writing out -/

/-- The payload of an entry whose container was fetched. -/
theorem readData_located {ids : List ContainerName} {r : Restore} (hr : Fetched s ids r)
    {x : EnclaveRecipeEntry} {f : Fp} (hf : Present env s f) (hx : Located env s ids x f) :
    readData env s.db.queryBuffer s.view f = some (x.chunkAddr, dataOf env r x) := by
  obtain ⟨⟨v, hv, haddr⟩, hid⟩ := hx
  obtain ⟨v', file, hv', hfile, hin⟩ := hf
  obtain rfl : v' = v := Option.some.inj (hv'.symm.trans hv)
  obtain ⟨file', hfile', hpre⟩ := hr _ _ hid
  rw [haddr, hfile] at hfile'
  obtain rfl := Option.some.inj hfile'
  unfold readData dataOf
  simp only [hv, Option.bind_eq_bind, Option.bind_some, hfile, haddr, hin.getChunkContent hpre,
    hin.getChunkIV hpre, Option.pure_def]

/-- The chunk of a collected entry. -/
theorem recoverChunk_spec {ids : List ContainerName} {r : Restore} (hr : Fetched s ids r)
    {x : EnclaveRecipeEntry} {f : Fp} (hf : Readable env s f) (hx : Located env s ids x f)
    {fs : List Fp} {bases : List EnclaveRecipeEntry}
    (hb : List.Forall₂ (Located env s ids) bases ((f :: fs).filterMap (baseOf? env s))) :
    s.plaintext env f = some (recoverChunk env r x bases).1 ∧
      List.Forall₂ (Located env s ids) (recoverChunk env r x bases).2
        (fs.filterMap (baseOf? env s)) := by
  obtain ⟨⟨v, hv, haddr⟩, -⟩ := id hx
  have hdata := readData_located hr hf.self hx
  unfold recoverChunk
  by_cases hdelta : x.chunkAddr.deltaFlag = DELTA
  · have hbaseOf : baseOf? env s f = some x.chunkAddr.basechunkHash := by
      simp only [baseOf?, hv, ← haddr, if_pos hdelta]
    rw [List.filterMap_cons, hbaseOf] at hb
    cases hb with
    | @cons b _ bases' _ hb hbs =>
        have hbase := readData_located hr (hf.base _ hbaseOf) hb
        rw [if_pos hdelta]
        refine ⟨?_, hbs⟩
        simp only [Server.plaintext, ShieldReduce.plaintext, hdata, hdelta, hbase,
          Option.bind_eq_bind, Option.bind_some, if_true, Option.pure_def, List.headD_cons]
  · have hbaseOf : baseOf? env s f = none := by
      simp only [baseOf?, hv, ← haddr, if_neg hdelta]
    rw [List.filterMap_cons, hbaseOf] at hb
    rw [if_neg hdelta]
    refine ⟨?_, hb⟩
    simp only [Server.plaintext, ShieldReduce.plaintext, hdata, hdelta, Option.bind_eq_bind,
      Option.bind_some, if_false, Option.pure_def]

/-- The chunks that the index gives for a list of fingerprints. -/
def PlainOf (env : Env) (s : Server) (fs : List Fp) (ps : List Bytes) : Prop :=
  List.Forall₂ (fun f p => s.plaintext env f = some p) fs ps

/-- The loop over the collected entries. In the tail batch it finishes. -/
theorem emit_spec {ids : List ContainerName} (tail : Bool) : ∀ (es : List EnclaveRecipeEntry)
    (fs : List Fp) (bases : List EnclaveRecipeEntry) (r : Restore) (out : List Bytes),
    List.Forall₂ (Located env s ids) es fs → (∀ f ∈ fs, Readable env s f) →
    List.Forall₂ (Located env s ids) bases (fs.filterMap (baseOf? env s)) → Fetched s ids r →
    Written env l.sessionKey r out →
    ∃ ps, PlainOf env s fs ps ∧
      (emit env l tail es bases r).containerCache = r.containerCache ∧
      (tail = false ∨ es = [] → Written env l.sessionKey (emit env l tail es bases r) (out ++ ps)) ∧
      (tail = true → es ≠ [] → Finished env l.sessionKey (emit env l tail es bases r) (out ++ ps))
  | [], fs, bases, r, out, hes, _, _, _, hw => by
      cases hes
      exact ⟨[], .nil, rfl, fun _ => by rwa [List.append_nil], fun _ hne => absurd rfl hne⟩
  | e :: es, fs, bases, r, out, hes, hread, hb, hr, hw => by
      cases hes with
      | @cons _ f _ fs' he hes =>
          obtain ⟨hplain, hb'⟩ := recoverChunk_spec hr (hread f (by simp)) he hb
          unfold emit
          simp only
          by_cases hend : tail = true ∧ es = []
          · obtain ⟨rfl, rfl⟩ := hend
            cases hes
            simp only [List.isEmpty_nil, Bool.and_self, or_true, if_true]
            unfold emit
            exact ⟨[_], .cons hplain .nil, rfl, fun h => (by simp at h), fun _ _ => hw.finish _⟩
          · have hflag : (tail && es.isEmpty) = false := by
              cases tail <;> cases es <;> simp_all
            rw [hflag]
            have hput := hw.put (l := l) (recoverChunk env r e bases).1
              (p := (r.put (recoverChunk env r e bases).1).currentItemNum % env.sendChunkBatchSize = 0 ∨
                false = true) (by simp)
            generalize hnext : (if (r.put (recoverChunk env r e bases).1).currentItemNum %
                env.sendChunkBatchSize = 0 ∨ false = true then
              (r.put (recoverChunk env r e bases).1).send env l false
              else r.put (recoverChunk env r e bases).1) = r₁ at hput ⊢
            have harray : r₁.containerArray = r.containerArray ∧
                r₁.containerCache = r.containerCache := by
              rw [← hnext]
              split <;> exact ⟨rfl, rfl⟩
            obtain ⟨ps, hps, hcache, hwritten, hfinished⟩ := emit_spec tail es fs'
              (recoverChunk env r e bases).2 r₁ _ hes (fun f hf => hread f (by simp [hf])) hb'
              (by intro k n hk; rw [harray.1]; exact hr k n hk) hput
            refine ⟨_ :: ps, .cons hplain hps, hcache.trans harray.2, fun hcase => ?_, fun ht _ => ?_⟩
            · have := hwritten (Or.inl (by simpa using hcase))
              rwa [List.append_assoc] at this
            · have := hfinished ht fun hnil => hend ⟨ht, hnil⟩
              rwa [List.append_assoc] at this

/-! ## Collecting -/

theorem Present.file {f : Fp} (h : Present env s f) {v : Cipher} (hv : s.db.queryBuffer f = some v) :
    (s.view.file (env.decEntry v).containerName).isSome := by
  obtain ⟨v', file, hv', hfile, -⟩ := h
  obtain rfl : v' = v := Option.some.inj (hv'.symm.trans hv)
  rw [hfile]
  rfl

/-- The slots that were given out. -/
structure SlotsOk (s : Server) (ids : List ContainerName) (map : UMap ContainerName Nat) : Prop where
  slots : ∀ n k, map.lookup n = some k → ids[k]? = some n
  files : ∀ n ∈ ids, (s.view.file n).isSome

theorem slotOf_spec {r : Restore} (h : SlotsOk s r.idBuffer r.tmpContainerMap) {n : ContainerName}
    (hn : (s.view.file n).isSome) :
    ∃ k more map, r.slotOf n = (k, { r with
        idBuffer := r.idBuffer ++ more, tmpContainerMap := map }) ∧
      (r.idBuffer ++ more)[k]? = some n ∧ SlotsOk s (r.idBuffer ++ more) map := by
  unfold slotOf
  cases hm : r.tmpContainerMap.lookup n with
  | some k =>
      refine ⟨k, [], r.tmpContainerMap, ?_, ?_, ?_⟩
      · simp
      · rw [List.append_nil]
        exact h.slots n k hm
      · rw [List.append_nil]
        exact h
  | none =>
      refine ⟨_, [n], _, rfl, by simp, ?_, ?_⟩
      · intro m k hk
        rw [lookup_eq_if] at hk
        split at hk
        · rename_i heq
          rw [heq, ← Option.some.inj hk]
          simp
        · have := h.slots m k hk
          rw [List.getElem?_append_left (List.getElem?_eq_some_iff.mp this).1, this]
      · intro m hm'
        rcases List.mem_append.mp hm' with hm' | hm'
        · exact h.files m hm'
        · rw [List.mem_singleton.mp hm']
          exact hn

theorem Collected.slotsOk {r : Restore} {fs bs : List Fp} (h : Collected env s r fs bs) :
    SlotsOk s r.idBuffer r.tmpContainerMap := ⟨h.slots, h.files⟩

theorem forall₂_mono {ids : List ContainerName} {xs : List EnclaveRecipeEntry} {fs : List Fp}
    (h : List.Forall₂ (Located env s ids) xs fs) (more : List ContainerName) :
    List.Forall₂ (Located env s (ids ++ more)) xs fs :=
  h.imp fun _ _ hx => hx.mono more

def withBases (r : Restore) (ids : List ContainerName) (map : UMap ContainerName Nat)
    (bs : List EnclaveRecipeEntry) : Restore :=
  { r with idBuffer := ids, tmpContainerMap := map, baseRecipeBuffer := bs }

/-- The bases of the query are looked up one after the other. -/
theorem foldl_addBase {r : Restore} {done : List Fp}
    (hbases : List.Forall₂ (Located env s r.idBuffer) r.baseRecipeBuffer done)
    (hslots : SlotsOk s r.idBuffer r.tmpContainerMap)
    (hknown : ∀ b ∈ r.baseQuery, Present env s b) :
    ∀ m ≤ r.baseQuery.length, ∃ more map bs,
      (List.range m).foldl (addBase env) (queryBaseIndex s r) =
        (queryBaseIndex s r).withBases (r.idBuffer ++ more) map bs ∧
      List.Forall₂ (Located env s (r.idBuffer ++ more)) bs (done ++ r.baseQuery.take m) ∧
      SlotsOk s (r.idBuffer ++ more) map
  | 0, _ => ⟨[], r.tmpContainerMap, r.baseRecipeBuffer, by simp [queryBaseIndex, withBases],
      by simpa using hbases, by simpa using hslots⟩
  | m + 1, hm => by
      obtain ⟨more, map, bs, hfold, hbs, hsl⟩ := foldl_addBase hbases hslots hknown m (by omega)
      obtain ⟨b, hget⟩ : ∃ b, r.baseQuery[m]? = some b :=
        ⟨_, List.getElem?_eq_getElem (by omega)⟩
      have hpresent := hknown b (List.mem_of_getElem? hget)
      obtain ⟨v, -, hv, -⟩ := id hpresent
      have haddr : ((queryBaseIndex s r).withBases (r.idBuffer ++ more) map bs).baseAddr m = v := by
        simp only [queryBaseIndex, withBases, hget, hv, Option.getD_some]
      obtain ⟨k, more', map', heq, hid, hsl'⟩ := slotOf_spec
        (r := (queryBaseIndex s r).withBases (r.idBuffer ++ more) map bs) hsl (hpresent.file hv)
      rw [List.range_succ, List.foldl_append, hfold, List.foldl_cons, List.foldl_nil, addBase]
      simp only [haddr, heq]
      refine ⟨more ++ more', map', bs ++ [⟨k, env.decEntry v⟩], ?_, ?_, ?_⟩
      · rw [← List.append_assoc]
        rfl
      · rw [List.take_add_one, hget, ← List.append_assoc, ← List.append_assoc]
        exact List.rel_append (forall₂_mono hbs more') (.cons ⟨⟨v, hv, rfl⟩, hid⟩ .nil)
      · rw [← List.append_assoc]
        exact hsl'

/-- Looking up the pending bases. -/
theorem Collected.flushBaseQuery {r : Restore} {fs bs : List Fp} (hc : Collected env s r fs bs)
    (hknown : ∀ b ∈ bs, Present env s b) :
    Collected env s (r.flushBaseQuery env s) fs bs ∧ (r.flushBaseQuery env s).baseQuery = [] ∧
      SameOut r (r.flushBaseQuery env s) := by
  obtain ⟨done, hdone, hall⟩ := hc.bases
  obtain ⟨more, map, xs, hfold, hxs, hsl⟩ := foldl_addBase hdone hc.slotsOk
    (fun b hb => hknown b (by rw [← hall]; exact List.mem_append_right _ hb)) r.baseQuery.length
    (le_refl _)
  unfold Restore.flushBaseQuery
  rw [hfold]
  refine ⟨⟨forall₂_mono hc.entries more, ⟨done ++ r.baseQuery, ?_, ?_⟩, hsl.slots, hsl.files,
    hc.cache⟩, rfl, ⟨rfl, rfl, rfl⟩⟩
  · rwa [List.take_length] at hxs
  · rw [← hall, List.append_nil]

/-- The bases of delta chunks are there. -/
theorem present_filterMap {fs : List Fp} (hread : ∀ f ∈ fs, Readable env s f) :
    ∀ b ∈ fs.filterMap (baseOf? env s), Present env s b := by
  intro b hb
  obtain ⟨f, hf, hbase⟩ := List.mem_filterMap.mp hb
  exact (hread f hf).base b hbase

/-- The pending bases come in. -/
theorem Collected.lookUp {r : Restore} {fs bs : List Fp} (hc : Collected env s r fs bs)
    (hknown : ∀ b ∈ bs, Present env s b) :
    Collected env s (r.lookUp env s) fs bs ∧ (r.lookUp env s).baseQuery = [] ∧
      SameOut r (r.lookUp env s) := by
  unfold Restore.lookUp
  split
  · exact hc.flushBaseQuery hknown
  · rename_i hnil
    exact ⟨hc, List.length_eq_zero_iff.mp (not_not.mp hnil), ⟨rfl, rfl, rfl⟩⟩

/-- The collected chunks are written out. -/
theorem writeOut_spec (hl : Evicts l) {r : Restore} {fs : List Fp} (hread : ∀ f ∈ fs, Readable env s f)
    (hc : Collected env s r fs (fs.filterMap (baseOf? env s))) {out : List Bytes}
    (hw : Written env l.sessionKey r out) (tail : Bool) :
    ∃ r' ps, r.writeOut env s l tail = some r' ∧ PlainOf env s fs ps ∧
      (∀ n body, r'.containerCache.lookup n = some body → s.view.file n = some body) ∧
      (tail = false → Written env l.sessionKey r' (out ++ ps)) ∧
      (tail = true → fs ≠ [] → Finished env l.sessionKey r' (out ++ ps)) := by
  obtain ⟨hc₁, hquery, hsame₁⟩ := hc.lookUp (present_filterMap hread)
  obtain ⟨r₂, hget, hsame, hfetched⟩ := getReqContainers_spec hl hc₁
  obtain ⟨done, hdone, hall⟩ := hc₁.bases
  rw [hquery, List.append_nil] at hall
  obtain ⟨ps, hps, hcache, hwritten, hfinished⟩ := emit_spec tail r₂.enclaveRecipeBuffer fs
    r₂.baseRecipeBuffer r₂ out (by rw [hsame.enclaveRecipeBuffer]; exact hc₁.entries) hread
    (by rw [hsame.baseRecipeBuffer, ← hall]; exact hdone) hfetched
    ((hw.congr hsame₁).congr ⟨hsame.restoreChunkBuf, hsame.currentItemNum, hsame.sent⟩)
  refine ⟨_, ps, ?_, hps, ?_, fun ht => hwritten (Or.inl ht), fun ht hne => hfinished ht ?_⟩
  · show ((r.lookUp env s).getReqContainers s l).map _ = _
    rw [hget]
    rfl
  · rw [hcache]
    exact hsame.cache hc₁.cache
  · intro hnil
    have hentries := hc₁.entries
    rw [← hsame.enclaveRecipeBuffer, hnil] at hentries
    cases hentries
    exact hne rfl

/-- What has become of the fingerprints that were read: the chunks of the
first ones went out, and the others are collected. -/
def RestoreOk (env : Env) (s : Server) (l : RestoreLogin) (r : Restore) (all : List Fp) : Prop :=
  ∃ done out fs, PlainOf env s done out ∧ Written env l.sessionKey r out ∧
    (∀ f ∈ fs, Readable env s f) ∧ Collected env s r fs (fs.filterMap (baseOf? env s)) ∧
    done ++ fs = all

/-- The base of a delta chunk joins the query. -/
theorem Collected.addQuery {r : Restore} {fs bs : List Fp} (hc : Collected env s r fs bs)
    (hknown : ∀ b ∈ bs, Present env s b) (b : Fp) :
    ∃ r', (if r.baseQuery.length < baseQueryMax then { r with baseQuery := r.baseQuery ++ [b] }
        else { r.flushBaseQuery env s with baseQuery := [b] }) = r' ∧
      Collected env s r' fs (bs ++ [b]) ∧ SameOut r r' := by
  refine ⟨_, rfl, ?_⟩
  split
  · obtain ⟨done, hdone, hall⟩ := hc.bases
    refine ⟨⟨hc.entries, ⟨done, hdone, ?_⟩, hc.slots, hc.files, hc.cache⟩, ⟨rfl, rfl, rfl⟩⟩
    rw [← hall, List.append_assoc]
  · obtain ⟨hc₁, hquery, hsame⟩ := hc.flushBaseQuery hknown
    obtain ⟨done, hdone, hall⟩ := hc₁.bases
    rw [hquery, List.append_nil] at hall
    exact ⟨⟨hc₁.entries, ⟨done, hdone, by rw [hall]⟩, hc₁.slots, hc₁.files, hc₁.cache⟩,
      ⟨hsame.restoreChunkBuf, hsame.currentItemNum, hsame.sent⟩⟩

/-- An entry of the recipe is collected. -/
theorem Collected.addEntry {r : Restore} {fs : List Fp} (hread : ∀ f ∈ fs, Readable env s f)
    (hc : Collected env s r fs (fs.filterMap (baseOf? env s))) {f : Fp} (hf : Present env s f)
    {v : Cipher} (hv : s.db.queryBuffer f = some v) :
    Collected env s (r.addEntry env s v) (fs ++ [f]) ((fs ++ [f]).filterMap (baseOf? env s)) ∧
      SameOut r (r.addEntry env s v) := by
  -- the base
  obtain ⟨r₁, heq₁, hc₁, hsame⟩ : ∃ r₁, (if (env.decEntry v).deltaFlag = DELTA then
        if r.baseQuery.length < baseQueryMax then
          { r with baseQuery := r.baseQuery ++ [(env.decEntry v).basechunkHash] }
        else { r.flushBaseQuery env s with baseQuery := [(env.decEntry v).basechunkHash] }
      else r) = r₁ ∧ Collected env s r₁ fs ((fs ++ [f]).filterMap (baseOf? env s)) ∧
      SameOut r r₁ := by
    have hsplit : (fs ++ [f]).filterMap (baseOf? env s) = fs.filterMap (baseOf? env s) ++
        if (env.decEntry v).deltaFlag = DELTA then [(env.decEntry v).basechunkHash] else [] := by
      rw [List.filterMap_append, List.filterMap_cons, List.filterMap_nil, baseOf?, hv]
      by_cases hflag : (env.decEntry v).deltaFlag = DELTA <;> simp [hflag]
    rw [hsplit]
    split
    · exact hc.addQuery (present_filterMap hread) (env.decEntry v).basechunkHash
    · exact ⟨r, rfl, by rwa [List.append_nil], ⟨rfl, rfl, rfl⟩⟩
  -- the slot
  obtain ⟨k, more, map, heq₂, hid, hsl⟩ := slotOf_spec hc₁.slotsOk (hf.file hv)
  unfold Restore.addEntry
  simp only [heq₁, heq₂]
  refine ⟨?_, ⟨hsame.restoreChunkBuf, hsame.currentItemNum, hsame.sent⟩⟩
  obtain ⟨found, hfound, hbases⟩ := hc₁.bases
  refine ⟨?_, ⟨found, forall₂_mono hfound more, hbases⟩, hsl.slots, hsl.files, hc₁.cache⟩
  exact List.rel_append (forall₂_mono hc₁.entries more) (.cons ⟨⟨v, hv, rfl⟩, hid⟩ .nil)

/-- One fingerprint of the recipe. -/
theorem RestoreOk.procEntry (hl : Evicts l) {r : Restore} {all : List Fp}
    (hr : RestoreOk env s l r all) {f : Fp} (hf : Readable env s f) {v : Cipher}
    (hv : s.db.queryBuffer f = some v) :
    ∃ r', r.procEntry env s l v = some r' ∧ RestoreOk env s l r' (all ++ [f]) := by
  obtain ⟨done, out, fs, hdone, hw, hread, hc, hall⟩ := hr
  have hread' : ∀ g ∈ fs ++ [f], Readable env s g := by
    intro g hg
    rcases List.mem_append.mp hg with hg | hg
    · exact hread g hg
    · rw [List.mem_singleton.mp hg]
      exact hf
  obtain ⟨hc₁, hsame⟩ := hc.addEntry hread hf.self hv
  have hw₁ := hw.congr hsame
  rw [procEntry_eq]
  split
  · obtain ⟨r', ps, hwrite, hps, hcache, hw', -⟩ := writeOut_spec hl hread' hc₁ hw₁ false
    refine ⟨_, by rw [hwrite]; rfl, done ++ (fs ++ [f]), out ++ ps, [], ?_, ?_, ?_, ?_, ?_⟩
    · exact List.rel_append hdone hps
    · exact (hw' rfl).congr ⟨rfl, rfl, rfl⟩
    · exact fun g hg => (by cases hg)
    · exact ⟨.nil, ⟨[], .nil, rfl⟩, fun n k hk => (by cases hk), fun n hn => (by cases hn), hcache⟩
    · rw [List.append_nil, ← hall, List.append_assoc]
  · exact ⟨_, rfl, done, out, fs ++ [f], hdone, hw₁, hread', hc₁, by rw [← hall, List.append_assoc]⟩

/-! ## The recipe -/

theorem RestoreOk.clearMap {r : Restore} {all : List Fp} (h : RestoreOk env s l r all) :
    RestoreOk env s l { r with tmpContainerMap := ∅ } all := by
  obtain ⟨done, out, fs, hdone, hw, hread, hc, hall⟩ := h
  exact ⟨done, out, fs, hdone, hw.congr ⟨rfl, rfl, rfl⟩, hread, hc.clearMap, hall⟩

/-- Fingerprints are looked up. -/
theorem RestoreOk.foldlM (hl : Evicts l) : ∀ (fs : List Fp) {r : Restore} {all : List Fp}
    (value : Cipher), RestoreOk env s l r all → (∀ f ∈ fs, Readable env s f) →
    ∃ r', (readIndexStoreBatch s value fs).foldlM (Restore.procEntry env s l) r = some r' ∧
      RestoreOk env s l r' (all ++ fs)
  | [], r, all, _, hr, _ => ⟨r, rfl, by rwa [List.append_nil]⟩
  | f :: fs, r, all, value, hr, hread => by
      have hf := hread f (by simp)
      obtain ⟨v, -, hv, -⟩ := id hf.self
      obtain ⟨r₁, hstep, hr₁⟩ := hr.procEntry hl hf hv
      obtain ⟨r', hfold, hr'⟩ := RestoreOk.foldlM hl fs v hr₁ fun g hg => hread g (by simp [hg])
      refine ⟨r', ?_, ?_⟩
      · rw [readIndexStoreBatch, hv, Option.getD_some, List.foldlM_cons, hstep]
        exact hfold
      · rwa [List.append_assoc] at hr'

/-- The calls of `ProcRecipeBatch`. -/
theorem RestoreOk.procRecipeBatches (hl : Evicts l) : ∀ (bufs : List Bytes) {r : Restore}
    {all : List Fp}, RestoreOk env s l r all →
    (∀ buf ∈ bufs, ∀ f ∈ recipeKeys env l buf, Readable env s f) →
    ∃ r', r.procRecipeBatches env s l bufs = some r' ∧
      RestoreOk env s l r' (all ++ bufs.flatMap (recipeKeys env l))
  | [], r, all, hr, _ => ⟨r, rfl, by rwa [List.flatMap_nil, List.append_nil]⟩
  | buf :: bufs, r, all, hr, hread => by
      obtain ⟨r₁, hstep, hr₁⟩ := RestoreOk.foldlM hl (recipeKeys env l buf) zeroCipher hr.clearMap
        (hread buf (by simp))
      obtain ⟨r', hrest, hr'⟩ := RestoreOk.procRecipeBatches hl bufs hr₁
        fun b hb => hread b (by simp [hb])
      refine ⟨r', ?_, ?_⟩
      · rw [Restore.procRecipeBatches, List.foldlM_cons, procRecipeBatch_eq, hstep]
        exact hrest
      · rwa [List.append_assoc] at hr'

/-- The rest goes out. -/
theorem RestoreOk.procRecipeTailBatch (hl : Evicts l) {r : Restore} {all : List Fp}
    (hr : RestoreOk env s l r all) :
    ∃ r' ps, r.procRecipeTailBatch env s l = some r' ∧ PlainOf env s all ps ∧
      Finished env l.sessionKey r' ps := by
  obtain ⟨done, out, fs, hdone, hw, hread, hc, rfl⟩ := hr.clearMap
  unfold Restore.procRecipeTailBatch
  simp only
  by_cases hnil : r.enclaveRecipeBuffer.length = 0
  · rw [if_neg (by simpa using hnil)]
    have hfs : fs = [] := by
      have hentries := hc.entries
      simp only [List.length_eq_zero_iff.mp hnil] at hentries
      cases hentries
      rfl
    subst hfs
    exact ⟨_, out, rfl, by rwa [List.append_nil], hw.finish_buf⟩
  · rw [if_pos hnil]
    have hfs : fs ≠ [] := by
      rintro rfl
      have hentries := hc.entries
      simp only at hentries
      generalize hbuf : r.enclaveRecipeBuffer = buf at hentries
      cases hentries
      exact hnil (by rw [hbuf]; rfl)
    obtain ⟨r', ps, hwrite, hps, -, -, hfin⟩ := writeOut_spec hl hread hc hw true
    exact ⟨r', out ++ ps, hwrite, List.rel_append hdone hps, hfin rfl hfs⟩

theorem restoreOk_start (env : Env) (s : Server) (l : RestoreLogin) :
    RestoreOk env s l (Restore.start l) [] := by
  refine ⟨[], [], [], .nil, ⟨[], [], rfl, rfl, rfl, rfl, fun hn => ⟨hn, fun g hg => (by cases hg)⟩⟩,
    fun f hf => (by cases hf), ?_, rfl⟩
  exact ⟨.nil, ⟨[], .nil, rfl⟩, fun n k hk => (by cases hk), fun n hn => (by cases hn),
    fun n body hb => (by cases hb)⟩

end Restore

end ShieldReduce
