import ShieldReduce.System.Writers
import ShieldReduce.Invariant.Upload

/-!
# Writers and reader

The reader of a container skips the entry, the fingerprint and the
super-features in front of a payload. Whatever is stored, and however
often a container rolls over, it finds the payload and the IV of every
chunk, in all index types but `DEBE`: there the last chunk of a container
is followed by no bytes that the reader could find its IV in.

Storing only appends to containers (`Grows`), and the sessions keep what
they find (`Keeps`).
-/

namespace ShieldReduce

open ByteLib UMapLib

variable {env : Env} {t : IndexType}

/-! ## Contents of containers -/

/-- Each container has a name below the counter, and one directory. -/
structure Distinct (v : View) (created : Nat) : Prop where
  named : ∀ {d n}, v d n ≠ none → Named created n
  apart : ∀ n, v .base n = none ∨ v .delta n = none

/-- Containers that are not empty get longer at most. -/
def Grows (v v' : View) : Prop :=
  ∀ d n file, file ≠ [] → v d n = some file → ∃ file', v' d n = some file' ∧ file <+: file'

/-- Containers that are not empty stay as they are. -/
def Keeps (v v' : View) : Prop := ∀ d n file, file ≠ [] → v d n = some file → v' d n = some file

theorem Keeps.trans {u v w : View} (h : Keeps u v) (h' : Keeps v w) : Keeps u w :=
  fun d n file hne hfile => h' d n file hne (h d n file hne hfile)

theorem Keeps.grows {v v' : View} (h : Keeps v v') : Grows v v' :=
  fun d n file hne hfile => ⟨file, h d n file hne hfile, List.prefix_refl _⟩

theorem Grows.trans {u v w : View} (h : Grows u v) (h' : Grows v w) : Grows u w := by
  intro d n file hne hfile
  obtain ⟨file', hfile', hpre⟩ := h d n file hne hfile
  have hne' : file' ≠ [] := by
    rintro rfl
    exact hne (List.prefix_nil.mp hpre)
  obtain ⟨file'', hfile'', hpre'⟩ := h' d n file' hne' hfile'
  exact ⟨file'', hfile'', hpre.trans hpre'⟩

theorem Distinct.mono {v v' : View} {a b : Nat} (h : Distinct v a) (hab : a ≤ b)
    (hsub : ∀ d n, v' d n ≠ none → v d n ≠ none) : Distinct v' b where
  named := fun hn => (h.named (hsub _ _ hn)).mono hab
  apart := by
    intro n
    by_contra hboth
    rw [not_or] at hboth
    rcases h.apart n with hn | hn
    · exact hsub _ _ hboth.1 hn
    · exact hsub _ _ hboth.2 hn

/-- A container under the next name. -/
theorem Distinct.fresh {v v' : View} {created : Nat} (h : Distinct v created)
    (hlt : created < 2 ^ 31) (d : Dir)
    (hv : ∀ d' n, v' d' n ≠ none → v d' n ≠ none ∨ (d' = d ∧ n = containerName created)) :
    Distinct v' (created + 1) where
  named := by
    intro d' n hn
    rcases hv d' n hn with hold | ⟨-, rfl⟩
    · exact (h.named hold).mono (Nat.le_succ _)
    · exact ⟨created, Nat.lt_succ_self _, rfl⟩
  apart := by
    intro n
    by_contra hboth
    rw [not_or] at hboth
    have hnew : ∀ d', v d' (containerName created) = none := by
      intro d'
      by_contra hne
      exact not_named hlt (h.named hne)
    rcases hv .base n hboth.1 with hb | ⟨rfl, rfl⟩
    · rcases hv .delta n hboth.2 with hd | ⟨-, rfl⟩
      · rcases h.apart n with hn | hn
        · exact hb hn
        · exact hd hn
      · exact hb (hnew .base)
    · rcases hv .delta _ hboth.2 with hd | ⟨hdir, -⟩
      · exact hd (hnew .delta)
      · cases hdir

/-- The container is found, in whichever directory it is. -/
theorem Distinct.file {v : View} {created : Nat} (h : Distinct v created) {d : Dir}
    {n : ContainerName} {file : Bytes} (hfile : v d n = some file) : v.file n = some file := by
  unfold View.file
  cases d with
  | base => rw [hfile]
  | delta =>
      have hnone : v .base n = none := by
        rcases h.apart n with hn | hn
        · exact hn
        · rw [hfile] at hn
          cases hn
      rw [hnone]
      exact hfile

/-! ## Open containers -/

/-- The containers during a session: the files, and the two open ones. -/
def Session.content (s : Session) : View := fun d n =>
  if n = (s.client.cur d).containerID then some (s.client.cur d).buf else s.server.view d n

/-- Between two calls of the writer. -/
structure Tidy (s : Session) : Prop where
  distinct : Distinct s.content s.server.created
  body : ∀ d, (s.client.cur d).body = []

theorem content_cur (s : Session) (d : Dir) :
    s.content d (s.client.cur d).containerID = some (s.client.cur d).buf := if_pos rfl

theorem Tidy.named_cur {s : Session} (h : Tidy s) (d : Dir) :
    Named s.server.created (s.client.cur d).containerID :=
  h.distinct.named (d := d) (by rw [content_cur]; simp)

theorem Tidy.rollOver {s : Session} (h : Tidy s) (hlt : s.server.created < 2 ^ 31) (d : Dir) :
    Tidy (s.rollOver d) ∧ Keeps s.content (s.rollOver d).content := by
  have hold : (s.client.cur d).containerID ≠ containerName s.server.created := by
    intro heq
    exact not_named hlt (heq ▸ h.named_cur d)
  have hcontent : ∀ d' n, (s.rollOver d).content d' n =
      if d' = d ∧ n = containerName s.server.created then some [] else s.content d' n := by
    intro d' n
    unfold Session.content
    rw [view_rollOver]
    by_cases hd : d' = d
    · subst hd
      rw [cur_rollOver_self]
      by_cases hn : n = containerName s.server.created
      · simp [hn]
      · simp [hn]
    · rw [cur_rollOver_of_ne s hd]
      simp [hd]
  refine ⟨⟨?_, ?_⟩, ?_⟩
  · refine h.distinct.fresh hlt d fun d' n hn => ?_
    rw [hcontent] at hn
    by_cases hnew : d' = d ∧ n = containerName s.server.created
    · exact Or.inr hnew
    · rw [if_neg hnew] at hn
      exact Or.inl hn
  · intro d'
    by_cases hd : d' = d
    · rw [hd, cur_rollOver_self]
    · rw [cur_rollOver_of_ne s hd]
      exact h.body d'
  · intro d' n file _ hfile
    rw [hcontent, if_neg]
    · exact hfile
    · rintro ⟨-, rfl⟩
      exact not_named hlt (h.distinct.named (by rw [hfile]; simp))

theorem content_append (s : Session) (d : Dir) (bytes : Bytes) (d' : Dir) (n : ContainerName) :
    (s.setCur d { s.client.cur d with buf := (s.client.cur d).buf ++ bytes }).content d' n =
      if d' = d ∧ n = (s.client.cur d).containerID then some ((s.client.cur d).buf ++ bytes)
      else s.content d' n := by
  unfold Session.content
  by_cases hd : d' = d
  · subst hd
    rw [cur_setCur_self]
    by_cases hn : n = (s.client.cur d').containerID
    · simp [hn]
    · simp only [hn, and_false, if_false]
      rfl
  · rw [cur_setCur_of_ne hd]
    simp only [hd, false_and, if_false]
    rfl

theorem Tidy.append {s : Session} (h : Tidy s) (d : Dir) (bytes : Bytes) :
    Tidy (s.setCur d { s.client.cur d with buf := (s.client.cur d).buf ++ bytes }) ∧
      Grows s.content
        (s.setCur d { s.client.cur d with buf := (s.client.cur d).buf ++ bytes }).content := by
  refine ⟨⟨?_, ?_⟩, ?_⟩
  · refine h.distinct.mono (le_refl _) fun d' n hn => ?_
    rw [content_append] at hn
    by_cases hopen : d' = d ∧ n = (s.client.cur d).containerID
    · rw [hopen.1, hopen.2, content_cur]
      simp
    · rwa [if_neg hopen] at hn
  · intro d'
    by_cases hd : d' = d
    · subst hd
      rw [cur_setCur_self]
      exact h.body d'
    · rw [cur_setCur_of_ne hd]
      exact h.body d'
  · intro d' n file _ hfile
    rw [content_append]
    by_cases hopen : d' = d ∧ n = (s.client.cur d).containerID
    · rw [if_pos hopen]
      rw [hopen.1, hopen.2, content_cur] at hfile
      obtain rfl := Option.some.inj hfile
      exact ⟨_, rfl, List.prefix_append _ _⟩
    · rw [if_neg hopen]
      exact ⟨file, hfile, List.prefix_refl _⟩

/-! ## Storing a chunk -/

/-- What a writer puts in front of a payload. -/
def IndexType.header : IndexType → Nat
  | debe => 0
  | _ => sizeofRecipeEntry + 4 * CHUNK_HASH_SIZE

/-- The payload and the IV are behind the header at the offset. -/
structure Placed.At (t : IndexType) (p : Placed) (file : Bytes) : Prop where
  bytes : p.payload ++ p.iv.1 <+: file.drop (p.entry.offset.toNat + t.header)
  length : p.entry.length.toNat = p.payload.length

/-- They are the last bytes of their container. -/
def Placed.Last (t : IndexType) (p : Placed) (v : View) : Prop :=
  ∃ d file, v d p.entry.containerName = some file ∧ p.At t file ∧
    file.length = p.entry.offset.toNat + t.header + (p.payload ++ p.iv.1).length

def Placed.In (t : IndexType) (p : Placed) (v : View) : Prop :=
  ∃ d file, v d p.entry.containerName = some file ∧ p.At t file

theorem Placed.Last.placedIn {p : Placed} {v : View} (h : p.Last t v) : p.In t v := by
  obtain ⟨d, file, hfile, hat, -⟩ := h
  exact ⟨d, file, hfile, hat⟩

theorem Placed.At.ne_nil {p : Placed} {file : Bytes} (h : p.At t file) : file ≠ [] := by
  rintro rfl
  have hlen := h.bytes.length_le
  rw [List.drop_nil, List.length_append, p.iv.2] at hlen
  exact absurd hlen (by simp)

theorem Placed.At.extend {p : Placed} {file buf : Bytes} (h : p.At t file) (hbuf : file <+: buf) :
    p.At t buf := by
  obtain ⟨rest, rfl⟩ := hbuf
  refine ⟨?_, h.length⟩
  rw [List.drop_append]
  exact h.bytes.trans (List.prefix_append _ _)

theorem Placed.In.grows {p : Placed} {v v' : View} (h : p.In t v) (hv : Grows v v') :
    p.In t v' := by
  obtain ⟨d, file, hfile, hat⟩ := h
  obtain ⟨file', hfile', hpre⟩ := hv d _ file hat.ne_nil hfile
  exact ⟨d, file', hfile', hat.extend hpre⟩

theorem Placed.Last.keeps {p : Placed} {v v' : View} (h : p.Last t v) (hv : Keeps v v') :
    p.Last t v' := by
  obtain ⟨d, file, hfile, hat, hlen⟩ := h
  exact ⟨d, file, hv d _ file hat.ne_nil hfile, hat, hlen⟩

/-- The session when the IV has been drawn. -/
def IndexType.drawn (env : Env) (t : IndexType) (s : Session) (c : StoreCall) : Session where
  client := { s.client with iv := pickNewIV s.client.iv }
  server := { s.server with
    onlineBackupSize := s.server.onlineBackupSize + UInt64.ofNat (t.data env c).length }

theorem IndexType.length_payload (henv : env.Lawful) (t : IndexType) (s : Session) (c : StoreCall) :
    (t.placed env s c).payload.length ≤ MAX_CHUNK_SIZE := by
  rw [placed, henv.length_keyIV, data]
  split
  · exact le_trans (henv.length_pack c.chunk).2 c.chunk.2.2
  · exact c.chunk.2.2

/-- What is appended to the open container, when there is room. -/
structure Appends (t : IndexType) (p : Placed) (u : Session) (d : Dir) (s' : Session) : Prop where
  name : p.entry.containerName = (u.client.cur d).containerID
  offset : p.entry.offset.toNat = (u.client.cur d).buf.length
  length : p.entry.length.toNat = p.payload.length
  session : ∃ head : Bytes, head.length = t.header ∧
    s' = u.setCur d { u.client.cur d with
      buf := (u.client.cur d).buf ++ (head ++ (p.payload ++ p.iv.1)) }

/-- `SaveChunk`, with and without a roll-over. -/
theorem EcallStorageCore.saveChunk_appends (s : Session) {chunkData : Bytes}
    (chunkAddr : RecipeEntry) (hsize : chunkData.length ≤ MAX_CHUNK_SIZE) :
    ∃ u, (u = s ∨ u = s.rollOver .base) ∧
      Appends .debe ⟨(saveChunk s chunkData chunkAddr).1, chunkData, s.client.iv⟩ u .base
        (saveChunk s chunkData chunkAddr).2 := by
  have hmax : MAX_CONTAINER_SIZE < 2 ^ 32 := by decide
  have hchunk : MAX_CHUNK_SIZE < 2 ^ 32 := by decide
  have hlength : (UInt32.ofNat chunkData.length).toNat = chunkData.length :=
    Nat.mod_eq_of_lt (lt_of_le_of_lt hsize hchunk)
  by_cases hfit : CRYPTO_BLOCK_SIZE + chunkData.length + (s.client.cur .base).buf.length <
      MAX_CONTAINER_SIZE
  · refine ⟨s, Or.inl rfl, ?_⟩
    unfold saveChunk
    simp only [hfit, if_true]
    exact ⟨rfl, Nat.mod_eq_of_lt (by omega), hlength, [], rfl, rfl⟩
  · refine ⟨s.rollOver .base, Or.inr rfl, ?_⟩
    unfold saveChunk
    simp only [hfit, if_false]
    refine ⟨rfl, ?_, hlength, [], rfl, rfl⟩
    simp only [cur_rollOver_self]
    rfl

/-- `SavebaseChunk` and `SavedeltaChunk`. -/
theorem Session.saveChunk_appends (s : Session) (d : Dir) {chunkData : Bytes}
    (chunkAddr : RecipeEntry) (sf : Sf) (fp : Fp) (hsize : chunkData.length ≤ MAX_CHUNK_SIZE)
    (ht : t ≠ .debe) :
    ∃ u, (u = s ∨ u = s.rollOver d) ∧
      Appends t ⟨(s.saveChunk d chunkData chunkAddr sf fp).1, chunkData, s.client.iv⟩ u d
        (s.saveChunk d chunkData chunkAddr sf fp).2 := by
  have hmax : MAX_CONTAINER_SIZE < 2 ^ 32 := by decide
  have hchunk : MAX_CHUNK_SIZE < 2 ^ 32 := by decide
  obtain ⟨u, hu, hroom, heq⟩ := s.saveChunk_cases d chunkAddr sf fp hsize
  have hiv : u.client.iv = s.client.iv := by
    rcases hu with rfl | rfl
    · rfl
    · rfl
  refine ⟨u, hu, ?_⟩
  rw [heq]
  refine ⟨rfl, Nat.mod_eq_of_lt (by omega), Nat.mod_eq_of_lt (lt_of_le_of_lt hsize hchunk), ?_⟩
  refine ⟨(u.recordFor d chunkData chunkAddr sf fp).entry.toBytes ++ (fp.1 ++ sf.1), ?_, ?_⟩
  · rw [List.length_append, List.length_append, RecipeEntry.length_toBytes, fp.2, sf.2]
    cases t with
    | debe => exact absurd rfl ht
    | _ => rfl
  · simp only [Record.toBytes, List.append_assoc, ← hiv]
    rfl

/-- `u` is the session with room for the chunk: the same or after a
roll-over. -/
theorem IndexType.store_cases (henv : env.Lawful) (t : IndexType) (s : Session) (c : StoreCall) :
    ∃ u d, (u = t.drawn env s c ∨ u = (t.drawn env s c).rollOver d) ∧
      Appends t (t.placed env s c) u d (t.store env s c).2 := by
  have hsize := t.length_payload henv s c
  by_cases ht : t = .debe
  · subst ht
    obtain ⟨u, hu, happ⟩ := EcallStorageCore.saveChunk_appends (drawn env debe s c)
      c.chunkAddr hsize
    exact ⟨u, .base, hu, happ⟩
  · have hstore : t.store env s c = s.processSheUniqueChunk env c.chunkAddr c.chunk.1 c.sf c.fp := by
      cases t with
      | debe => exact absurd rfl ht
      | _ => rfl
    have hdata : t.data env c =
        if c.chunkAddr.deltaFlag = NO_DELTA then env.pack c.chunk.1 else c.chunk.1 := by
      simp only [data, ht, false_or]
    by_cases hflag : c.chunkAddr.deltaFlag = NO_DELTA
    · obtain ⟨u, hu, happ⟩ := (t.drawn env s c).saveChunk_appends .base
        { c.chunkAddr with superfeature := c.sf } c.sf c.fp hsize ht
      have heq : t.store env s c = (t.drawn env s c).saveChunk .base (t.placed env s c).payload
          { c.chunkAddr with superfeature := c.sf } c.sf c.fp := by
        rw [hstore]
        unfold Session.processSheUniqueChunk
        simp only [placed, drawn, hdata, if_pos hflag]
        rfl
      refine ⟨u, .base, hu, ?_⟩
      rw [← heq] at happ
      exact happ
    · obtain ⟨u, hu, happ⟩ := (t.drawn env s c).saveChunk_appends .delta c.chunkAddr c.sf c.fp
        hsize ht
      have heq : t.store env s c = (t.drawn env s c).saveChunk .delta (t.placed env s c).payload
          c.chunkAddr c.sf c.fp := by
        rw [hstore]
        unfold Session.processSheUniqueChunk
        simp only [placed, drawn, hdata, if_neg hflag]
        rfl
      refine ⟨u, .delta, hu, ?_⟩
      rw [← heq] at happ
      exact happ

theorem IndexType.created_store (henv : env.Lawful) (t : IndexType) (s : Session) (c : StoreCall) :
    s.server.created ≤ (t.store env s c).2.server.created := by
  obtain ⟨u, d, hu, happ⟩ := t.store_cases henv s c
  obtain ⟨head, -, hs'⟩ := happ.session
  rw [hs']
  rcases hu with rfl | rfl
  · exact le_refl _
  · exact Nat.le_succ _

/-- A call of the writer: nothing is lost, and what was placed is the end of
its container. -/
theorem Tidy.store (henv : env.Lawful) {s : Session} (h : Tidy s) (t : IndexType) (c : StoreCall)
    (hcreated : (t.store env s c).2.server.created ≤ 2 ^ 31) :
    Tidy (t.store env s c).2 ∧ Grows s.content (t.store env s c).2.content ∧
      (t.placed env s c).Last t (t.store env s c).2.content := by
  obtain ⟨u, d, hu, happ⟩ := t.store_cases henv s c
  obtain ⟨head, hhead, hs'⟩ := happ.session
  have hdrawn : Tidy (t.drawn env s c) := ⟨h.distinct, h.body⟩
  have hready : Tidy u ∧ Keeps s.content u.content := by
    rcases hu with rfl | rfl
    · exact ⟨hdrawn, fun _ _ _ _ hfile => hfile⟩
    · rw [hs'] at hcreated
      exact hdrawn.rollOver (show s.server.created < 2 ^ 31 from hcreated) d
  obtain ⟨htidy, hgrows⟩ := hready.1.append d
    (head ++ ((t.placed env s c).payload ++ (t.placed env s c).iv.1))
  rw [hs']
  refine ⟨htidy, hready.2.grows.trans hgrows, d, (u.client.cur d).buf ++
    (head ++ ((t.placed env s c).payload ++ (t.placed env s c).iv.1)), ?_, ⟨?_, happ.length⟩, ?_⟩
  · rw [content_append, happ.name, if_pos ⟨rfl, rfl⟩]
  · rw [happ.offset, ← hhead, ← List.append_assoc, ← List.length_append, List.drop_left]
  · rw [happ.offset, ← hhead, List.length_append, List.length_append]
    omega

/-! ## Sessions -/

/-- All that was placed is in the containers, and the last of it is at the
end of one. -/
structure Logged (t : IndexType) (ps : List Placed) (v : View) : Prop where
  mem : ∀ p ∈ ps, p.In t v
  last : ∀ p, ps.getLast? = some p → p.Last t v

theorem Logged.keeps {ps : List Placed} {v v' : View} (h : Logged t ps v) (hv : Keeps v v') :
    Logged t ps v' :=
  ⟨fun p hp => (h.mem p hp).grows hv.grows, fun p hp => (h.last p hp).keeps hv⟩

/-- What is placed later comes behind what was there. -/
theorem Logged.append {ps qs : List Placed} {v v' : View} (h : Logged t ps v) (hv : Grows v v')
    (hkeep : qs = [] → Keeps v v') (h' : Logged t qs v') : Logged t (ps ++ qs) v' where
  mem := by
    intro p hp
    rcases List.mem_append.mp hp with hp | hp
    · exact (h.mem p hp).grows hv
    · exact h'.mem p hp
  last := by
    intro p hp
    by_cases hqs : qs = []
    · rw [hqs, List.append_nil] at hp
      exact (h.last p hp).keeps (hkeep hqs)
    · rw [List.getLast?_append_of_ne_nil _ hqs] at hp
      exact h'.last p hp

theorem logged_nil (v : View) : Logged t [] v where
  mem := fun _ hp => absurd hp List.not_mem_nil
  last := fun _ hp => by cases hp

theorem IndexType.created_storeAll (henv : env.Lawful) (t : IndexType) :
    ∀ (cs : List StoreCall) (s : Session),
      s.server.created ≤ (t.storeAll env s cs).1.server.created
  | [], _ => le_refl _
  | c :: cs, s => le_trans (t.created_store henv s c) (t.created_storeAll henv cs _)

/-- The calls of a session. -/
theorem Tidy.storeAll (henv : env.Lawful) (t : IndexType) : ∀ (cs : List StoreCall) {s : Session},
    Tidy s → (t.storeAll env s cs).1.server.created ≤ 2 ^ 31 →
    Tidy (t.storeAll env s cs).1 ∧ Grows s.content (t.storeAll env s cs).1.content ∧
      Logged t (t.storeAll env s cs).2 (t.storeAll env s cs).1.content
  | [], s, h, _ => ⟨h, fun _ _ file _ hfile => ⟨file, hfile, List.prefix_refl _⟩, logged_nil _⟩
  | c :: cs, s, h, hcreated => by
      have hfirst := t.created_storeAll henv cs (t.store env s c).2
      obtain ⟨htidy, hgrows, hlast⟩ := h.store henv t c (le_trans hfirst hcreated)
      obtain ⟨htidy', hgrows', hlogged⟩ := Tidy.storeAll henv t cs htidy hcreated
      refine ⟨htidy', hgrows.trans hgrows', ?_⟩
      have hone : Logged t [t.placed env s c] (t.store env s c).2.content := by
        refine ⟨fun p hp => ?_, fun p hp => ?_⟩
        · rw [List.mem_singleton.mp hp]
          exact hlast.placedIn
        · obtain rfl := Option.some.inj hp
          exact hlast
      refine hone.append hgrows' ?_ hlogged
      intro hnil
      have hcs : cs = [] := by
        cases cs with
        | nil => rfl
        | cons c' cs => cases hnil
      subst hcs
      exact fun _ _ _ _ hfile => hfile

/-- A new client opens two containers. -/
theorem Distinct.start {s : Server} (h : Distinct s.view s.created) (l : Login)
    (hcreated : s.created + 2 ≤ 2 ^ 31) :
    Tidy (.start s l) ∧ Keeps s.view (Session.start s l).content := by
  -- the containers when only the base container is open
  let opened : View := fun d n =>
    if d = .base ∧ n = containerName s.created then some [] else s.view d n
  have hopened : Distinct opened (s.created + 1) := by
    refine h.fresh (by omega) .base fun d n hn => ?_
    by_cases hnew : d = .base ∧ n = containerName s.created
    · exact Or.inr hnew
    · exact Or.inl (by simpa only [opened, if_neg hnew] using hn)
  have hcontent : ∀ d n, (Session.start s l).content d n =
      if d = .delta ∧ n = containerName (s.created + 1) then some [] else opened d n := by
    rintro (_ | _) n
    · simp [Session.content, Session.start, opened]
      rfl
    · simp [Session.content, Session.start, opened]
      rfl
  refine ⟨⟨?_, ?_⟩, ?_⟩
  · refine hopened.fresh (by omega) .delta fun d n hn => ?_
    rw [hcontent] at hn
    by_cases hnew : d = .delta ∧ n = containerName (s.created + 1)
    · exact Or.inr hnew
    · rw [if_neg hnew] at hn
      exact Or.inl hn
  · rintro (_ | _) <;> rfl
  · intro d n file _ hfile
    have hold : opened d n = some file := by
      simp only [opened]
      rw [if_neg]
      · exact hfile
      · rintro ⟨-, rfl⟩
        exact not_named (show s.created < 2 ^ 31 by omega) (h.named (by rw [hfile]; simp))
    rw [hcontent, if_neg]
    · exact hold
    · rintro ⟨-, rfl⟩
      exact not_named (show s.created + 1 < 2 ^ 31 by omega) (hopened.named (by rw [hold]; simp))

/-- At the end of a session the containers are files. -/
theorem Tidy.close {s : Session} (h : Tidy s) (env : Env) :
    Distinct (EcallFreqIndex.processTailBatch env s).close.server.view
        (EcallFreqIndex.processTailBatch env s).close.server.created ∧
      Keeps s.content (EcallFreqIndex.processTailBatch env s).close.server.view := by
  have hview : ∀ d n, (EcallFreqIndex.processTailBatch env s).close.server.view d n =
      if n = (s.client.cur d).containerID ∧ (s.client.cur d).buf ≠ [] then
        some (s.client.cur d).buf else s.server.view d n := by
    intro d n
    rw [view_close, EcallFreqIndex.cur_processTailBatch env h.body,
      EcallFreqIndex.server_processTailBatch]
  have hcreated := created_close (EcallFreqIndex.processTailBatch env s)
  rw [EcallFreqIndex.server_processTailBatch] at hcreated
  constructor
  · refine h.distinct.mono hcreated fun d n hn => ?_
    by_cases hcur : n = (s.client.cur d).containerID
    · rw [hcur, content_cur]
      simp
    · rw [hview, if_neg (fun hc => hcur hc.1)] at hn
      rwa [Session.content, if_neg hcur]
  · intro d n file hne hfile
    rw [hview]
    by_cases hcur : n = (s.client.cur d).containerID
    · rw [hcur, content_cur] at hfile
      obtain rfl := Option.some.inj hfile
      rw [if_pos ⟨hcur, hne⟩]
    · rw [if_neg (fun hc => hcur hc.1)]
      rwa [Session.content, if_neg hcur] at hfile

namespace IndexType

theorem created_session (henv : env.Lawful) (t : IndexType) (s : Server) (l : Login)
    (cs : List StoreCall) : s.created + 2 ≤ (t.storeAll env (.start s l) cs).1.server.created ∧
      (t.storeAll env (.start s l) cs).1.server.created ≤ (t.session env s l cs).1.created := by
  refine ⟨t.created_storeAll henv cs (.start s l), ?_⟩
  have hclose := created_close (EcallFreqIndex.processTailBatch env
    (t.storeAll env (.start s l) cs).1)
  rw [EcallFreqIndex.server_processTailBatch] at hclose
  simp only [session]
  exact hclose

theorem created_sessions (henv : env.Lawful) (t : IndexType) :
    ∀ (rest : List (Login × List StoreCall)) (s : Server),
      s.created ≤ (t.sessions env s rest).1.created
  | [], _ => le_refl _
  | (l, cs) :: rest, s => by
      obtain ⟨hstart, hend⟩ := t.created_session henv s l cs
      have hrest := t.created_sessions henv rest (t.session env s l cs).1
      simp only [sessions]
      omega

theorem storeAll_eq_nil {t : IndexType} {s : Session} {cs : List StoreCall} :
    (t.storeAll env s cs).2 = [] ↔ cs = [] := by
  cases cs with
  | nil => exact ⟨fun _ => rfl, fun _ => rfl⟩
  | cons c cs => exact iff_of_false (List.cons_ne_nil _ _) (List.cons_ne_nil _ _)

/-- One session. -/
theorem session_logged (henv : env.Lawful) (t : IndexType) {s : Server}
    (h : Distinct s.view s.created) (l : Login) (cs : List StoreCall)
    (hcreated : (t.session env s l cs).1.created ≤ 2 ^ 31) :
    Distinct (t.session env s l cs).1.view (t.session env s l cs).1.created ∧
      Grows s.view (t.session env s l cs).1.view ∧
      ((t.session env s l cs).2 = [] → Keeps s.view (t.session env s l cs).1.view) ∧
      Logged t (t.session env s l cs).2 (t.session env s l cs).1.view := by
  obtain ⟨hroom, hend⟩ := t.created_session henv s l cs
  obtain ⟨htidy, hkeep⟩ := h.start l (by omega)
  obtain ⟨htidy', hgrows, hlogged⟩ := Tidy.storeAll henv t cs htidy (by omega)
  obtain ⟨hdistinct, hclose⟩ := htidy'.close env
  simp only [session]
  refine ⟨hdistinct, (hkeep.grows.trans hgrows).trans hclose.grows, ?_, hlogged.keeps hclose⟩
  intro hnil
  have hcs : cs = [] := storeAll_eq_nil.mp hnil
  subst hcs
  exact hkeep.trans hclose

/-- The sessions of a run. -/
theorem sessions_logged (henv : env.Lawful) (t : IndexType) (later : List (Login × List StoreCall))
    {s : Server} (h : Distinct s.view s.created)
    (hcreated : (t.sessions env s later).1.created ≤ 2 ^ 31) :
    Distinct (t.sessions env s later).1.view (t.sessions env s later).1.created ∧
      Grows s.view (t.sessions env s later).1.view ∧
      ((t.sessions env s later).2 = [] → Keeps s.view (t.sessions env s later).1.view) ∧
      Logged t (t.sessions env s later).2 (t.sessions env s later).1.view := by
  induction later generalizing s with
  | nil =>
      have hkeep : Keeps s.view s.view := fun _ _ _ _ hfile => hfile
      exact ⟨h, hkeep.grows, fun _ => hkeep, logged_nil _⟩
  | cons first later ih =>
      obtain ⟨l, cs⟩ := first
      have hfirst := t.created_sessions henv later (t.session env s l cs).1
      simp only [sessions] at hcreated ⊢
      obtain ⟨hdistinct, hgrows, hkeep, hlogged⟩ :=
        t.session_logged henv h l cs (le_trans hfirst hcreated)
      obtain ⟨hdistinct', hgrows', hkeep', hlogged'⟩ := ih hdistinct hcreated
      refine ⟨hdistinct', hgrows.trans hgrows', ?_, hlogged.append hgrows' hkeep' hlogged'⟩
      intro hnil
      obtain ⟨hps, hqs⟩ := List.append_eq_nil_iff.mp hnil
      exact (hkeep hps).trans (hkeep' hqs)

theorem sessions_eq_nil {t : IndexType} : ∀ {rest : List (Login × List StoreCall)} {s : Server},
    (t.sessions env s rest).2 = [] ↔ ∀ x ∈ rest, x.2 = []
  | [], s => ⟨fun _ _ hx => absurd hx List.not_mem_nil, fun _ => rfl⟩
  | (l, cs) :: rest, s => by
      rw [List.forall_mem_cons, ← sessions_eq_nil (s := (t.session env s l cs).1)]
      refine List.append_eq_nil_iff.trans (and_congr_left fun _ => ?_)
      exact storeAll_eq_nil

end IndexType

/-! ## The reader -/

/-- The reader finds what was placed, whatever the memory behind the container
holds. -/
def Placed.Located (p : Placed) (v : View) : Prop :=
  ∃ file, v.file p.entry.containerName = some file ∧ ∀ buf, file <+: buf →
    getChunkContent buf p.entry = p.payload ∧ getChunkIV buf p.entry = p.iv

theorem Placed.At.read {p : Placed} {buf : Bytes} (h : p.At t buf) (ht : t ≠ .debe) :
    getChunkContent buf p.entry = p.payload ∧ getChunkIV buf p.entry = p.iv := by
  have hheader : t.header = sizeofRecipeEntry + 4 * CHUNK_HASH_SIZE := by
    cases t with
    | debe => exact absurd rfl ht
    | _ => rfl
  obtain ⟨rest, hrest⟩ := h.bytes
  rw [hheader, ← Nat.add_assoc, List.append_assoc] at hrest
  constructor
  · have hlen := congrArg List.length hrest
    rw [List.length_append, List.length_append, List.length_drop, p.iv.2] at hlen
    rw [getChunkContent, h.length, slice_memOf (by omega), ← hrest, List.take_left]
  · rw [getChunkIV, h.length, ← List.drop_drop, ← hrest, List.drop_left, BytesN.ofBytes_append]

/-- Behind the last chunk of a `DEBE` container the IV is read from memory
that is not the container's. -/
theorem Placed.Last.not_located {p : Placed} {v : View} {created : Nat} (h : p.Last .debe v)
    (hv : Distinct v created) : ¬ p.Located v := by
  obtain ⟨d, file, hfile, hat, hlen⟩ := h
  rintro ⟨file', hfile', hread⟩
  rw [hv.file hfile] at hfile'
  obtain rfl := Option.some.inj hfile'
  have hstale : ∀ b : UInt8, p.iv = BytesN.ofBytes 16 (List.replicate 256 b) := by
    intro b
    have hpos : p.entry.offset.toNat + sizeofRecipeEntry + 4 * CHUNK_HASH_SIZE +
        p.entry.length.toNat = file.length + 256 := by
      rw [hlen, hat.length, List.length_append, p.iv.2]
      simp only [sizeofRecipeEntry, CHUNK_HASH_SIZE, IndexType.header]
      omega
    rw [← (hread (file ++ List.replicate 512 b) (List.prefix_append _ _)).2, getChunkIV, hpos,
      List.drop_length_add_append, List.drop_replicate]
  have hboth := (hstale 0).symm.trans (hstale 1)
  exact absurd (congrArg Subtype.val hboth) (by decide)

/-- **Record layout.** In a run of sessions that store any chunks, the reader
finds all of them exactly if the index is not `DEBE`, or nothing is stored. -/
theorem IndexType.located_iff (henv : env.Lawful) (t : IndexType) (m : Residue)
    (ss : List (Login × List StoreCall)) (hcounts : (t.sessions env (.boot env m) ss).1.Counts) :
    (∀ p ∈ (t.sessions env (.boot env m) ss).2,
        p.Located (t.sessions env (.boot env m) ss).1.view) ↔
      t ≠ .debe ∨ ∀ x ∈ ss, x.2 = [] := by
  have hboot : Distinct (Server.boot env m).view (Server.boot env m).created :=
    ⟨fun hn => absurd rfl hn, fun _ => Or.inl rfl⟩
  obtain ⟨hdistinct, -, -, hlogged⟩ := t.sessions_logged henv ss hboot hcounts
  constructor
  · intro hall
    by_contra hnot
    rw [not_or, not_not, ← sessions_eq_nil (t := t) (s := .boot env m)] at hnot
    obtain ⟨rfl, hne⟩ := hnot
    have hlast := hlogged.last _ (List.getLast?_eq_some_getLast hne)
    exact hlast.not_located hdistinct (hall _ (List.getLast_mem hne))
  · rintro (ht | hnone) p hp
    · obtain ⟨d, file, hfile, hat⟩ := hlogged.mem p hp
      exact ⟨file, hdistinct.file hfile, fun buf hbuf => (hat.extend hbuf).read ht⟩
    · rw [sessions_eq_nil.mpr hnone] at hp
      exact absurd hp List.not_mem_nil

/-- A session that stores the chunks `[0]`, `[1]` and so on. -/
def oneByteSession (n : Nat) : Login × List StoreCall :=
  (⟨BytesN.ofBytes 32 [1], BytesN.ofBytes 32 [2], BytesN.ofBytes 32 [3], BytesN.ofBytes 16 [],
      BytesN.ofBytes 16 []⟩,
    (List.range n).map fun i => ⟨RecipeEntry.ofBytes [],
      ⟨[UInt8.ofNat i], Nat.one_pos, show 1 ≤ MAX_CHUNK_SIZE by decide⟩, BytesN.ofBytes 96 [],
      BytesN.ofBytes 32 [UInt8.ofNat i]⟩)

theorem located_oneByteSessions :
    (IndexType.freqIndex.sessions .plain (.boot .plain ⟨[], fun _ => []⟩)
        [oneByteSession 2, oneByteSession 3]).2.length = 5 ∧
    ∀ p ∈ (IndexType.freqIndex.sessions .plain (.boot .plain ⟨[], fun _ => []⟩)
        [oneByteSession 2, oneByteSession 3]).2,
      p.Located (IndexType.freqIndex.sessions .plain (.boot .plain ⟨[], fun _ => []⟩)
        [oneByteSession 2, oneByteSession 3]).1.view :=
  ⟨by decide +kernel, (IndexType.freqIndex.located_iff Env.lawful_plain ⟨[], fun _ => []⟩
    [oneByteSession 2, oneByteSession 3] (by unfold Server.Counts; decide +kernel)).mpr
    (Or.inl (by decide))⟩

/-- The payload of the chunk `[0]` is looked for 272 bytes into the container,
where the payload of the chunk `[16]` is. -/
theorem not_located_debe :
    ¬ ∀ p ∈ (IndexType.debe.sessions .plain (.boot .plain ⟨[], fun _ => []⟩)
        [oneByteSession 17]).2,
      p.Located (IndexType.debe.sessions .plain (.boot .plain ⟨[], fun _ => []⟩)
        [oneByteSession 17]).1.view := by
  have hread : ∃ p ∈ (IndexType.debe.sessions .plain (.boot .plain ⟨[], fun _ => []⟩)
      [oneByteSession 17]).2, p.payload = [0] ∧
      ((IndexType.debe.sessions .plain (.boot .plain ⟨[], fun _ => []⟩)
        [oneByteSession 17]).1.view.file p.entry.containerName).map
          (getChunkContent · p.entry) = some [16] := by
    decide +kernel
  intro hall
  obtain ⟨p, hp, hpayload, hcontent⟩ := hread
  obtain ⟨file, hfile, hloc⟩ := hall p hp
  rw [hfile, Option.map_some, (hloc file (List.prefix_refl _)).1, hpayload] at hcontent
  exact absurd hcontent (by decide)

end ShieldReduce
