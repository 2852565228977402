import ShieldReduce.System.Run
import ShieldReduce.Invariant.Deltas

/-!
# Containers during a session

While a session runs, the containers are the files and the two open
containers of the client. `Shelved` relates the session to the containers
of the representation invariant, and `Stocked` is that invariant for a
session. Storing a chunk keeps it (`Stocked.saveChunk`), in the branch
that rolls over too, and at the end of the session the files alone are
all containers (`Stocked.close`).
-/

namespace ShieldReduce

open ByteLib UMapLib TilingLib CatalogLib

variable {env : Env}

/-! ## The files -/

theorem view_saveToFile (s : Server) (d : Dir) (name : ContainerName) (body : Bytes) (d' : Dir)
    (n : ContainerName) : (s.saveToFile d name body).view d' n =
      if d' = d ∧ n = name then some body else s.view d' n := by
  unfold Server.view Server.saveToFile
  by_cases hd : d' = d
  · subst hd
    simp only [if_true, true_and, lookup_eq_if]
  · simp only [hd, if_false, false_and]

variable [names : ContainerNames]

/-- A name below the counter. -/
def Named (created : Nat) (n : ContainerName) : Prop := ∃ k < created, n = containerName k

theorem Named.mono {a b : Nat} {n : ContainerName} (h : Named a n) (hab : a ≤ b) : Named b n := by
  obtain ⟨k, hk, rfl⟩ := h
  exact ⟨k, lt_of_lt_of_le hk hab, rfl⟩

/-- The next name is new. -/
theorem not_named {created : Nat} (h : created < names.distinct) : ¬ Named created (containerName created) := by
  rintro ⟨k, hk, heq⟩
  have := containerName_inj h (lt_trans hk h) heq
  omega

/-- All containers, behind an index without records that were left behind. -/
structure Stock (env : Env) (F : Containers) (idx : Fp → Option Cipher) (abs : Fp → Option Content)
    (created : Nat) : Prop where
  rep : Rep env F idx abs
  live : AllLive env F idx
  named : ∀ {d n}, F (d, n) ≠ none → Named created n

theorem stock_boot (env : Env) (created : Nat) :
    Stock env (fun _ => none) (fun _ => none) (fun _ => none) created where
  rep :=
    { catalog := ⟨fun k c hc => (by cases hc), fun _ _ => rfl⟩
      holds := fun h => by cases h
      flag := by
        rintro d n r ⟨rs, hrs, -⟩
        cases hrs
      apart := fun _ => Or.inl rfl }
  live := by
    rintro p r ⟨rs, hrs, -⟩
    cases hrs
  named := fun h => absurd rfl h

variable {F : Containers} {idx : Fp → Option Cipher} {abs : Fp → Option Content} {created : Nat}

namespace Stock

theorem mono (h : Stock env F idx abs created) {created' : Nat} (hle : created ≤ created') :
    Stock env F idx abs created' :=
  ⟨h.rep, h.live, fun hn => (h.named hn).mono hle⟩

theorem next_none (h : Stock env F idx abs created) (hlt : created < names.distinct) (d : Dir) :
    F (d, containerName created) = none := by
  by_contra hne
  exact not_named hlt (h.named hne)

/-- A container under the next name. -/
theorem fresh (h : Stock env F idx abs created) (hlt : created < names.distinct) (d : Dir) :
    Stock env (Function.update F (d, containerName created) (some [])) idx abs (created + 1) where
  rep := h.rep.fresh (h.next_none hlt) d
  live := h.live.congr fun q r => has_fresh (h.next_none hlt d)
  named := by
    intro d' n hn
    by_cases heq : (d', n) = (d, containerName created)
    · exact ⟨created, Nat.lt_succ_self _, congrArg Prod.snd heq⟩
    · rw [Function.update_of_ne heq] at hn
      exact (h.named hn).mono (Nat.le_succ _)

theorem drop (h : Stock env F idx abs created) {p : Dir × ContainerName} (hp : F p = some []) :
    Stock env (Function.update F p none) idx abs created where
  rep := h.rep.drop hp
  live := h.live.congr fun q r => has_drop hp
  named := by
    intro d n hn
    by_cases heq : (d, n) = p
    · rw [heq, Function.update_self] at hn
      exact absurd rfl hn
    · rw [Function.update_of_ne heq] at hn
      exact h.named hn

/-- A record of a fingerprint that is new. -/
theorem put (h : Stock env F idx abs created) {d : Dir} {n : ContainerName} {rs : List Record}
    (hn : F (d, n) = some rs) {r : Record} (hr : r.PlacedIn n)
    (hstart : r.start = (records.flat rs).length)
    (hsmall : (records.flat rs).length + r.toBytes.length < MAX_CONTAINER_SIZE)
    (hflag : r.entry.deltaFlag = d.flag) (hnew : idx r.fp = none) :
    Stock env (Function.update F (d, n) (some (rs ++ [r])))
      (Function.update idx r.fp (some (env.encEntry r.entry)))
      (Function.update abs r.fp (some (r.content env))) created where
  rep := h.rep.put hn hr hstart hsmall hflag
  live := h.live.put hn hnew
  named := by
    intro d' n' hn'
    by_cases heq : (d', n') = (d, n)
    · obtain ⟨rfl, rfl⟩ := Prod.mk.injEq .. |>.mp heq
      exact h.named (by rw [hn]; simp)
    · rw [Function.update_of_ne heq] at hn'
      exact h.named hn'

end Stock

/-! ## The open containers -/

/-- The open containers and the files make up the containers. -/
structure Shelved (s : Session) (F : Containers) : Prop where
  opened : ∀ d, ∃ rs, F (d, (s.client.cur d).containerID) = some rs ∧
    (s.client.cur d).buf = records.flat rs
  files : ∀ d n, n ≠ (s.client.cur d).containerID → s.server.view d n = (F (d, n)).map records.flat
  closed : ∀ d, s.server.view d (s.client.cur d).containerID = none

structure Stocked (env : Env) (s : Session) (F : Containers) (idx : Fp → Option Cipher)
    (abs : Fp → Option Content) : Prop where
  stock : Stock env F idx abs s.server.created
  shelved : Shelved s F
  body : ∀ d, (s.client.cur d).body = []

omit names in
theorem cur_setCur_self (s : Session) (d : Dir) (c : OpenContainer) :
    (s.setCur d c).client.cur d = c := if_pos rfl

omit names in
theorem cur_setCur_of_ne {s : Session} {d d' : Dir} (h : d' ≠ d) (c : OpenContainer) :
    (s.setCur d c).client.cur d' = s.client.cur d' := if_neg h

/-- What storing and closing look at. -/
structure SameShelves (s s' : Session) : Prop where
  view : s'.server.view = s.server.view
  created : s'.server.created = s.server.created
  cur : s'.client.cur = s.client.cur

theorem Stocked.congr {s s' : Session} (h : Stocked env s F idx abs) (hs : SameShelves s s') :
    Stocked env s' F idx abs where
  stock := by
    rw [hs.created]
    exact h.stock
  shelved :=
    { opened := by
        rw [hs.cur]
        exact h.shelved.opened
      files := by
        rw [hs.cur, hs.view]
        exact h.shelved.files
      closed := by
        rw [hs.cur, hs.view]
        exact h.shelved.closed }
  body := by
    rw [hs.cur]
    exact h.body

theorem cur_rollOver_self (s : Session) (d : Dir) :
    (s.rollOver d).client.cur d = ⟨containerName s.server.created, [], []⟩ := by
  unfold Session.rollOver Session.writeContainer
  simp only [cur_setCur_self]
  rfl

theorem cur_rollOver_of_ne (s : Session) {d d' : Dir} (hd : d' ≠ d) :
    (s.rollOver d).client.cur d' = s.client.cur d' := by
  unfold Session.rollOver Session.writeContainer
  rw [cur_setCur_of_ne hd, cur_setCur_of_ne hd]
  exact cur_setCur_of_ne hd _

theorem view_rollOver (s : Session) (d d' : Dir) (n : ContainerName) :
    (s.rollOver d).server.view d' n =
      if d' = d ∧ n = (s.client.cur d).containerID then some (s.client.cur d).buf
      else s.server.view d' n := by
  rw [← view_saveToFile]
  unfold Session.rollOver Session.writeContainer
  simp only [cur_setCur_self]
  rfl

/-- The full container becomes a file and a new one is opened. -/
theorem Stocked.rollOver {s : Session} (h : Stocked env s F idx abs) (hlt : s.server.created < names.distinct)
    (d : Dir) : Stocked env (s.rollOver d)
      (Function.update F (d, containerName s.server.created) (some [])) idx abs := by
  have hnone : ∀ d', F (d', containerName s.server.created) = none := h.stock.next_none hlt
  have hcur := cur_rollOver_self s d
  have hother : ∀ d', d' ≠ d → (s.rollOver d).client.cur d' = s.client.cur d' :=
    fun d' hd => cur_rollOver_of_ne s hd
  have hview := view_rollOver s d
  have hne : ∀ d', (s.client.cur d').containerID ≠ containerName s.server.created := by
    intro d' heq
    obtain ⟨rs, hrs, -⟩ := h.shelved.opened d'
    rw [heq, hnone d'] at hrs
    cases hrs
  constructor
  · exact h.stock.fresh hlt d
  · constructor
    · intro d'
      by_cases hd : d' = d
      · subst hd
        rw [hcur]
        exact ⟨[], Function.update_self .., rfl⟩
      · rw [hother d' hd, Function.update_of_ne (by simp [hd])]
        exact h.shelved.opened d'
    · intro d' n hn
      rw [hview]
      by_cases hd : d' = d
      · subst hd
        rw [hcur] at hn
        rw [Function.update_of_ne (by simpa using hn)]
        by_cases hc : n = (s.client.cur d').containerID
        · obtain ⟨rs, hrs, hbuf⟩ := h.shelved.opened d'
          rw [if_pos ⟨rfl, hc⟩, hc, hrs, hbuf]
          rfl
        · rw [if_neg (by simp [hc])]
          exact h.shelved.files d' n hc
      · rw [hother d' hd] at hn
        rw [if_neg (by simp [hd]), Function.update_of_ne (by simp [hd])]
        exact h.shelved.files d' n hn
    · intro d'
      rw [hview]
      by_cases hd : d' = d
      · subst hd
        rw [hcur, if_neg (by simpa using (hne d').symm),
          h.shelved.files d' _ (Ne.symm (hne d')), hnone]
        rfl
      · rw [hother d' hd, if_neg (by simp [hd])]
        exact h.shelved.closed d'
  · intro d'
    by_cases hd : d' = d
    · rw [hd, hcur]
    · rw [hother d' hd]
      exact h.body d'

/-- A record is appended to the open container. -/
theorem Stocked.append {s : Session} (h : Stocked env s F idx abs) {d : Dir} {rs : List Record}
    (hrs : F (d, (s.client.cur d).containerID) = some rs) {r : Record}
    (hr : r.PlacedIn (s.client.cur d).containerID)
    (hstart : r.start = (s.client.cur d).buf.length)
    (hsmall : (s.client.cur d).buf.length + r.toBytes.length < MAX_CONTAINER_SIZE)
    (hflag : r.entry.deltaFlag = d.flag) (hnew : idx r.fp = none) :
    Stocked env (s.setCur d { s.client.cur d with buf := (s.client.cur d).buf ++ r.toBytes })
      (Function.update F (d, (s.client.cur d).containerID) (some (rs ++ [r])))
      (Function.update idx r.fp (some (env.encEntry r.entry)))
      (Function.update abs r.fp (some (r.content env))) := by
  have hbuf : (s.client.cur d).buf = records.flat rs := by
    obtain ⟨ts, hts, hbuf⟩ := h.shelved.opened d
    rw [hrs] at hts
    obtain rfl := Option.some.inj hts
    exact hbuf
  rw [hbuf] at hstart hsmall
  constructor
  · exact h.stock.put hrs hr hstart hsmall hflag hnew
  · constructor
    · intro d'
      by_cases hd : d' = d
      · subst hd
        rw [cur_setCur_self]
        refine ⟨rs ++ [r], Function.update_self .., ?_⟩
        rw [Layout.flat_append, ← hbuf]
        simp
      · rw [cur_setCur_of_ne hd, Function.update_of_ne (by simp [hd])]
        exact h.shelved.opened d'
    · intro d' n hn
      by_cases hd : d' = d
      · subst hd
        rw [cur_setCur_self] at hn
        rw [Function.update_of_ne (by simpa using hn)]
        exact h.shelved.files d' n hn
      · rw [cur_setCur_of_ne hd] at hn
        rw [Function.update_of_ne (by simp [hd])]
        exact h.shelved.files d' n hn
    · intro d'
      by_cases hd : d' = d
      · subst hd
        rw [cur_setCur_self]
        exact h.shelved.closed d'
      · rw [cur_setCur_of_ne hd]
        exact h.shelved.closed d'
  · intro d'
    by_cases hd : d' = d
    · subst hd
      rw [cur_setCur_self]
      exact h.body d'
    · rw [cur_setCur_of_ne hd]
      exact h.body d'

/-- The record that a chunk gets in the open container as it is. -/
def Session.recordFor (s : Session) (d : Dir) (chunkData : Bytes) (chunkAddr : RecipeEntry) (sf : Sf)
    (fp : Fp) : Record where
  entry := { chunkAddr with
    length := UInt32.ofNat chunkData.length
    offset := UInt32.ofNat (s.client.cur d).buf.length
    containerName := (s.client.cur d).containerID }
  fp := fp
  sf := sf
  payload := chunkData
  iv := s.client.iv

/-- A chunk of a fingerprint that is new goes into the open container, which
has room for it. -/
theorem Stocked.store {s : Session} (h : Stocked env s F idx abs) {d : Dir} {chunkData : Bytes}
    {chunkAddr : RecipeEntry} {sf : Sf} {fp : Fp} (hsize : chunkData.length ≤ MAX_CHUNK_SIZE)
    (hroom : (s.client.cur d).buf.length + chunkData.length + recordOverhead < MAX_CONTAINER_SIZE)
    (hflag : chunkAddr.deltaFlag = d.flag) (hnew : idx fp = none) :
    ∃ F', Stocked env (s.setCur d { s.client.cur d with buf :=
          (s.client.cur d).buf ++ (s.recordFor d chunkData chunkAddr sf fp).toBytes }) F'
      (Function.update idx fp
        (some (env.encEntry (s.recordFor d chunkData chunkAddr sf fp).entry)))
      (Function.update abs fp (some ((s.recordFor d chunkData chunkAddr sf fp).content env))) := by
  obtain ⟨rs, hrs, -⟩ := h.shelved.opened d
  have hmax : MAX_CONTAINER_SIZE < 2 ^ 32 := by decide
  have hchunk : MAX_CHUNK_SIZE < 2 ^ 32 := by decide
  refine ⟨_, h.append hrs (r := s.recordFor d chunkData chunkAddr sf fp) ⟨rfl, ?_⟩ ?_ ?_ hflag hnew⟩
  · exact Nat.mod_eq_of_lt (lt_of_le_of_lt hsize hchunk)
  · exact Nat.mod_eq_of_lt (by omega)
  · rw [Record.length_toBytes]
    show (s.client.cur d).buf.length + (chunkData.length + recordOverhead) < MAX_CONTAINER_SIZE
    omega

/-- `SavebaseChunk` and `SavedeltaChunk`, with and without a roll-over: there
is room for the record in the container it goes to. -/
theorem Session.saveChunk_cases (s : Session) (d : Dir) {chunkData : Bytes} (chunkAddr : RecipeEntry)
    (sf : Sf) (fp : Fp) (hsize : chunkData.length ≤ MAX_CHUNK_SIZE) :
    ∃ t, (t = s ∨ t = s.rollOver d) ∧
      (t.client.cur d).buf.length + chunkData.length + recordOverhead < MAX_CONTAINER_SIZE ∧
      s.saveChunk d chunkData chunkAddr sf fp = ((t.recordFor d chunkData chunkAddr sf fp).entry,
        t.setCur d { t.client.cur d with buf :=
          (t.client.cur d).buf ++ (t.recordFor d chunkData chunkAddr sf fp).toBytes }) := by
  have hoverhead : recordOverhead = CRYPTO_BLOCK_SIZE + 4 * CHUNK_HASH_SIZE + sizeofRecipeEntry := rfl
  by_cases hfit : CRYPTO_BLOCK_SIZE + chunkData.length + (s.client.cur d).buf.length +
      4 * CHUNK_HASH_SIZE + sizeofRecipeEntry < MAX_CONTAINER_SIZE
  · refine ⟨s, Or.inl rfl, by omega, ?_⟩
    unfold Session.saveChunk
    simp only [hfit, if_true]
    rfl
  · refine ⟨s.rollOver d, Or.inr rfl, ?_, ?_⟩
    · have hempty : ((s.rollOver d).client.cur d).buf = [] := by
        unfold Session.rollOver
        rw [cur_setCur_self]
      rw [hempty, List.length_nil, Nat.zero_add]
      exact lt_of_le_of_lt (Nat.add_le_add_right hsize _) (by decide)
    · unfold Session.saveChunk
      simp only [hfit, if_false]
      rfl

/-- The entry that is answered leads to the new record. -/
theorem Stocked.saveChunk {s : Session} (h : Stocked env s F idx abs) {d : Dir} {chunkData : Bytes}
    (chunkAddr : RecipeEntry) (sf : Sf) {fp : Fp} (hsize : chunkData.length ≤ MAX_CHUNK_SIZE)
    (hflag : chunkAddr.deltaFlag = d.flag) (hnew : idx fp = none)
    (hcreated : (s.saveChunk d chunkData chunkAddr sf fp).2.server.created ≤ names.distinct) :
    ∃ F', Stocked env (s.saveChunk d chunkData chunkAddr sf fp).2 F'
      (Function.update idx fp (some (env.encEntry (s.saveChunk d chunkData chunkAddr sf fp).1)))
      (Function.update abs fp (some
        ⟨chunkAddr.deltaFlag, chunkAddr.basechunkHash, chunkAddr.superfeature,
          env.decryptionWithKeyIV chunkData s.client.iv⟩)) := by
  obtain ⟨t, ht, hroom, heq⟩ := s.saveChunk_cases d chunkAddr sf fp hsize
  rw [heq] at hcreated ⊢
  rcases ht with rfl | rfl
  · exact h.store hsize hroom hflag hnew
  · exact (h.rollOver (show s.server.created < names.distinct from hcreated) d).store hsize hroom hflag hnew

omit names in
/-- The record is found where it was put. -/
theorem Session.recordFor_found (s : Session) (d : Dir) {chunkData : Bytes} (chunkAddr : RecipeEntry)
    (sf : Sf) (fp : Fp) (hsize : chunkData.length ≤ MAX_CHUNK_SIZE)
    (hroom : (s.client.cur d).buf.length + chunkData.length + recordOverhead < MAX_CONTAINER_SIZE) :
    (s.recordFor d chunkData chunkAddr sf fp).PlacedIn (s.client.cur d).containerID ∧
      (s.recordFor d chunkData chunkAddr sf fp).FoundIn
        ((s.client.cur d).buf ++ (s.recordFor d chunkData chunkAddr sf fp).toBytes) := by
  have hmax : MAX_CONTAINER_SIZE < 2 ^ 32 := by decide
  have hchunk : MAX_CHUNK_SIZE < 2 ^ 32 := by decide
  have hstart : (s.recordFor d chunkData chunkAddr sf fp).start = (s.client.cur d).buf.length :=
    Nat.mod_eq_of_lt (by omega)
  refine ⟨⟨rfl, Nat.mod_eq_of_lt (lt_of_le_of_lt hsize hchunk)⟩, [], ?_⟩
  rw [hstart, List.drop_left, List.append_nil]

/-! ## What storing leaves alone -/

/-- What a session keeps when a chunk is stored. -/
structure Carried (s s' : Session) : Prop where
  db : s'.server.db = s.server.db
  recipes : s'.server.recipes = s.server.recipes
  heap : s'.server.insideDedupIndex = s.server.insideDedupIndex
  created : s.server.created ≤ s'.server.created
  inRecipe : s'.client.inRecipe = s.client.inRecipe
  recipe : s'.client.recipe = s.client.recipe
  recipePath : s'.client.recipePath = s.client.recipePath
  sessionKey : s'.client.sessionKey = s.client.sessionKey
  masterKey : s'.client.masterKey = s.client.masterKey

omit names in
theorem Carried.refl (s : Session) : Carried s s :=
  ⟨rfl, rfl, rfl, le_refl _, rfl, rfl, rfl, rfl, rfl⟩

omit names in
theorem Carried.trans {s t u : Session} (h : Carried s t) (h' : Carried t u) : Carried s u where
  db := h'.db.trans h.db
  recipes := h'.recipes.trans h.recipes
  heap := h'.heap.trans h.heap
  created := le_trans h.created h'.created
  inRecipe := h'.inRecipe.trans h.inRecipe
  recipe := h'.recipe.trans h.recipe
  recipePath := h'.recipePath.trans h.recipePath
  sessionKey := h'.sessionKey.trans h.sessionKey
  masterKey := h'.masterKey.trans h.masterKey

theorem Session.carried_saveChunk (s : Session) (d : Dir) (chunkData : Bytes)
    (chunkAddr : RecipeEntry) (sf : Sf) (fp : Fp) :
    Carried s (s.saveChunk d chunkData chunkAddr sf fp).2 ∧
      (s.saveChunk d chunkData chunkAddr sf fp).2.server.inContainercache =
        s.server.inContainercache ∧
      (s.saveChunk d chunkData chunkAddr sf fp).2.server.encodes = s.server.encodes := by
  unfold Session.saveChunk
  dsimp only
  split
  · exact ⟨⟨rfl, rfl, rfl, le_refl _, rfl, rfl, rfl, rfl, rfl⟩, rfl, rfl⟩
  · exact ⟨⟨rfl, rfl, rfl, Nat.le_succ _, rfl, rfl, rfl, rfl, rfl⟩, rfl, rfl⟩

/-- Every file stays: what a roll-over writes was no file. -/
theorem Shelved.kept_saveChunk {s : Session} (h : Shelved s F) (d : Dir) (chunkData : Bytes)
    (chunkAddr : RecipeEntry) (sf : Sf) (fp : Fp) {d' : Dir} {n : ContainerName} {file : Bytes}
    (hfile : s.server.view d' n = some file) :
    (s.saveChunk d chunkData chunkAddr sf fp).2.server.view d' n = some file := by
  unfold Session.saveChunk
  dsimp only
  split
  · exact hfile
  · show ((s.setCur d { s.client.cur d with body := (s.client.cur d).buf }).server.saveToFile d
      (((s.setCur d { s.client.cur d with body := (s.client.cur d).buf }).client.cur d).containerID)
      _).view d' n = some file
    rw [view_saveToFile, cur_setCur_self, if_neg]
    · exact hfile
    · rintro ⟨rfl, rfl⟩
      have hnone : s.server.view d' (s.client.cur d').containerID = none := h.closed d'
      rw [hfile] at hnone
      cases hnone

/-! ## Sessions begin and end -/

/-- A new client opens two containers. -/
theorem Stock.start {s : Server} (h : Stock env F idx abs s.created) (hview : s.view = viewOf F)
    (l : Login) (hcreated : s.created + 2 ≤ names.distinct) :
    ∃ F', Stocked env (Session.start s l) F' idx abs := by
  have h1 := h.fresh (by omega) .base
  have h2 := h1.fresh (by omega) .delta
  have hne : containerName s.created ≠ containerName (s.created + 1) := by
    intro heq
    have := containerName_inj (by omega) (by omega) heq
    omega
  have hn0 := h.next_none (by omega)
  have hn1 : ∀ d, F (d, containerName (s.created + 1)) = none := by
    intro d
    have := h1.next_none (by omega) d
    rwa [Function.update_of_ne (by simp [hne.symm])] at this
  refine ⟨_, h2, ⟨?_, ?_, ?_⟩, ?_⟩
  · rintro (_ | _)
    · refine ⟨[], ?_, rfl⟩
      rw [Function.update_of_ne (by simp)]
      exact Function.update_self ..
    · exact ⟨[], Function.update_self .., rfl⟩
  · rintro (_ | _) n hn
    · rw [Function.update_of_ne (by simp),
        Function.update_of_ne (fun heq => hn (congrArg Prod.snd heq))]
      exact congrFun (congrFun hview .base) n
    · rw [Function.update_of_ne (fun heq => hn (congrArg Prod.snd heq)),
        Function.update_of_ne (by simp)]
      exact congrFun (congrFun hview .delta) n
  · rintro (_ | _)
    · refine (congrFun (congrFun hview .base) _).trans ?_
      rw [viewOf]
      show Option.map _ (F (.base, containerName s.created)) = none
      rw [hn0]
      rfl
    · refine (congrFun (congrFun hview .delta) _).trans ?_
      show Option.map _ (F (.delta, containerName (s.created + 1))) = none
      rw [hn1]
      rfl
  · rintro (_ | _) <;> rfl

/-- Which files a session leaves. -/
theorem view_close (s : Session) (d : Dir) (n : ContainerName) : s.close.server.view d n =
    if n = (s.client.cur d).containerID ∧ (s.client.cur d).body ≠ [] then
      some (s.client.cur d).body else s.server.view d n := by
  have hwrite : ∀ (s : Session) d' d n, (s.writeContainer d').server.view d n =
      if d = d' ∧ n = (s.client.cur d').containerID then some (s.client.cur d').body
      else s.server.view d n := fun s d' d n => view_saveToFile s.server d' _ _ d n
  have hcur : ∀ (s : Session), (s.writeContainer .base).client.cur .delta = s.client.cur .delta :=
    fun s => cur_setCur_of_ne (by simp) _
  unfold Session.close
  simp only [ne_eq, List.length_eq_zero_iff]
  by_cases hb : (s.client.cur .base).body = [] <;> by_cases hd : (s.client.cur .delta).body = [] <;>
    cases d <;> simp [hb, hd, hwrite, hcur]

theorem created_close (s : Session) : s.server.created ≤ s.close.server.created := by
  have hwrite : ∀ (s : Session) d, s.server.created ≤ (s.writeContainer d).server.created :=
    fun s d => Nat.le_succ _
  unfold Session.close
  simp only
  split
  · split
    · exact le_trans (hwrite s .base) (hwrite _ .delta)
    · exact hwrite s .base
  · split
    · exact hwrite s .delta
    · exact le_refl _

omit names in
/-- Buffers that went out change no container. -/
theorem Shelved.handedOver {s t : Session} (h : Shelved s F) (hserver : t.server = s.server)
    (hcur : ∀ d, t.client.cur d = { s.client.cur d with body := (s.client.cur d).buf }) :
    Shelved t F := by
  constructor
  · intro d
    rw [hcur]
    exact h.opened d
  · intro d n hn
    rw [hcur] at hn
    rw [hserver]
    exact h.files d n hn
  · intro d
    rw [hcur, hserver]
    exact h.closed d

/-- At the end of a session whose buffers went out, the files are all
containers. -/
theorem Stock.close {s : Session} (h : Stock env F idx abs s.server.created) (hs : Shelved s F)
    (hbody : ∀ d, (s.client.cur d).body = (s.client.cur d).buf) :
    ∃ F', Stock env F' idx abs s.close.server.created ∧ s.close.server.view = viewOf F' := by
  -- one directory after the other: an open container that is empty is dropped
  have hstep : ∀ (G : Containers) (d : Dir), Stock env G idx abs s.server.created →
      (∃ rs, G (d, (s.client.cur d).containerID) = some rs ∧
        (s.client.cur d).buf = records.flat rs) →
      ∃ G', Stock env G' idx abs s.server.created ∧ (∀ p, p.1 ≠ d → G' p = G p) ∧
        ∀ n, (G' (d, n)).map records.flat =
          if n = (s.client.cur d).containerID ∧ (s.client.cur d).body ≠ [] then
            some (s.client.cur d).body
          else if n = (s.client.cur d).containerID then none
          else (G (d, n)).map records.flat := by
    rintro G d hG ⟨rs, hrs, hbuf⟩
    by_cases hempty : (s.client.cur d).buf = []
    · have hnil : rs = [] := by
        rcases rs with _ | ⟨r, rs⟩
        · rfl
        · rw [hempty, Layout.flat_cons] at hbuf
          have := congrArg List.length hbuf
          have hpos := records.bytes_pos r
          rw [List.length_append, List.length_nil] at this
          omega
      subst hnil
      refine ⟨_, hG.drop hrs, ?_, ?_⟩
      · intro p hp
        exact Function.update_of_ne (fun heq => hp (congrArg Prod.fst heq)) _ _
      · intro n
        rw [hbody, hempty]
        by_cases hn : n = (s.client.cur d).containerID
        · subst hn
          rw [Function.update_self]
          simp
        · rw [Function.update_of_ne (by simpa using hn)]
          simp [hn]
    · refine ⟨G, hG, fun _ _ => rfl, fun n => ?_⟩
      rw [hbody]
      by_cases hn : n = (s.client.cur d).containerID
      · subst hn
        rw [hrs, hbuf]
        simp [← hbuf, hempty]
      · simp [hn]
  obtain ⟨G, hG, hGkeep, hGview⟩ := hstep F .base h (hs.opened .base)
  obtain ⟨K, hK, hKkeep, hKview⟩ := hstep G .delta hG (by
    obtain ⟨rs, hrs, hbuf⟩ := hs.opened .delta
    exact ⟨rs, by rw [hGkeep _ (by simp), hrs], hbuf⟩)
  refine ⟨K, hK.mono (created_close s), ?_⟩
  have hlast : ∀ d n, (K (d, n)).map records.flat =
      if n = (s.client.cur d).containerID ∧ (s.client.cur d).body ≠ [] then
        some (s.client.cur d).body
      else if n = (s.client.cur d).containerID then none
      else (F (d, n)).map records.flat := by
    rintro (_ | _) n
    · rw [hKkeep _ (by simp), hGview]
    · rw [hKview, hGkeep _ (by simp)]
  funext d n
  rw [view_close, viewOf, hlast]
  by_cases hn : n = (s.client.cur d).containerID
  · subst hn
    rw [hs.closed]
    simp
  · simp only [hn, false_and, if_false]
    exact hs.files d n hn

end ShieldReduce
