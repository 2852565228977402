import ShieldReduce.Invariant.Placement
import ShieldReduce.Store.Database

/-!
# Delta chunks and their bases

What the super-feature index, the index of delta chunks and the log of
base replacements say about the stored contents. `Linked` is the part
that holds in every state, also within an offline pass: a delta chunk
has a base that is stored whole, the super-feature index lists such
chunks only, and for a base that may still be used the index of delta
chunks is exact (`Tracked`). A base stops being tracked when the pass
asks for its delta chunks, and by then it is in no list and no log.

The lemmas are one for each step that uploads and the offline pass take:
a new chunk that is stored whole (`Linked.addWhole`), a new delta chunk
(`Linked.addDelta`), a delta chunk that changes its base
(`Linked.rebase`), a base that becomes a delta chunk (`Linked.convert`),
and the changes to the super-feature index.
-/

namespace ShieldReduce

open ByteLib UMapLib

variable {env : Env} {db : InMemoryDatabase} {abs : Fp → Option Content}

def IsWhole (abs : Fp → Option Content) (f : Fp) : Prop :=
  ∃ c, abs f = some c ∧ c.deltaFlag = NO_DELTA

def IsDeltaOf (abs : Fp → Option Content) (f b : Fp) : Prop :=
  ∃ c, abs f = some c ∧ c.deltaFlag = DELTA ∧ c.basechunkHash = b

/-- `delta_index` lists the delta chunks of the base, each once. -/
def Tracked (db : InMemoryDatabase) (abs : Fp → Option Content) (b : Fp) : Prop :=
  (getList db.deltaIndex b).Nodup ∧ ∀ f, f ∈ getList db.deltaIndex b ↔ IsDeltaOf abs f b

/-- `pending` are the fingerprints that a log still names. -/
structure Linked (db : InMemoryDatabase) (abs : Fp → Option Content) (pending : Fp → Prop) : Prop where
  base : ∀ f b, IsDeltaOf abs f b → IsWhole abs b
  sf : ∀ i key f, f ∈ getList (db.sfObj i) key →
    ∃ c, abs f = some c ∧ c.deltaFlag = NO_DELTA ∧ key = sfKey c.superfeature i
  tracked : ∀ b, db.InSF b ∨ pending b → Tracked db abs b
  whole : ∀ b, pending b → IsWhole abs b
  keys : ∀ b, getList db.deltaIndex b ≠ [] → (abs b).isSome

theorem noDelta_ne_delta : NO_DELTA ≠ DELTA := by decide

theorem IsWhole.isSome {f : Fp} (h : IsWhole abs f) : (abs f).isSome := by
  obtain ⟨c, hc, -⟩ := h
  rw [hc]
  rfl

theorem IsDeltaOf.isSome {f b : Fp} (h : IsDeltaOf abs f b) : (abs f).isSome := by
  obtain ⟨c, hc, -, -⟩ := h
  rw [hc]
  rfl

theorem IsDeltaOf.not_whole {f b : Fp} (h : IsDeltaOf abs f b) : ¬ IsWhole abs f := by
  rintro ⟨c, hc, hflag⟩
  obtain ⟨c', hc', hflag', -⟩ := h
  rw [hc] at hc'
  obtain rfl := Option.some.inj hc'
  exact noDelta_ne_delta (hflag.symm.trans hflag')

/-! ## One content changes -/

theorem isWhole_update_of_ne {f g : Fp} {c : Option Content} (hne : g ≠ f) :
    IsWhole (Function.update abs f c) g ↔ IsWhole abs g := by
  simp [IsWhole, Function.update_of_ne hne]

theorem isDeltaOf_update_of_ne {f g b : Fp} {c : Option Content} (hne : g ≠ f) :
    IsDeltaOf (Function.update abs f c) g b ↔ IsDeltaOf abs g b := by
  simp [IsDeltaOf, Function.update_of_ne hne]

theorem isWhole_update_self {f : Fp} {c : Content} :
    IsWhole (Function.update abs f (some c)) f ↔ c.deltaFlag = NO_DELTA := by
  simp [IsWhole]

theorem isDeltaOf_update_self {f b : Fp} {c : Content} :
    IsDeltaOf (Function.update abs f (some c)) f b ↔ c.deltaFlag = DELTA ∧ c.basechunkHash = b := by
  simp [IsDeltaOf]

/-- The delta chunks of a base when one content changes. -/
theorem isDeltaOf_update {f g b : Fp} {c : Content} :
    IsDeltaOf (Function.update abs f (some c)) g b ↔
      (g = f ∧ c.deltaFlag = DELTA ∧ c.basechunkHash = b) ∨ (g ≠ f ∧ IsDeltaOf abs g b) := by
  by_cases hg : g = f
  · subst hg
    simp [isDeltaOf_update_self]
  · simp [isDeltaOf_update_of_ne hg, hg]

/-! ## The super-feature index -/

theorem mem_updateSF {m : MultiMap Fp Fp} {k v key f : Fp} {flag : InMemoryDatabase.UpdateFlag}
    (h : f ∈ getList (InMemoryDatabase.updateSF m k v flag) key) :
    f ∈ getList m key ∨ (key = k ∧ f = v) := by
  cases flag with
  | push =>
      rw [InMemoryDatabase.updateSF, getList_pushBack] at h
      split at h
      · rename_i hk
        rw [List.mem_append, List.mem_singleton] at h
        rw [hk]
        exact h.imp_right fun hv => ⟨rfl, hv⟩
      · exact Or.inl h
  | replace =>
      rw [InMemoryDatabase.updateSF, getList_pushBack, getList_erase, if_pos rfl] at h
      split at h
      · rename_i hk
        exact Or.inr ⟨hk, by simpa using h⟩
      · rename_i hk
        rw [getList_erase, if_neg hk] at h
        exact Or.inl h
  | remove =>
      rw [InMemoryDatabase.updateSF, getList_erase] at h
      split at h
      · cases h
      · exact Or.inl h

theorem InSF_of_insertSF {sf : Sf} {v f : Fp} {flag : InMemoryDatabase.UpdateFlag}
    (h : (db.insertSF sf v flag).InSF f) : db.InSF f ∨ f = v := by
  obtain ⟨i, key, hmem⟩ := h
  rcases mem_updateSF hmem with hmem | ⟨-, rfl⟩
  · exact Or.inl ⟨i, key, hmem⟩
  · exact Or.inr rfl

theorem InSF_of_push {sf : Sf} {v f : Fp} (h : db.InSF f) : (db.insertSF sf v .push).InSF f := by
  obtain ⟨i, key, hmem⟩ := h
  refine ⟨i, key, ?_⟩
  show f ∈ getList (pushBack (db.sfObj i) (sfKey sf i) v) key
  rw [getList_pushBack]
  split
  · rename_i hk
    rw [hk] at hmem
    exact List.mem_append_left _ hmem
  · exact hmem

/-- Whoever is found is in the index. -/
theorem InSF_of_querySF {sf : Sf} {b : Fp} (h : db.querySF sf = some b) : db.InSF b := by
  obtain ⟨i, -, hi⟩ := List.exists_of_findSome?_eq_some h
  exact ⟨i, sfKey sf i, List.mem_of_head? hi⟩

namespace Linked

variable {pending pending' : Fp → Prop}

theorem InSF_whole (h : Linked db abs pending) {f : Fp} (hf : db.InSF f) : IsWhole abs f := by
  obtain ⟨i, key, hmem⟩ := hf
  obtain ⟨c, hc, hflag, -⟩ := h.sf i key f hmem
  exact ⟨c, hc, hflag⟩

/-- Only the two indexes matter. -/
theorem congr {db' : InMemoryDatabase} (h : Linked db abs pending) (hsf : db'.sfObj = db.sfObj)
    (hdelta : db'.deltaIndex = db.deltaIndex) (hp : ∀ f, pending' f → pending f) :
    Linked db' abs pending' := by
  have hin : ∀ f, db'.InSF f ↔ db.InSF f := by
    intro f
    simp only [InMemoryDatabase.InSF, hsf]
  constructor
  · exact h.base
  · intro i key f hf
    rw [hsf] at hf
    exact h.sf i key f hf
  · intro b hb
    have := h.tracked b (hb.imp (hin b).mp (hp b))
    rwa [Tracked, ← hdelta] at this
  · exact fun b hb => h.whole b (hp b hb)
  · intro b hb
    rw [hdelta] at hb
    exact h.keys b hb

/-- A chunk whose super-features are taken out of the index is in no list. -/
theorem not_InSF_removeSF (h : Linked db abs pending) {f : Fp} {c : Content} (hf : abs f = some c) :
    ¬ (db.insertSF c.superfeature f .remove).InSF f := by
  rintro ⟨i, key, hmem⟩
  have hmem' : f ∈ getList ((db.sfObj i).erase (sfKey c.superfeature i)) key := hmem
  rw [getList_erase] at hmem'
  split at hmem'
  · cases hmem'
  · rename_i hk
    obtain ⟨c', hc', -, hkey⟩ := h.sf i key f hmem'
    rw [hf] at hc'
    obtain rfl := Option.some.inj hc'
    exact hk hkey

/-- The lists of a waiting chunk's super-features change: it joins them, it
takes them over, or they are cleared. -/
theorem insertSF (h : Linked db abs pending) {f : Fp} {c : Content} (hf : abs f = some c)
    (hp : pending f) (flag : InMemoryDatabase.UpdateFlag) :
    Linked (db.insertSF c.superfeature f flag) abs pending where
  base := h.base
  sf := by
    intro i key g hg
    rcases mem_updateSF hg with hmem | ⟨rfl, rfl⟩
    · exact h.sf i key g hmem
    · obtain ⟨c', hc', hflag⟩ := h.whole g hp
      rw [hf] at hc'
      obtain rfl := Option.some.inj hc'
      exact ⟨c, hf, hflag, rfl⟩
  tracked := by
    rintro b (hb | hb)
    · rcases InSF_of_insertSF hb with hb | rfl
      · exact h.tracked b (Or.inl hb)
      · exact h.tracked b (Or.inr hp)
    · exact h.tracked b (Or.inr hb)
  whole := h.whole
  keys := h.keys

/-- A chunk that is new is in no list. -/
theorem not_InSF_of_none (h : Linked db abs pending) {f : Fp} (hf : abs f = none) : ¬ db.InSF f := by
  intro hin
  have := (h.InSF_whole hin).isSome
  rw [hf] at this
  cases this

/-- No chunk is a delta chunk of one that is new. -/
theorem not_isDeltaOf_of_none (h : Linked db abs pending) {f g : Fp} (hf : abs f = none) :
    ¬ IsDeltaOf abs g f := by
  intro hg
  have := (h.base g f hg).isSome
  rw [hf] at this
  cases this

/-! ## New chunks -/

/-- A chunk that is new and stored whole; it may be listed, or wait in the log. -/
theorem addWhole (h : Linked db abs pending) {f : Fp} (hf : abs f = none) {c : Content}
    (hc : c.deltaFlag = NO_DELTA) :
    Linked db (Function.update abs f (some c)) (fun g => pending g ∨ g = f) := by
  have hdelta : ∀ g b, IsDeltaOf (Function.update abs f (some c)) g b ↔ IsDeltaOf abs g b := by
    intro g b
    rw [isDeltaOf_update]
    constructor
    · rintro (⟨-, hflag, -⟩ | ⟨-, hg⟩)
      · exact absurd (hc.symm.trans hflag) noDelta_ne_delta
      · exact hg
    · intro hg
      refine Or.inr ⟨?_, hg⟩
      rintro rfl
      have := hg.isSome
      rw [hf] at this
      cases this
  have hwhole : ∀ g, IsWhole abs g → IsWhole (Function.update abs f (some c)) g := by
    intro g hg
    refine (isWhole_update_of_ne ?_).mpr hg
    rintro rfl
    have := hg.isSome
    rw [hf] at this
    cases this
  have hnil : getList db.deltaIndex f = [] := by
    by_contra hne
    have := h.keys f hne
    rw [hf] at this
    cases this
  constructor
  · exact fun g b hg => hwhole b (h.base g b ((hdelta g b).mp hg))
  · intro i key g hg
    obtain ⟨c', hc', hflag, hkey⟩ := h.sf i key g hg
    refine ⟨c', ?_, hflag, hkey⟩
    rw [Function.update_of_ne, hc']
    rintro rfl
    rw [hf] at hc'
    cases hc'
  · intro b hb
    by_cases hbf : b = f
    · subst hbf
      refine ⟨hnil ▸ List.nodup_nil, fun g => ?_⟩
      rw [hnil, hdelta]
      exact iff_of_false List.not_mem_nil (h.not_isDeltaOf_of_none hf)
    · obtain ⟨hnd, hiff⟩ := h.tracked b (hb.imp_right fun hb => hb.resolve_right hbf)
      exact ⟨hnd, fun g => (hiff g).trans (hdelta g b).symm⟩
  · rintro g (hg | rfl)
    · exact hwhole g (h.whole g hg)
    · exact isWhole_update_self.mpr hc
  · intro b hb
    by_cases hbf : b = f
    · rw [hbf, Function.update_self]
      rfl
    · rw [Function.update_of_ne hbf]
      exact h.keys b hb

/-- The index of delta chunks learns of one that its base gets. `f` was not a
delta chunk of a base that is tracked, and `b` is tracked. -/
theorem setDelta (h : Linked db abs pending) {f b : Fp} {c : Content} (hflag : c.deltaFlag = DELTA)
    (hbase : c.basechunkHash = b) (hb : db.InSF b ∨ pending b)
    (hold : ∀ b', db.InSF b' ∨ pending b' → ¬ IsDeltaOf abs f b')
    (hf : ¬ db.InSF f) (hp : ¬ pending f) (hno : ∀ g, ¬ IsDeltaOf abs g f) :
    Linked (db.insertDeltaIndex b f) (Function.update abs f (some c)) pending := by
  have hbwhole : IsWhole abs b := hb.elim h.InSF_whole (h.whole b)
  have hbf : b ≠ f := by
    rintro rfl
    exact hb.elim hf hp
  have hwhole : ∀ g, g ≠ f → IsWhole abs g → IsWhole (Function.update abs f (some c)) g :=
    fun g hg hw => (isWhole_update_of_ne hg).mpr hw
  constructor
  · intro g b' hg
    rcases isDeltaOf_update.mp hg with ⟨-, -, hb'⟩ | ⟨-, hg'⟩
    · rw [← hb', hbase]
      exact hwhole b hbf hbwhole
    · refine hwhole b' ?_ (h.base g b' hg')
      rintro rfl
      exact hno g hg'
  · intro i key g hg
    obtain ⟨c', hc', hflag', hkey⟩ := h.sf i key g hg
    refine ⟨c', ?_, hflag', hkey⟩
    rw [Function.update_of_ne, hc']
    rintro rfl
    exact hf ⟨i, key, hg⟩
  · intro b' hb'
    have hb'' : db.InSF b' ∨ pending b' := hb'
    obtain ⟨hnd, hiff⟩ := h.tracked b' hb''
    have hnotin : f ∉ getList db.deltaIndex b' := fun hmem => hold b' hb'' ((hiff f).mp hmem)
    have hlist : getList (db.insertDeltaIndex b f).deltaIndex b' =
        if b' = b then getList db.deltaIndex b ++ [f] else getList db.deltaIndex b' :=
      getList_pushBack _ _ _ _
    constructor
    · rw [hlist]
      split
      · rename_i heq
        subst heq
        exact List.nodup_append.mpr ⟨hnd, by simp, fun x hx y hy hxy =>
          hnotin (by rw [← List.mem_singleton.mp hy, ← hxy]; exact hx)⟩
      · exact hnd
    · intro g
      rw [hlist, isDeltaOf_update]
      split
      · rename_i heq
        subst heq
        rw [List.mem_append, List.mem_singleton, hiff g]
        by_cases hg : g = f
        · simp [hg, hflag, hbase]
        · simp [hg]
      · rename_i hne
        rw [hiff g]
        by_cases hg : g = f
        · subst hg
          simp [hold b' hb'', hbase, Ne.symm hne]
        · simp [hg]
  · intro g hg
    refine hwhole g ?_ (h.whole g hg)
    rintro rfl
    exact hp hg
  · intro b' hb'
    by_cases hbf' : b' = f
    · rw [hbf', Function.update_self]
      rfl
    · rw [Function.update_of_ne hbf']
      by_cases heq : b' = b
      · rw [heq]
        exact hbwhole.isSome
      · refine h.keys b' ?_
        rwa [show getList (db.insertDeltaIndex b f).deltaIndex b' = getList db.deltaIndex b' from
          (getList_pushBack _ _ _ _).trans (if_neg heq)] at hb'

/-- A delta chunk that is new. -/
theorem addDelta (h : Linked db abs pending) {f b : Fp} (hf : abs f = none) {c : Content}
    (hflag : c.deltaFlag = DELTA) (hbase : c.basechunkHash = b) (hb : db.InSF b) :
    Linked (db.insertDeltaIndex b f) (Function.update abs f (some c)) pending := by
  refine h.setDelta hflag hbase (Or.inl hb) ?_ (h.not_InSF_of_none hf) ?_ ?_
  · intro b' _ hd
    have := hd.isSome
    rw [hf] at this
    cases this
  · intro hp
    have := (h.whole f hp).isSome
    rw [hf] at this
    cases this
  · exact fun g => h.not_isDeltaOf_of_none hf

/-! ## Steps of an offline pass -/

/-- The delta chunks of a base are asked for: nobody may rely on the base any
more. -/
theorem eraseDeltas (h : Linked db abs pending) {old : Fp} (hold : ¬ db.InSF old)
    (hp : ∀ f, pending' f → pending f) (hpold : ¬ pending' old) :
    Linked { db with deltaIndex := db.deltaIndex.erase old } abs pending' where
  base := h.base
  sf := h.sf
  tracked := by
    intro b hb
    have hne : b ≠ old := by
      rintro rfl
      exact hb.elim hold hpold
    have := h.tracked b (hb.imp_right (hp b))
    rwa [Tracked, show getList db.deltaIndex b = getList (db.deltaIndex.erase old) b by
      rw [getList_erase, if_neg hne]] at this
  whole := fun b hb => h.whole b (hp b hb)
  keys := by
    intro b hb
    refine h.keys b fun hnil => hb ?_
    show getList (db.deltaIndex.erase old) b = []
    rw [getList_erase]
    split
    · rfl
    · exact hnil

/-- `QueryDeltaIndex` answers with the delta chunks, and erases them. -/
theorem queryDeltaIndex (h : Linked db abs pending) {old : Fp} (hold : ¬ db.InSF old)
    (hp : ∀ f, pending' f → pending f) (hpold : ¬ pending' old) :
    (db.queryDeltaIndex old).1.getD [] = getList db.deltaIndex old ∧
      Linked (db.queryDeltaIndex old).2 abs pending' := by
  unfold InMemoryDatabase.queryDeltaIndex getList
  cases hl : db.deltaIndex.lookup old with
  | none => exact ⟨rfl, h.congr rfl rfl hp⟩
  | some result => exact ⟨rfl, h.eraseDeltas hold hp hpold⟩

/-- A delta chunk of a base that is not tracked any more gets a base that is. -/
theorem rebase (h : Linked db abs pending) {f old new : Fp} (hf : IsDeltaOf abs f old) {c : Content}
    (hflag : c.deltaFlag = DELTA) (hbase : c.basechunkHash = new)
    (hnew : db.InSF new ∨ pending new) (hold : ¬ db.InSF old) (hpold : ¬ pending old) :
    Linked (db.insertDeltaIndex new f) (Function.update abs f (some c)) pending := by
  refine h.setDelta hflag hbase hnew ?_ (fun hin => hf.not_whole (h.InSF_whole hin))
    (fun hp => hf.not_whole (h.whole f hp)) (fun g hg => hf.not_whole (h.base g f hg))
  rintro b' hb' ⟨c', hc', -, hb⟩
  obtain ⟨c'', hc'', -, hb''⟩ := hf
  rw [hc'] at hc''
  obtain rfl := Option.some.inj hc''
  rw [hb] at hb''
  subst hb''
  exact hb'.elim hold hpold

/-- A base without delta chunks becomes a delta chunk itself. -/
theorem convert (h : Linked db abs pending) {old new : Fp} (hwhole : IsWhole abs old) {c : Content}
    (hflag : c.deltaFlag = DELTA) (hbase : c.basechunkHash = new)
    (hnew : db.InSF new ∨ pending new) (hold : ¬ db.InSF old) (hpold : ¬ pending old)
    (hno : ∀ g, ¬ IsDeltaOf abs g old) :
    Linked (db.insertDeltaIndex new old) (Function.update abs old (some c)) pending :=
  h.setDelta hflag hbase hnew (fun _ _ hd => hd.not_whole hwhole) hold hpold hno

end Linked

end ShieldReduce
