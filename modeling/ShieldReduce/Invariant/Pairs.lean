import ShieldReduce.Invariant.Rebase
import ShieldReduce.System.Accounting

/-!
# The pairs of an offline pass

The log of base replacements has become a list of pairs. For each pair
the delta chunks of the old base get the new base, and so does the old
base itself once none of its delta chunks has stayed behind
(`Rebasing.updatePair`). Then nobody speaks of the old base any more:
`pending` shrinks with every pair, and is empty after the last one
(`Rebasing.updateLocal`).
-/

namespace ShieldReduce

open ByteLib UMapLib TilingLib CatalogLib LoopLib

variable {env : Env} {F : Containers} {abs abs' : Fp → Option Content} {s₀ : Server}
  {abs₀ : Fp → Option Content} {news : Fp → Prop} {rest : List (Fp × Fp)} {pending pending' : Fp → Prop}
  {p p' : Pass}

/-! ## The delta chunks of a base -/

namespace OFFLineBackward

theorem frame_moveToHot (p : Pass) (f new : Fp) (e : RecipeEntry) (delta : Bytes) (fp : Fp) (sf : Sf)
    (iv : Iv) : (moveToHot env p f new e delta fp sf iv).server.db.sfObj = p.server.db.sfObj ∧
      p.server.created ≤ (moveToHot env p f new e delta fp sf iv).server.created ∧
      ∀ g, g ≠ f → (moveToHot env p f new e delta fp sf iv).server.db.queryBuffer g =
        p.server.db.queryBuffer g := by
  obtain ⟨q, hq, heq⟩ := p.insertHotContainer_cases (env.encryptWithKeyIV delta iv)
    { e with length := UInt32.ofNat delta.length, basechunkHash := new } fp sf iv
  unfold moveToHot
  rw [heq]
  have hother : ∀ (db : InMemoryDatabase) v g, g ≠ f →
      (db.insertBothBuffer f v).queryBuffer g = db.queryBuffer g := by
    intro db v g hg
    rw [InMemoryDatabase.queryBuffer_insertBothBuffer, Function.update_of_ne hg]
  rcases hq with ⟨rfl, -⟩ | rfl
  · exact ⟨rfl, le_refl _, fun g hg => hother _ _ g hg⟩
  · exact ⟨rfl, Nat.le_succ _, fun g hg => hother _ _ g hg⟩

theorem getNewDeltachunk_cases (p : Pass) (delta old new : Bytes) :
    (getNewDeltachunk env p delta old new).1 = none ∨
      (getNewDeltachunk env p delta old new).1 =
          some (ed3EncodeBuffer env p (ed3Decode delta old) new).1 ∧
        ¬ (ed3Decode delta old).length < (ed3EncodeBuffer env p (ed3Decode delta old) new).1.length := by
  unfold getNewDeltachunk
  dsimp only
  split
  · exact Or.inl rfl
  · rename_i hle
    exact Or.inr ⟨rfl, hle⟩

theorem created_rebaseDelta (oldChunk newChunk : Bytes) (new : Fp) (st : Bool × Pass) (f : Fp) :
    st.2.server.created ≤ (rebaseDelta env oldChunk newChunk new st f).2.server.created := by
  have hread := (((@samePass_oneRecipe env st.2 f).trans (samePass_askFor _
    (oneRecipe env st.2 f).1.containerName)).trans
    (samePass_oneDeltaContainer _ (oneRecipe env st.2 f).1.containerName)).created
  unfold rebaseDelta
  dsimp only
  generalize Pass.oneDeltaContainer _ _ = p at hread ⊢
  generalize env.decryptionWithKeyIV _ _ = delta
  have hmade := (@samePass_getNewDeltachunk env p delta oldChunk newChunk).created
  generalize getNewDeltachunk env p delta oldChunk newChunk = q at hmade ⊢
  obtain ⟨made, q⟩ := q
  have hq : st.2.server.created = q.server.created := (hmade.trans hread).symm
  cases made with
  | none => exact le_of_eq hq
  | some newDelta => exact le_trans (le_of_eq hq) (frame_moveToHot _ _ _ _ _ _ _ _).2.1

theorem created_rebaseDeltas (oldChunk newChunk : Bytes) (new : Fp) (todo : List Fp)
    (st : Bool × Pass) : st.2.server.created ≤
      (todo.foldl (rebaseDelta env oldChunk newChunk new) st).2.server.created := by
  induction todo generalizing st with
  | nil => exact le_refl _
  | cons f todo ih => exact le_trans (created_rebaseDelta oldChunk newChunk new st f) (ih _)

theorem created_convertBase (oldChunk newChunk : Bytes) (pair : Fp × Fp) (e : RecipeEntry) (iv : Iv)
    (st : Bool × Pass) : st.2.server.created ≤
      (convertBase env oldChunk newChunk pair e iv st).server.created := by
  have hsame := @samePass_ed3EncodeBuffer env st.2 oldChunk newChunk
  have hq := hsame.created
  unfold convertBase
  dsimp only
  generalize ed3EncodeBuffer env st.2 oldChunk newChunk = q at hq ⊢
  split
  · exact le_of_eq hq.symm
  · split
    · refine le_trans (le_of_eq hq.symm) ?_
      exact (frame_moveToHot (resize q.2 e.length.toNat q.1.length) _ _ _ _ _ _ _).2.1
    · exact le_of_eq hq.symm

theorem created_rebase (p : Pass) (pair : Fp × Fp) (e e' : RecipeEntry) (old new : Bytes) :
    p.server.created ≤ (rebase env p pair e e' old new).server.created := by
  unfold rebase
  refine le_trans ?_ (created_convertBase _ _ _ _ _ _)
  exact created_rebaseDeltas _ _ _ _ (true, (p.queryDeltaIndex pair.1).2)

theorem created_oneContainer {p p' : Pass} {n : ContainerName} (h : p.oneContainer n = some p') :
    p'.server.created = p.server.created := by
  obtain ⟨file, -, rfl⟩ := Option.map_eq_some_iff.mp h
  rfl

theorem created_updatePair (p : Pass) (pair : Fp × Fp) :
    p.server.created ≤ (updatePair env p pair).server.created := by
  unfold updatePair
  split
  · exact le_refl _
  dsimp only
  split
  · exact le_refl _
  rename_i p₁ hp₁
  have h₁ : p₁.server.created = p.server.created := by
    have := created_oneContainer hp₁
    exact this
  split
  · exact le_of_eq h₁.symm
  rename_i p₂ hp₂
  have h₂ : p₂.server.created = p₁.server.created := by
    have := created_oneContainer hp₂
    exact this
  refine le_trans (le_of_eq (h₂.trans h₁).symm) ?_
  exact created_rebase (p₂.mapDb _) _ _ _ _ _

theorem created_updatePairs (l : List (Fp × Fp)) (p : Pass) :
    p.server.created ≤ (l.foldl (updatePair env) p).server.created := by
  induction l generalizing p with
  | nil => exact le_refl _
  | cons q l ih => exact le_trans (created_updatePair p q) (ih _)

theorem created_updateLocal (fuel : Nat) (p : Pass) :
    p.server.created ≤ (updateLocal env fuel p).server.created := by
  induction fuel generalizing p with
  | zero => exact le_refl _
  | succ fuel ih =>
      rw [updateLocal]
      split
      · exact le_refl _
      · refine le_trans ?_ (ih _)
        exact created_updatePairs _ (p.mapDb _)

end OFFLineBackward

/-- It is the turn of the pair `old`, `new`; `e` is the entry of `old`. -/
structure Turn (env : Env) (p : Pass) (abs : Fp → Option Content) (pending : Fp → Prop) (old new : Fp)
    (cOld cNew : Content) (e : RecipeEntry) : Prop where
  known : abs old = some cOld
  whole : cOld.deltaFlag = NO_DELTA
  newKnown : abs new = some cNew
  newWhole : cNew.deltaFlag = NO_DELTA
  waits : pending new
  unlisted : ¬ p.server.db.InSF old
  done : ¬ pending old
  entry : p.server.db.queryBuffer old = some (env.encEntry e)

theorem Turn.ne {old new : Fp} {cOld cNew : Content} {e : RecipeEntry}
    (h : Turn env p abs pending old new cOld cNew e) : new ≠ old := by
  rintro rfl
  exact h.done h.waits

theorem Turn.congr {abs' : Fp → Option Content} {old new : Fp} {cOld cNew : Content} {e : RecipeEntry}
    (h : Turn env p abs pending old new cOld cNew e)
    (hsf : p'.server.db.sfObj = p.server.db.sfObj)
    (hentry : p'.server.db.queryBuffer old = p.server.db.queryBuffer old)
    (hold : abs' old = abs old) (hnew : abs' new = abs new) :
    Turn env p' abs' pending old new cOld cNew e where
  known := hold.trans h.known
  whole := h.whole
  newKnown := hnew.trans h.newKnown
  newWhole := h.newWhole
  waits := h.waits
  unlisted := by
    have := h.unlisted
    simpa only [InMemoryDatabase.InSF, hsf] using this
  done := h.done
  entry := hentry.trans h.entry

namespace Rebasing

open OFFLineBackward

/-- What is read for a delta chunk of the old base: its entry, and its record in
a container that is not the hot one. -/
structure DeltaRead (env : Env) (p : Pass) (F : Containers) (abs : Fp → Option Content) (old f : Fp)
    (n : ContainerName) (r : Record) (q : Pass) : Prop where
  has : F.Has (.delta, n) r
  fp : r.fp = f
  entry : p.server.db.queryBuffer f = some (env.encEntry r.entry)
  known : abs f = some (r.content env)
  flag : (r.content env).deltaFlag = DELTA
  base : (r.content env).basechunkHash = old
  recipe : (oneRecipe env p f).1 = r.entry
  read : ((oneRecipe env p f).2.askFor r.entry.containerName).oneDeltaContainer
    r.entry.containerName = q
  same : SamePass p q
  data : env.decryptionWithKeyIV (getChunkContent q.server.tmpOcallcontainer r.entry)
    (getChunkIV q.server.tmpOcallcontainer r.entry) = (r.content env).data
  key : getChunkFP q.server.tmpOcallcontainer r.entry = f

theorem readDelta (henv : env.Lawful) (h : Rebasing env s₀ abs₀ news rest pending p F abs) {old : Fp}
    (hold : ¬ news old) {f : Fp} (hf : IsDeltaOf abs f old) :
    ∃ n r q, DeltaRead env p F abs old f n r q := by
  obtain ⟨c, hc, hflag, hbase⟩ := id hf
  obtain ⟨d, n, r, hr, rfl, hidx, rfl⟩ := h.rep.found hc
  have hplaced := h.rep.placed hr
  obtain rfl : d = .delta := by
    have hd := h.rep.flag hr
    cases d with
    | base => exact absurd (hd.symm.trans hflag) noDelta_ne_delta
    | delta => rfl
  have hhot : n ≠ p.hotContainer.containerID := by
    rintro rfl
    obtain ⟨rs, hrs, -, hbases⟩ := h.shelf.hot
    obtain ⟨us, hus, hmem⟩ := hr
    obtain rfl := Option.some.inj (hrs.symm.trans hus)
    exact hold (hbase ▸ hbases r hmem)
  have hsame₁ := (@samePass_oneRecipe env p r.fp).trans
    (samePass_askFor (oneRecipe env p r.fp).2 n)
  have hfound := (h.congr hsame₁).oneDeltaContainer hr (by rwa [hsame₁.hotContainer])
  have hsame₂ := hsame₁.trans
    (samePass_oneDeltaContainer ((oneRecipe env p r.fp).2.askFor n) n)
  refine ⟨n, r, _, hr, rfl, hidx, hc, hflag, hbase, oneRecipe_eq henv hidx, by rw [hplaced.1],
    hsame₂, ?_, hfound.getChunkFP⟩
  rw [hfound.getChunkContent hplaced, hfound.getChunkIV hplaced]
  rfl

/-- The text of a delta chunk is no longer than a chunk. -/
theorem length_text {f : Fp} {c : Content} (hok : c.Ok env f) (hflag : c.deltaFlag = DELTA)
    (base : Bytes) : (ed3Decode c.data base).length ≤ MAX_CHUNK_SIZE := by
  obtain ⟨n, hn, htext⟩ := hok.delta hflag
  rw [htext]
  exact hn

/-- A delta chunk of the old base is moved, or stays where it is. -/
theorem moveDelta (henv : env.Lawful) {st : Bool × Pass}
    (h : Rebasing env s₀ abs₀ news rest pending st.2 F abs) {old new : Fp} {cOld cNew : Content}
    {e : RecipeEntry} (ht : Turn env st.2 abs pending old new cOld cNew e) (hnew : news new)
    (hold : ¬ news old) {f : Fp}
    (hf : IsDeltaOf abs f old)
    (hcreated : (rebaseDelta env (env.unpackOffline cOld.data) (env.unpackOffline cNew.data) new st
      f).2.server.created ≤ 2 ^ 31) :
    ∃ F' abs', Rebasing env s₀ abs₀ news rest pending
        (rebaseDelta env (env.unpackOffline cOld.data) (env.unpackOffline cNew.data) new st f).2 F'
        abs' ∧
      Turn env (rebaseDelta env (env.unpackOffline cOld.data) (env.unpackOffline cNew.data) new st
        f).2 abs' pending old new cOld cNew e ∧
      (∀ g, g ≠ f → abs' g = abs g) ∧
      ((rebaseDelta env (env.unpackOffline cOld.data) (env.unpackOffline cNew.data) new st f).1 =
        true → st.1 = true ∧ ¬ IsDeltaOf abs' f old) := by
  obtain ⟨n, r, p, hr, rfl, hidx, hc, hflag, hbase, hrecipe, hp, hsame₂, hdata, hkey⟩ :=
    h.readDelta henv hold hf
  unfold rebaseDelta at hcreated ⊢
  dsimp only at hcreated ⊢
  rw [hrecipe, hp, hdata, hkey] at hcreated ⊢
  generalize hq : getNewDeltachunk env p (r.content env).data (env.unpackOffline cOld.data)
    (env.unpackOffline cNew.data) = q at hcreated ⊢
  have hcases := @getNewDeltachunk_cases env p (r.content env).data
    (env.unpackOffline cOld.data) (env.unpackOffline cNew.data)
  have hsame := hsame₂.trans (@samePass_getNewDeltachunk env p (r.content env).data
    (env.unpackOffline cOld.data) (env.unpackOffline cNew.data))
  rw [hq] at hcases hsame
  obtain ⟨made, q⟩ := q
  dsimp only at hcases hsame
  have hq' := h.congr hsame
  rcases hcases with rfl | ⟨rfl, hle⟩
  · exact ⟨F, abs, hq', ht.congr (by rw [hsame.db]) (by rw [hsame.db]) rfl rfl,
      fun _ _ => rfl, fun hfalse => by cases hfalse⟩
  -- the text of the chunk
  have hsmall : (ed3Decode (r.content env).data (env.unpackOffline cOld.data)).length ≤
      MAX_CHUNK_SIZE := length_text (h.contents _ _ hc) hflag _
  have hokOld := h.contents _ _ ht.known
  have hokNew := h.contents _ _ ht.newKnown
  have hsizeNew := henv.length_unpackOffline hokNew.size
  have hno : ∀ g, ¬ IsDeltaOf abs g r.fp := fun g hg => hf.not_whole (h.linked.base g _ hg)
  have hne : new ≠ r.fp := by
    intro heq
    exact hf.not_whole ⟨cNew, heq ▸ ht.newKnown, ht.newWhole⟩
  have hneOld : old ≠ r.fp := by
    intro heq
    exact hf.not_whole ⟨cOld, heq ▸ ht.known, ht.whole⟩
  have hchunks : SameChunks env abs (Function.update abs r.fp (some ((r.content env).rebased new
      (ed3EncodeBuffer env p (ed3Decode (r.content env).data (env.unpackOffline cOld.data))
        (env.unpackOffline cNew.data)).1))) := by
    refine SameChunks.update hc hno fun hs hsound => ?_
    obtain ⟨chunk, -, -, hplain⟩ := hsound _ _ hc
    have hold' : plainOf env abs r.fp =
        some (ed3Decode (r.content env).data (env.unpackOffline cOld.data)) := by
      rw [plainOf_delta hc hflag (b := cOld) (by rw [hbase]; exact ht.known),
        hokOld.unpackOffline_eq henv hs ht.whole]
    rw [hold'] at hplain
    rw [hold', plainOf_rebased henv hs p ht.newKnown hokNew ht.newWhole hne hsmall]
    rw [Option.some.inj hplain]
    exact chunk.2.1
  obtain ⟨F', h'⟩ := hq'.moveToHot henv hr (by rw [hsame.db]; exact hidx)
    (le_trans (not_lt.mp hle) hsmall) (getChunkSF p.server.tmpOcallcontainer r.entry)
    (getChunkIV p.server.tmpOcallcontainer r.entry) hnew (Content.ok_rebased p hsmall hsizeNew hle)
    (hq'.linked.rebase hf rfl rfl (Or.inr ht.waits) (by rw [hsame.db]; exact ht.unlisted) ht.done)
    hchunks hcreated
  refine ⟨F', _, h', ?_, fun g hg => Function.update_of_ne hg _ _, fun hst => ⟨hst, ?_⟩⟩
  · obtain ⟨hsf, -, hentry⟩ := @frame_moveToHot env q r.fp new r.entry
      (ed3EncodeBuffer env p (ed3Decode (r.content env).data (env.unpackOffline cOld.data))
        (env.unpackOffline cNew.data)).1 r.fp (getChunkSF p.server.tmpOcallcontainer r.entry)
      (getChunkIV p.server.tmpOcallcontainer r.entry)
    refine ht.congr (by rw [hsf, hsame.db]) (by rw [hentry old hneOld, hsame.db])
      (Function.update_of_ne hneOld _ _) (Function.update_of_ne hne _ _)
  · rw [isDeltaOf_update_self]
    rintro ⟨-, hnewOld⟩
    exact ht.ne hnewOld

/-- Of the delta chunks of the old base, `todo` are still to come; the flag says
that no other is left. -/
structure Todo (abs : Fp → Option Content) (old : Fp) (flag : Bool) (todo : List Fp) : Prop where
  nodup : todo.Nodup
  still : ∀ f ∈ todo, IsDeltaOf abs f old
  all : flag = true → ∀ f, IsDeltaOf abs f old → f ∈ todo

/-- What a delta chunk of the old base finds. -/
def DeltaTurn (env : Env) (s₀ : Server) (abs₀ : Fp → Option Content) (news : Fp → Prop)
    (rest : List (Fp × Fp)) (pending : Fp → Prop) (old new : Fp) (cOld cNew : Content)
    (e : RecipeEntry) (v : (Bool × Pass) × Fp) : Prop :=
  ∃ F abs, Rebasing env s₀ abs₀ news rest pending v.1.2 F abs ∧
    Turn env v.1.2 abs pending old new cOld cNew e ∧ IsDeltaOf abs v.2 old

/-- All delta chunks of the old base, one after the other. -/
theorem moveDeltas (henv : env.Lawful) {old new : Fp} {cOld cNew : Content} {e : RecipeEntry}
    (hnew : news new) (hold : ¬ news old) (todo : List Fp) {st : Bool × Pass} {F : Containers}
    {abs : Fp → Option Content} (h : Rebasing env s₀ abs₀ news rest pending st.2 F abs)
    (ht : Turn env st.2 abs pending old new cOld cNew e) (htodo : Todo abs old st.1 todo)
    (hcreated : (todo.foldl (rebaseDelta env (env.unpackOffline cOld.data)
      (env.unpackOffline cNew.data) new) st).2.server.created ≤ 2 ^ 31) :
    (∃ F' abs', Rebasing env s₀ abs₀ news rest pending (todo.foldl (rebaseDelta env
        (env.unpackOffline cOld.data) (env.unpackOffline cNew.data) new) st).2 F' abs' ∧
      Turn env (todo.foldl (rebaseDelta env (env.unpackOffline cOld.data)
        (env.unpackOffline cNew.data) new) st).2 abs' pending old new cOld cNew e ∧
      Todo abs' old (todo.foldl (rebaseDelta env (env.unpackOffline cOld.data)
        (env.unpackOffline cNew.data) new) st).1 []) ∧
    ∀ v ∈ visits (rebaseDelta env (env.unpackOffline cOld.data) (env.unpackOffline cNew.data) new)
      st todo, DeltaTurn env s₀ abs₀ news rest pending old new cOld cNew e v := by
  induction todo generalizing st F abs with
  | nil => exact ⟨⟨F, abs, h, ht, htodo⟩, fun v hv => by cases hv⟩
  | cons f todo ih =>
      rw [List.foldl_cons] at hcreated ⊢
      rw [visits_cons]
      obtain ⟨hf, hnd⟩ := List.nodup_cons.mp htodo.nodup
      have hstill := htodo.still f (List.mem_cons_self ..)
      obtain ⟨F₁, abs₁, h₁, ht₁, hkeep, hflag⟩ := h.moveDelta henv ht hnew hold hstill
        (le_trans (created_rebaseDeltas _ _ _ _ _) hcreated)
      have htodo₁ : Todo abs₁ old (rebaseDelta env (env.unpackOffline cOld.data)
          (env.unpackOffline cNew.data) new st f).1 todo := by
        refine ⟨hnd, fun g hg => ?_, fun hst g hg => ?_⟩
        · have hne : g ≠ f := by
            rintro rfl
            exact hf hg
          obtain ⟨c, hc, hdelta⟩ := htodo.still g (List.mem_cons_of_mem _ hg)
          exact ⟨c, (hkeep g hne).trans hc, hdelta⟩
        · obtain ⟨hst₀, hmoved⟩ := hflag hst
          have hne : g ≠ f := by
            rintro rfl
            exact hmoved hg
          obtain ⟨c, hc, hdelta⟩ := hg
          exact (List.mem_cons.mp (htodo.all hst₀ g ⟨c, (hkeep g hne) ▸ hc, hdelta⟩)).resolve_left hne
      obtain ⟨hend, hvisits⟩ := ih h₁ ht₁ htodo₁ hcreated
      refine ⟨hend, fun v hv => ?_⟩
      rcases List.mem_cons.mp hv with rfl | hv
      · exact ⟨F, abs, h, ht, hstill⟩
      · exact hvisits v hv

theorem weaken (h : Rebasing env s₀ abs₀ news rest pending p F abs)
    (hp : ∀ f, pending' f → pending f) : Rebasing env s₀ abs₀ news rest pending' p F abs := by
  obtain ⟨h1, h2, h3, h4, h5, h6, h7, h8, h9, h10, h11, h12, h13, h14⟩ := h
  exact ⟨h1, h2, h3, h4, h5, h6.congr rfl rfl hp, h7, h8, h9, h10, h11, h12, h13, h14⟩

/-- The old base becomes a delta chunk of the new one, if none of its own delta
chunks is left and if that makes it shorter. -/
theorem convertBase (henv : env.Lawful) {st : Bool × Pass}
    (h : Rebasing env s₀ abs₀ news rest pending st.2 F abs) {old new : Fp} {cOld cNew : Content}
    {e : RecipeEntry} (ht : Turn env st.2 abs pending old new cOld cNew e) (hnew : news new)
    (htodo : Todo abs old st.1 []) (iv : Iv)
    (hcreated : (convertBase env (env.unpackOffline cOld.data) (env.unpackOffline cNew.data)
      (old, new) e iv st).server.created ≤ 2 ^ 31) :
    ∃ F' abs', Rebasing env s₀ abs₀ news rest pending (convertBase env (env.unpackOffline cOld.data)
      (env.unpackOffline cNew.data) (old, new) e iv st) F' abs' := by
  unfold OFFLineBackward.convertBase at hcreated ⊢
  dsimp only at hcreated ⊢
  have hsame := @samePass_ed3EncodeBuffer env st.2 (env.unpackOffline cOld.data)
    (env.unpackOffline cNew.data)
  split
  · exact ⟨F, abs, h.congr hsame⟩
  rename_i hle
  rw [if_neg hle] at hcreated
  have hsame' := hsame.trans (samePass_resize (ed3EncodeBuffer env st.2 (env.unpackOffline cOld.data)
    (env.unpackOffline cNew.data)).2 e.length.toNat (ed3EncodeBuffer env st.2
      (env.unpackOffline cOld.data) (env.unpackOffline cNew.data)).1.length)
  split
  swap
  · exact ⟨F, abs, h.congr hsame'⟩
  rename_i hst
  rw [if_pos hst] at hcreated
  obtain ⟨d, n, r, hr, rfl, hidx, hc⟩ := h.rep.found ht.known
  obtain rfl : r.entry = e := henv.encEntry_inj (Option.some.inj (hidx.symm.trans ht.entry))
  have hokOld := h.contents _ _ ht.known
  have hokNew := h.contents _ _ ht.newKnown
  have hsmall := henv.length_unpackOffline hokOld.size
  have hsizeNew := henv.length_unpackOffline hokNew.size
  have hno : ∀ g, ¬ IsDeltaOf abs g r.fp := fun g hg => by cases htodo.all hst g hg
  have hchunks : SameChunks env abs (Function.update abs r.fp (some ((r.content env).rebased new
      (ed3EncodeBuffer env st.2 (env.unpackOffline cOld.data) (env.unpackOffline cNew.data)).1))) := by
    refine SameChunks.update ht.known hno fun hs _ => ?_
    obtain ⟨chunk, -, hdata⟩ := hokOld.whole ht.whole
    have hpos : 0 < (env.unpackOffline cOld.data).length := by
      rw [hdata, henv.unpackOffline_pack hs]
      exact chunk.2.1
    rw [plainOf_rebased henv hs st.2 ht.newKnown hokNew ht.newWhole ht.ne hsmall hpos,
      plainOf_whole ht.known ht.whole, hokOld.unpackOffline_eq henv hs ht.whole]
  have h' := h.congr hsame'
  obtain ⟨F', h''⟩ := h'.moveToHot henv hr (by rw [hsame'.db]; exact hidx)
    (le_trans (not_lt.mp hle) hsmall) r.entry.superfeature iv hnew
    (Content.ok_rebased st.2 hsmall hsizeNew hle)
    (h'.linked.convert ⟨cOld, ht.known, ht.whole⟩ rfl rfl (Or.inr ht.waits)
      (by rw [hsame'.db]; exact ht.unlisted) ht.done hno)
    hchunks hcreated
  exact ⟨F', _, h''⟩

/-! ## A pair -/

/-- The delta chunks of the old base are asked for. -/
theorem queryDeltaIndex (h : Rebasing env s₀ abs₀ news rest pending p F abs) {old : Fp}
    (hold : ¬ p.server.db.InSF old) (hp : ∀ f, pending' f → pending f) (hpold : ¬ pending' old) :
    (p.queryDeltaIndex old).1 = getList p.server.db.deltaIndex old ∧
      Rebasing env s₀ abs₀ news rest pending' (p.queryDeltaIndex old).2 F abs := by
  obtain ⟨hlist, hlinked⟩ := h.linked.queryDeltaIndex hold hp hpold
  have hdb : (p.server.db.queryDeltaIndex old).2 = { p.server.db with
      sfObj := (p.server.db.queryDeltaIndex old).2.sfObj,
      deltaIndex := (p.server.db.queryDeltaIndex old).2.deltaIndex } := by
    unfold InMemoryDatabase.queryDeltaIndex
    split <;> rfl
  exact ⟨hlist, h.mapDb (f := fun _ => (p.server.db.queryDeltaIndex old).2) hdb hlinked⟩

/-- What a pair finds that gets to the re-encoding: it is the turn of the pair,
with all delta chunks of the old base to come. -/
structure CallOk (env : Env) (s₀ : Server) (abs₀ : Fp → Option Content) (news : Fp → Prop)
    (rest : List (Fp × Fp)) (pending : Fp → Prop) (k : RebaseCall) (old new : Fp) (F : Containers)
    (abs : Fp → Option Content) (cOld cNew : Content) : Prop where
  rebasing : Rebasing env s₀ abs₀ news rest pending (k.asked (old, new)).2 F abs
  turn : Turn env (k.asked (old, new)).2 abs pending old new cOld cNew k.oldRecipe
  todo : Todo abs old true (k.asked (old, new)).1
  oldChunk : k.oldChunk env = env.unpackOffline cOld.data
  newChunk : k.newChunk env = env.unpackOffline cNew.data

theorem callOk (henv : env.Lawful) (h : Rebasing env s₀ abs₀ news rest pending p F abs) {old new : Fp}
    (hpOld : pending old) (hpNew : pending new) (hp : ∀ f, pending' f → pending f)
    (hpold : ¬ pending' old) (hnew : news new) (hold : ¬ news old)
    (hunlisted : ¬ p.server.db.InSF old) {nOld nNew : ContainerName} {rOld rNew : Record}
    (hrOld : F.Has (.base, nOld) rOld) (hfpOld : rOld.fp = old)
    (hliveOld : Live env p.server.db.queryBuffer rOld) {oldContainer : Bytes}
    (hfoundOld : rOld.FoundIn oldContainer) (hrNew : F.Has (.base, nNew) rNew) (hfpNew : rNew.fp = new)
    (hliveNew : Live env p.server.db.queryBuffer rNew) {newContainer : Bytes}
    (hfoundNew : rNew.FoundIn newContainer) :
    CallOk env s₀ abs₀ news rest (fun f => pending' f ∨ f = new)
      ⟨p, rOld.entry, rNew.entry, oldContainer, newContainer⟩ old new F abs (rOld.content env)
      (rNew.content env) := by
  have hne : old ≠ new := by
    rintro rfl
    exact hold hnew
  have hcOld := h.rep.content_of_live henv hrOld hliveOld
  have hcNew := h.rep.content_of_live henv hrNew hliveNew
  have hdata : ∀ {r : Record} {buf : Bytes} {n : ContainerName}, r.FoundIn buf → r.PlacedIn n →
      env.unpackOffline (env.decryptionWithKeyIV (getChunkContent buf r.entry)
        (getChunkIV buf r.entry)) = env.unpackOffline (r.content env).data := by
    intro r buf n hfound hplaced
    rw [hfound.getChunkContent hplaced, hfound.getChunkIV hplaced]
    rfl
  -- until the pair is done, the new base is still waited for
  have hwait : ∀ f, pending' f ∨ f = new → pending f := by
    rintro f (hf | rfl)
    · exact hp f hf
    · exact hpNew
  obtain ⟨hlist, h₁⟩ := h.queryDeltaIndex hunlisted hwait (by rintro (hf | hf) <;> contradiction)
  obtain ⟨hnodup, htracked⟩ := h.linked.tracked old (Or.inr hpOld)
  refine ⟨h₁, ?_, ?_, hdata hfoundOld (h.rep.placed hrOld), hdata hfoundNew (h.rep.placed hrNew)⟩
  · have hdb : (p.queryDeltaIndex old).2.server.db.sfObj = p.server.db.sfObj ∧
        (p.queryDeltaIndex old).2.server.db.queryBuffer = p.server.db.queryBuffer := by
      show (p.server.db.queryDeltaIndex old).2.sfObj = _ ∧
        (p.server.db.queryDeltaIndex old).2.queryBuffer = _
      unfold InMemoryDatabase.queryDeltaIndex
      split <;> exact ⟨rfl, rfl⟩
    show Turn env (p.queryDeltaIndex old).2 abs (fun f => pending' f ∨ f = new) old new
      (rOld.content env) (rNew.content env) rOld.entry
    constructor
    · rw [← hfpOld]
      exact hcOld
    · exact h.rep.flag hrOld
    · rw [← hfpNew]
      exact hcNew
    · exact h.rep.flag hrNew
    · exact Or.inr rfl
    · simpa only [InMemoryDatabase.InSF, hdb.1] using hunlisted
    · rintro (hf | hf) <;> contradiction
    · rw [hdb.2, ← hfpOld]
      exact hliveOld
  · show Todo abs old true (p.queryDeltaIndex old).1
    rw [hlist]
    exact ⟨hnodup, fun f hf => (htracked f).mp hf, fun _ f hf => (htracked f).mpr hf⟩

namespace CallOk

variable {k : RebaseCall} {old new : Fp} {cOld cNew : Content}

/-- The delta chunks are worked through. -/
theorem deltas (henv : env.Lawful)
    (h : CallOk env s₀ abs₀ news rest pending k old new F abs cOld cNew) (hnew : news new)
    (hold : ¬ news old) (hcreated : (k.afterDeltas env (old, new)).2.server.created ≤ 2 ^ 31) :
    (∃ F' abs', Rebasing env s₀ abs₀ news rest pending (k.afterDeltas env (old, new)).2 F' abs' ∧
      Turn env (k.afterDeltas env (old, new)).2 abs' pending old new cOld cNew k.oldRecipe ∧
      Todo abs' old (k.afterDeltas env (old, new)).1 []) ∧
    ∀ v ∈ visits (rebaseDelta env (k.oldChunk env) (k.newChunk env) new)
        (true, (k.asked (old, new)).2) (k.asked (old, new)).1,
      DeltaTurn env s₀ abs₀ news rest pending old new cOld cNew k.oldRecipe v := by
  have hafter : k.afterDeltas env (old, new) = (k.asked (old, new)).1.foldl
      (rebaseDelta env (env.unpackOffline cOld.data) (env.unpackOffline cNew.data) new)
      (true, (k.asked (old, new)).2) := by
    rw [← h.oldChunk, ← h.newChunk]
    rfl
  rw [hafter] at hcreated ⊢
  rw [h.oldChunk, h.newChunk]
  exact moveDeltas henv hnew hold _ h.rebasing h.turn h.todo hcreated

/-- Then it is the old base's turn. -/
theorem rebase (henv : env.Lawful)
    (h : CallOk env s₀ abs₀ news rest pending k old new F abs cOld cNew) (hnew : news new)
    (hold : ¬ news old) (hcreated : (OFFLineBackward.rebase env k.pass (old, new) k.oldRecipe
      k.newRecipe k.oldContainer k.newContainer).server.created ≤ 2 ^ 31) :
    ∃ F' abs', Rebasing env s₀ abs₀ news rest pending (OFFLineBackward.rebase env k.pass (old, new)
      k.oldRecipe k.newRecipe k.oldContainer k.newContainer) F' abs' := by
  rw [k.rebase_eq] at hcreated ⊢
  obtain ⟨⟨F₁, abs₁, h₁, hturn, htodo⟩, -⟩ :=
    h.deltas henv hnew hold (le_trans (created_convertBase _ _ _ _ _ _) hcreated)
  rw [h.oldChunk, h.newChunk] at hcreated ⊢
  exact h₁.convertBase henv hturn hnew htodo _ hcreated

end CallOk

/-- The record of a base that a pair speaks of. -/
theorem base (h : Rebasing env s₀ abs₀ news rest pending p F abs) {f : Fp} (hf : pending f) :
    ∃ n r, F.Has (.base, n) r ∧ r.fp = f ∧ p.server.db.queryBuffer f = some (env.encEntry r.entry) ∧
      abs f = some (r.content env) := by
  obtain ⟨c, hc, hflag⟩ := h.linked.whole f hf
  obtain ⟨d, n, r, hr, hfp, hidx, rfl⟩ := h.rep.found hc
  cases d with
  | base => exact ⟨n, r, hr, hfp, hidx, hc⟩
  | delta => exact absurd (hflag.symm.trans (h.rep.flag hr)) noDelta_ne_delta

theorem insertSF (h : Rebasing env s₀ abs₀ news rest pending p F abs) {f : Fp} {r : Record}
    (hc : abs f = some (r.content env)) (hf : pending f) (flag : InMemoryDatabase.UpdateFlag) :
    Rebasing env s₀ abs₀ news rest pending
      (p.mapDb fun db => db.insertSF r.entry.superfeature f flag) F abs :=
  h.mapDb rfl (h.linked.insertSF hc hf flag)

theorem greedyPair (henv : env.Lawful) (h : Rebasing env s₀ abs₀ news rest pending p F abs)
    {old new : Fp} (hpOld : pending old) (hpNew : pending new) (hp : ∀ f, pending' f → pending f)
    (hpold : ¬ pending' old) (hne : old ≠ new) :
    Rebasing env s₀ abs₀ news rest pending' (greedyPair env p (old, new)) F abs := by
  obtain ⟨nOld, rOld, hrOld, -, hidxOld, hcOld⟩ := h.base hpOld
  obtain ⟨nNew, rNew, hrNew, -, hidxNew, hcNew⟩ := h.base hpNew
  unfold OFFLineBackward.greedyPair
  dsimp only
  have h₁ := h.congr (@samePass_oneRecipe env p old)
  rw [oneRecipe_eq henv hidxOld]
  have h₂ := h₁.insertSF hcOld hpOld .remove
  have hunlisted := h₁.linked.not_InSF_removeSF hcOld
  generalize hp₂ : (oneRecipe env p old).2.mapDb
    (fun db => db.insertSF rOld.entry.superfeature old .remove) = p₂ at h₂ ⊢
  have hidx : p₂.server.db.queryBuffer new = some (env.encEntry rNew.entry) := by
    rw [← hp₂]
    exact hidxNew
  have hunlisted₂ : ¬ p₂.server.db.InSF old := by
    rw [← hp₂]
    exact hunlisted
  have h₃ := h₂.congr (@samePass_oneRecipe env p₂ new)
  rw [oneRecipe_eq henv hidx]
  refine ((h₃.insertSF hcNew hpNew .replace).queryDeltaIndex (fun hin => ?_) hp hpold).2
  rcases InSF_of_insertSF hin with hin | heq
  · exact hunlisted₂ hin
  · exact hne heq

/-- A pair that is due: `pending'` are the bases that are waited for behind it. -/
structure Due (env : Env) (s₀ : Server) (abs₀ : Fp → Option Content) (news : Fp → Prop)
    (rest : List (Fp × Fp)) (pending pending' : Fp → Prop) (p : Pass) (old new : Fp)
    (F : Containers) (abs : Fp → Option Content) : Prop where
  rebasing : Rebasing env s₀ abs₀ news rest pending p F abs
  waitsOld : pending old
  waitsNew : pending new
  sub : ∀ f, pending' f → pending f
  done : ¬ pending' old
  isNew : news new
  notNew : ¬ news old

namespace Due

variable {old new : Fp}

/-- Either the pair is not worked on, or it gets to the re-encoding. -/
theorem cases (henv : env.Lawful)
    (h : Due env s₀ abs₀ news rest pending pending' p old new F abs) :
    (rebaseCall env p (old, new) = none ∧
      OFFLineBackward.updatePair env p (old, new) = OFFLineBackward.greedyPair env p (old, new)) ∨
    ∃ k cOld cNew, rebaseCall env p (old, new) = some k ∧
      CallOk env s₀ abs₀ news rest (fun f => pending' f ∨ f = new) k old new F abs cOld cNew ∧
      k.pass.server.db.indexObj = p.server.db.indexObj := by
  have hne : old ≠ new := by
    rintro rfl
    exact h.notNew h.isNew
  unfold OFFLineBackward.updatePair rebaseCall
  split
  · exact Or.inl ⟨rfl, rfl⟩
  refine Or.inr ?_
  obtain ⟨nOld, rOld, hrOld, hfpOld, hidxOld, hcOld⟩ := h.rebasing.base h.waitsOld
  obtain ⟨nNew, rNew, hrNew, hfpNew, hidxNew, hcNew⟩ := h.rebasing.base h.waitsNew
  dsimp only
  rw [oneRecipe_eq henv hidxOld, (h.rebasing.rep.placed hrOld).1]
  -- the container of the old base
  have hsame₁ := (@samePass_oneRecipe env p old).trans (samePass_askFor _ nOld)
  obtain ⟨p₁, hp₁, hsame₁', hfoundOld⟩ := (h.rebasing.congr hsame₁).oneContainer hrOld
  rw [hp₁]
  dsimp only
  have h₁ := h.rebasing.congr (hsame₁.trans hsame₁')
  have hdb₁ := (hsame₁.trans hsame₁').db
  have h₂ := h₁.insertSF hcOld h.waitsOld .remove
  have hunlisted := h₁.linked.not_InSF_removeSF hcOld
  generalize hp₂ : p₁.mapDb
    (fun db => db.insertSF rOld.entry.superfeature old .remove) = p₂ at h₂ ⊢
  have hidx₂ : p₂.server.db.indexObj = p.server.db.indexObj := by
    rw [← hp₂, ← hdb₁]
    rfl
  have hquery₂ : p₂.server.db.queryBuffer = p.server.db.queryBuffer := by
    unfold InMemoryDatabase.queryBuffer
    rw [hidx₂]
  have hunlisted₂ : ¬ p₂.server.db.InSF old := by
    rw [← hp₂]
    exact hunlisted
  rw [oneRecipe_eq henv (by rw [hquery₂]; exact hidxNew), (h.rebasing.rep.placed hrNew).1]
  -- the container of the new base
  have hsame₃ := (@samePass_oneRecipe env p₂ new).trans (samePass_askFor _ nNew)
  obtain ⟨p₃, hp₃, hsame₃', hfoundNew⟩ := (h₂.congr hsame₃).oneContainer hrNew
  rw [hp₃]
  dsimp only
  have h₃ := h₂.congr (hsame₃.trans hsame₃')
  have hdb₃ := (hsame₃.trans hsame₃').db
  have hidx : (p₃.mapDb fun db => db.insertSF rNew.entry.superfeature new
      .replace).server.db.indexObj = p.server.db.indexObj := by
    rw [← hidx₂, ← hdb₃]
    rfl
  have hquery : (p₃.mapDb fun db => db.insertSF rNew.entry.superfeature new
      .replace).server.db.queryBuffer = p.server.db.queryBuffer := by
    unfold InMemoryDatabase.queryBuffer
    rw [hidx]
  refine ⟨_, rOld.content env, rNew.content env, rfl,
    (h₃.insertSF hcNew h.waitsNew .replace).callOk henv h.waitsOld h.waitsNew h.sub h.done h.isNew h.notNew
      (fun hin => ?_) hrOld hfpOld ?_ hfoundOld hrNew hfpNew ?_ hfoundNew, hidx⟩
  · rcases InSF_of_insertSF hin with hin | heq
    · rw [hdb₃] at hin
      exact hunlisted₂ hin
    · exact hne heq
  · show _ = some (env.encEntry rOld.entry)
    rw [hquery]
    exact (congrArg _ hfpOld).trans hidxOld
  · show _ = some (env.encEntry rNew.entry)
    rw [hquery]
    exact (congrArg _ hfpNew).trans hidxNew

/-- **A pair is worked through**: afterwards nobody speaks of the old base any
more. -/
theorem updatePair (henv : env.Lawful)
    (h : Due env s₀ abs₀ news rest pending pending' p old new F abs)
    (hcreated : (updatePair env p (old, new)).server.created ≤ 2 ^ 31) :
    ∃ F' abs', Rebasing env s₀ abs₀ news rest pending' (updatePair env p (old, new)) F' abs' := by
  rcases h.cases henv with ⟨-, hgreedy⟩ | ⟨k, cOld, cNew, hcall, hok, -⟩
  · rw [hgreedy]
    refine ⟨F, abs, h.rebasing.greedyPair henv h.waitsOld h.waitsNew h.sub h.done ?_⟩
    rintro rfl
    exact h.notNew h.isNew
  · rw [updatePair_of_call env hcall] at hcreated ⊢
    obtain ⟨F', abs', h'⟩ := hok.rebase henv h.isNew h.notNew hcreated
    exact ⟨F', abs', h'.weaken fun f hf => Or.inl hf⟩

end Due

end Rebasing

/-! ## All pairs -/

/-- The bases that the pairs speak of. -/
def InPairs (l : List (Fp × Fp)) (f : Fp) : Prop := ∃ q ∈ l, f = q.1 ∨ f = q.2

/-- No base is replaced twice, and no new base is replaced. -/
structure PairsOk (news : Fp → Prop) (l : List (Fp × Fp)) : Prop where
  nodup : (l.map Prod.fst).Nodup
  apart : ∀ q ∈ l, news q.2 ∧ ¬ news q.1

theorem InPairs.mono {l l' : List (Fp × Fp)} (h : l ⊆ l') {f : Fp} (hf : InPairs l f) : InPairs l' f := by
  obtain ⟨q, hq, hf⟩ := hf
  exact ⟨q, h hq, hf⟩

theorem PairsOk.perm {l l' : List (Fp × Fp)} (h : PairsOk news l) (hl : l.Perm l') : PairsOk news l' :=
  ⟨(hl.map _).nodup_iff.mp h.nodup, fun q hq => h.apart q (hl.mem_iff.mpr hq)⟩

/-- The first base is not spoken of by the other pairs. -/
theorem PairsOk.not_inPairs {q : Fp × Fp} {l : List (Fp × Fp)} (h : PairsOk news (q :: l)) :
    ¬ InPairs l q.1 := by
  rintro ⟨q', hq', heq | heq⟩
  · exact (List.nodup_cons.mp h.nodup).1 (List.mem_map.mpr ⟨q', hq', heq.symm⟩)
  · have := (h.apart q' (List.mem_cons_of_mem _ hq')).1
    rw [← heq] at this
    exact (h.apart q (List.mem_cons_self ..)).2 this

theorem PairsOk.tail {q : Fp × Fp} {l : List (Fp × Fp)} (h : PairsOk news (q :: l)) : PairsOk news l :=
  ⟨(List.nodup_cons.mp h.nodup).2, fun q' hq' => h.apart q' (List.mem_cons_of_mem _ hq')⟩

namespace Rebasing

open OFFLineBackward

/-- What a pair of the pass finds. -/
def Visited (env : Env) (s₀ : Server) (abs₀ : Fp → Option Content) (news : Fp → Prop)
    (v : Pass × (Fp × Fp)) : Prop :=
  ∃ rest pending pending' F abs, Due env s₀ abs₀ news rest pending pending' v.1 v.2.1 v.2.2 F abs ∧
    (OFFLineBackward.updatePair env v.1 v.2).server.created ≤ 2 ^ 31

/-- Pairs one after the other; those in `rest` are still to come. -/
theorem updatePairs (henv : env.Lawful) (l : List (Fp × Fp)) {p : Pass} {F : Containers}
    {abs : Fp → Option Content} (hok : PairsOk news (l ++ rest))
    (h : Rebasing env s₀ abs₀ news rest (InPairs (l ++ rest)) p F abs)
    (hcreated : (l.foldl (OFFLineBackward.updatePair env) p).server.created ≤ 2 ^ 31) :
    (∃ F' abs', Rebasing env s₀ abs₀ news rest (InPairs rest)
      (l.foldl (OFFLineBackward.updatePair env) p) F' abs') ∧
    ∀ v ∈ visits (OFFLineBackward.updatePair env) p l, Visited env s₀ abs₀ news v := by
  induction l generalizing p F abs with
  | nil => exact ⟨⟨F, abs, h⟩, fun v hv => by cases hv⟩
  | cons q l ih =>
      rw [List.cons_append] at hok h
      obtain ⟨hnew, hold⟩ := hok.apart q (List.mem_cons_self ..)
      have hdue : Due env s₀ abs₀ news rest (InPairs (q :: (l ++ rest))) (InPairs (l ++ rest)) p q.1 q.2
          F abs :=
        ⟨h, ⟨q, List.mem_cons_self .., Or.inl rfl⟩, ⟨q, List.mem_cons_self .., Or.inr rfl⟩,
          fun f hf => hf.mono (List.subset_cons_self q (l ++ rest)), hok.not_inPairs, hnew, hold⟩
      have hle := le_trans (created_updatePairs l _) hcreated
      obtain ⟨F₁, abs₁, h₁⟩ := hdue.updatePair henv hle
      obtain ⟨hend, hvisits⟩ := ih hok.tail h₁ hcreated
      refine ⟨hend, fun v hv => ?_⟩
      rcases List.mem_cons.mp hv with rfl | hv
      · exact ⟨_, _, _, F, abs, hdue, hle⟩
      · exact hvisits v hv

/-- Pairs are taken off the list. -/
theorem takeLocal (h : Rebasing env s₀ abs₀ news rest pending p F abs) (rest' : List (Fp × Fp)) :
    Rebasing env s₀ abs₀ news rest' pending (p.mapDb fun db => { db with localMap := rest' }) F abs := by
  obtain ⟨h1, h2, h3, ⟨h4, h5, h6⟩, h7, h8, h9, h10, -, h12, h13, h14, h15, h16⟩ := h
  exact ⟨h1, h2, h3, ⟨h4, h5, h6⟩, h7, h8.congr rfl rfl fun _ hf => hf, h9, h10, rfl, h12, h13, h14,
    h15.trans ⟨rfl, rfl, rfl⟩, h16⟩

/-- A batch is put into a map, which is walked in its order. -/
theorem walk_batch_perm {batch : List (Fp × Fp)} (hnd : (batch.map Prod.fst).Nodup) :
    (env.walkOrder.walk (pairs
      (batch.foldl (fun m q => m.insert q.1 q.2) (∅ : UMap Fp Fp)))).Perm batch := by
  have hmem : ∀ q, q ∈ pairs (batch.foldl (fun m q => m.insert q.1 q.2) (∅ : UMap Fp Fp)) ↔
      q ∈ batch := by
    rintro ⟨a, b⟩
    rw [mem_pairs, lookup_foldl_insert batch hnd (fun q _ hq => by cases hq)]
    simp
  refine (env.walkOrder.perm _).trans ?_
  refine (List.perm_ext_iff_of_nodup ?_ (List.Nodup.of_map _ hnd)).mpr hmem
  exact List.Nodup.of_map _ (pairs_nodup_fst _)

/-- The pairs of a batch are worked through. -/
theorem updateBatch (henv : env.Lawful) {batch : List (Fp × Fp)}
    (hok : PairsOk news (batch ++ rest))
    (h : Rebasing env s₀ abs₀ news rest (InPairs (batch ++ rest)) p F abs)
    (hcreated : (updateBatch env p batch).server.created ≤ 2 ^ 31) :
    (∃ F' abs', Rebasing env s₀ abs₀ news rest (InPairs rest) (OFFLineBackward.updateBatch env p batch)
      F' abs') ∧ ∀ v ∈ updateBatchVisits env p batch, Visited env s₀ abs₀ news v := by
  have hnd : (batch.map Prod.fst).Nodup := by
    have := hok.nodup
    rw [List.map_append] at this
    exact (List.nodup_append.mp this).1
  have hall := (@walk_batch_perm env batch hnd).append_right rest
  refine updatePairs henv _ (hok.perm hall.symm) (h.weaken ?_) hcreated
  exact fun f hf => hf.mono fun q hq => hall.mem_iff.mp hq

/-- **The log is worked through.** Afterwards no pair is left, and no base is
waited for. -/
theorem updateLocal (henv : env.Lawful) (fuel : Nat) {rest : List (Fp × Fp)} {p : Pass}
    {F : Containers} {abs : Fp → Option Content} (hok : PairsOk news rest)
    (h : Rebasing env s₀ abs₀ news rest (InPairs rest) p F abs) (hfuel : rest.length < fuel)
    (hcreated : (updateLocal env fuel p).server.created ≤ 2 ^ 31) :
    (∃ F' abs', Rebasing env s₀ abs₀ news [] (InPairs []) (OFFLineBackward.updateLocal env fuel p) F'
      abs') ∧ ∀ v ∈ updateLocalVisits env fuel p, Visited env s₀ abs₀ news v := by
  induction fuel generalizing rest p F abs with
  | zero => exact absurd hfuel (Nat.not_lt_zero _)
  | succ fuel ih =>
      rw [OFFLineBackward.updateLocal] at hcreated ⊢
      rw [updateLocalVisits]
      obtain ⟨rest', hdb, hperm⟩ := p.server.db.getLocal_perm
      have hnil := @InMemoryDatabase.getLocal_eq_nil_iff p.server.db
      rw [h.localMap] at hperm hnil
      generalize p.server.db.getLocal = got at hdb hperm hnil hcreated ⊢
      obtain ⟨batch, db⟩ := got
      dsimp only at hdb hperm hnil
      cases batch with
      | nil =>
          rw [hnil.mp rfl] at h
          exact ⟨⟨F, abs, h⟩, fun v hv => by cases hv⟩
      | cons q batch =>
          have hpairs : ∀ f, InPairs (q :: batch ++ rest') f → InPairs rest f := fun f hf =>
            hf.mono fun q' hq' => hperm.mem_iff.mpr hq'
          have h₁ := (h.takeLocal rest').weaken hpairs
          obtain ⟨⟨F₂, abs₂, h₂⟩, hvisits⟩ := h₁.updateBatch henv (hok.perm hperm) (by
            refine le_trans ?_ hcreated
            rw [hdb]
            exact created_updateLocal _ _)
          rw [hdb] at hcreated ⊢
          refine (ih ?_ h₂ ?_ hcreated).imp_right fun hlater v hv =>
            (List.mem_append.mp hv).elim (hvisits v) (hlater v)
          · have hnd := (hok.perm hperm).nodup
            rw [List.map_append] at hnd
            exact ⟨(List.nodup_append.mp hnd).2.1,
              fun q' hq' => hok.apart q' (hperm.mem_iff.mpr (List.mem_append_right _ hq'))⟩
          · have hlen := hperm.length_eq
            rw [List.length_append, List.length_cons] at hlen
            omega

end Rebasing

end ShieldReduce
