import ShieldReduce.Invariant.Pairs
import ShieldReduce.Invariant.Compaction
import ShieldReduce.System.Encryptions

/-!
# Offline sessions keep the books

A pass begins with the server at rest and a revised log
(`Rest.startPass`). Once the pairs are done, the hot container becomes a
file, or is dropped if nothing went into it, and the containers that
chunks were moved out of are put into the vector
(`Rebasing.compacting`). When they are compacted and small containers are
merged, the server is at rest again (`Compacting.rest`), with the same
chunks under the same fingerprints (`Rest.offline`).
-/

namespace ShieldReduce

open ByteLib UMapLib LoopLib TilingLib CatalogLib

variable {env : Env} {F : Containers} {abs : Fp → Option Content} {s₀ : Server}
  {abs₀ : Fp → Option Content} {p : Pass}

/-! ## The revised log -/

namespace InMemoryDatabase

/-- The log names the fingerprint as the last replacement of a base. -/
def LastOf (db : InMemoryDatabase) (v : Fp) : Prop := ∃ b, db.localTmpMap.lookup b = some v

variable {w : WalkOrder} {db : InMemoryDatabase}

theorem mem_localrevise (hmap : db.localMap = []) {q : Fp × Fp}
    (hq : q ∈ (db.localrevise w).localMap) : db.Replaces q.1 q.2 := by
  rcases mem_localMap_localrevise.mp hq with hold | hnew
  · rw [hmap] at hold
    cases hold
  · exact replaces_of_greedyBasemap hnew

theorem nodup_localrevise (hmap : db.localMap = []) :
    ((db.localrevise w).localMap.map Prod.fst).Nodup := by
  simp only [localrevise, hmap, List.nil_append]
  refine ((List.mergeSort_perm _ _).map _).nodup_iff.mpr ?_
  exact ((w.perm _).map _).nodup_iff.mpr (pairs_nodup_fst _)

end InMemoryDatabase

theorem LogOk.pairsOk {w : WalkOrder} {db : InMemoryDatabase} (h : LogOk db) (hmap : db.localMap = []) :
    PairsOk db.LastOf (db.localrevise w).localMap where
  nodup := db.nodup_localrevise hmap
  apart := by
    intro q hq
    rcases InMemoryDatabase.mem_localrevise hmap hq with hlast | ⟨b, hlast, hskip⟩
    · refine ⟨⟨q.1, hlast⟩, fun hnews => ?_⟩
      exact h.unlisted q.1 (Or.inl hnews) (h.keys q.1 q.2 hlast)
    · refine ⟨⟨b, hlast⟩, ?_⟩
      rintro ⟨b', hb'⟩
      exact h.apart b' q.1 b hb' hskip

/-- The bases that the pairs speak of are listed or logged. -/
theorem LogOk.listed_or_logged {w : WalkOrder} {db : InMemoryDatabase} (h : LogOk db)
    (hmap : db.localMap = []) {f : Fp} (hf : InPairs (db.localrevise w).localMap f) :
    db.InSF f ∨ db.Logged f := by
  obtain ⟨q, hq, hf⟩ := hf
  have hrep := InMemoryDatabase.mem_localrevise hmap hq
  rcases hf with rfl | rfl
  · rcases hrep with hlast | ⟨b, -, hskip⟩
    · exact Or.inl (h.keys q.1 q.2 hlast)
    · exact Or.inr (Or.inr ⟨b, hskip⟩)
  · rcases hrep with hlast | ⟨b, hlast, -⟩
    · exact Or.inr (Or.inl ⟨q.1, hlast⟩)
    · exact Or.inr (Or.inl ⟨b, hlast⟩)

theorem Ledger.linked_pairs {db : InMemoryDatabase} (h : Ledger env db abs) (w : WalkOrder) :
    Linked (db.localrevise w) abs (InPairs (db.localrevise w).localMap) where
  base := h.linked.base
  sf := h.linked.sf
  tracked := by
    intro b hb
    refine h.linked.tracked b ?_
    rcases hb with hb | hb
    · exact Or.inl hb
    · exact h.log.listed_or_logged h.idle.localMap hb
  whole := by
    intro b hb
    rcases h.log.listed_or_logged h.idle.localMap hb with hb | hb
    · exact h.linked.InSF_whole hb
    · exact h.linked.whole b hb
  keys := h.linked.keys

/-! ## The beginning of a pass -/

/-- The pairs that a pass works through. -/
def Server.revisedLog (env : Env) (s : Server) : List (Fp × Fp) :=
  (s.db.localrevise env.walkOrder).localMap

/-- The pass that `ProcessOff` begins. -/
def Pass.revised (env : Env) (s : Server) (m : PassResidue) : Pass :=
  .start { s with db := s.db.localrevise env.walkOrder } m

theorem processOff_eq (env : Env) (s : Server) (m : PassResidue) : processOff env s m =
    if env.offlineFlag then (OFFLineBackward.easyUpdate env (.revised env s m)).server
    else { s with
      created := s.created + 1
      db := (s.db.localrevise env.walkOrder).cleanLocalIndex } := rfl

theorem Rest.startPass {s : Server} (h : Rest env s F abs) (m : PassResidue)
    (hcreated : s.created < 2 ^ 31) :
    Rebasing env s abs s.db.LastOf (s.db.localrevise env.walkOrder).localMap
      (InPairs (s.db.localrevise env.walkOrder).localMap)
      (.revised env s m) (Function.update F (.delta, containerName s.created) (some [])) abs := by
  have hnone : ∀ d, F (d, containerName s.created) = none := h.stock.next_none hcreated
  have hstock := h.stock.fresh hcreated .delta
  have hidle := h.ledger.idle
  have hcold : getList s.db.coldMap = fun _ => [] := funext hidle.coldMap
  constructor
  · exact hstock.rep
  · show Cold env _ s.db.queryBuffer (getList s.db.coldMap)
    rw [hcold]
    exact hstock.live.cold
  · exact hstock.named
  · refine ⟨⟨[], Function.update_self .., rfl, fun r hr => (by cases hr)⟩, fun d n hn => ?_, ?_⟩
    · have hn' : (d, n) ≠ (.delta, containerName s.created) := hn
      rw [Function.update_of_ne hn']
      exact congrFun (congrFun h.view d) n
    · show s.view .delta (containerName s.created) = none
      rw [h.view, viewOf, hnone]
      rfl
  · exact h.ledger.contents
  · exact h.ledger.linked_pairs env.walkOrder
  · rfl
  · rfl
  · rfl
  · intro n hn
    have hn' : n ∈ s.db.coldContainerSet := hn
    rw [hidle.coldSet] at hn'
    cases hn'
  · intro n hn
    exact absurd (hidle.coldMap n) hn
  · exact hidle.coldVector
  · exact ⟨rfl, rfl, rfl⟩
  · exact .refl env abs

/-! ## The hot container -/

/-- The end of the pairs: the hot container becomes a file, if there is
something in it. -/
def Pass.saveHot (p : Pass) : Pass :=
  if p.hotContainer.body.length ≠ 0 then p.savehotContainer else p

theorem OFFLineBackward.easyUpdate_eq (env : Env) (p : Pass) : easyUpdate env p =
    mergeContainer env (updateCold env
      ((updateLocal env (p.server.db.localMap.length + 1) p).saveHot.mapDb
        InMemoryDatabase.coldrevise).server.db.coldContainerVector.length
      ((updateLocal env (p.server.db.localMap.length + 1) p).saveHot.mapDb
        InMemoryDatabase.coldrevise)) := rfl

namespace Rebasing

variable {news pending : Fp → Prop} {rest : List (Fp × Fp)}

/-- Afterwards the files are all containers. -/
theorem saveHot (h : Rebasing env s₀ abs₀ news rest pending p F abs) :
    ∃ F', Rep env F' p.server.db.queryBuffer abs ∧ (∀ q r, F'.Has q r ↔ F.Has q r) ∧
      (∀ q, F' q ≠ none → F q ≠ none) ∧ p.saveHot.server.view = viewOf F' := by
  obtain ⟨rs, hrs, hbody, -⟩ := h.shelf.hot
  unfold Pass.saveHot
  split
  · refine ⟨F, h.rep, fun _ _ => Iff.rfl, fun _ hq => hq, ?_⟩
    funext d n
    refine (view_saveToFile p.server .delta p.hotContainer.containerID p.hotContainer.body d n).trans ?_
    split
    · rename_i heq
      rw [heq.1, heq.2, viewOf, hrs, hbody]
      rfl
    · rename_i hne
      exact h.shelf.files d n fun heq => hne (Prod.mk.injEq .. |>.mp heq)
  · rename_i hempty
    have hnil : rs = [] := by
      have hlen := length_le_flat rs
      rw [← hbody] at hlen
      exact List.length_eq_zero_iff.mp (by omega)
    rw [hnil] at hrs
    refine ⟨Function.update F (.delta, p.hotContainer.containerID) none, h.rep.drop hrs,
      fun q r => has_drop hrs, fun q hq => ?_, ?_⟩
    · by_cases heq : q = (.delta, p.hotContainer.containerID)
      · rw [heq, hrs]
        simp
      · rwa [Function.update_of_ne heq] at hq
    · funext d n
      by_cases heq : (d, n) = (.delta, p.hotContainer.containerID)
      · obtain ⟨rfl, rfl⟩ := Prod.mk.injEq .. |>.mp heq
        rw [viewOf, Function.update_self, h.shelf.closed]
        rfl
      · rw [viewOf, Function.update_of_ne heq]
        exact h.shelf.files d n heq

end Rebasing

/-- What saving the hot container leaves alone. -/
theorem Pass.frame_saveHot (p : Pass) : p.saveHot.server.db = p.server.db ∧
    p.saveHot.server.created = p.server.created ∧ SameEnclave p.server p.saveHot.server := by
  unfold Pass.saveHot
  split
  · exact ⟨rfl, rfl, ⟨rfl, rfl, rfl⟩⟩
  · exact ⟨rfl, rfl, .refl _⟩

/-- The containers that chunks were moved out of are put into the vector. -/
theorem Rebasing.compacting {news : Fp → Prop}
    (h : Rebasing env s₀ abs₀ news [] (InPairs []) p F abs) :
    ∃ F', Compacting env s₀ abs₀ (p.saveHot.mapDb InMemoryDatabase.coldrevise).server.db.coldContainerVector
      (p.saveHot.mapDb InMemoryDatabase.coldrevise) F' abs := by
  obtain ⟨F', hrep, hhas, hsub, hview⟩ := h.saveHot
  obtain ⟨hdb, hcreated, henclave⟩ := p.frame_saveHot
  have hdb' : (p.saveHot.mapDb InMemoryDatabase.coldrevise).server.db = p.server.db.coldrevise := by
    show p.saveHot.server.db.coldrevise = _
    rw [hdb]
  have hleft : ∀ n, n ∈ p.server.db.coldrevise.coldContainerVector ↔
      n ∈ p.server.db.coldContainerSet := by
    intro n
    simp only [InMemoryDatabase.coldrevise, h.coldVector, List.nil_append, List.mem_mergeSort]
  refine ⟨F', ?_⟩
  constructor
  · rw [hdb']
    exact hrep
  · rw [hdb']
    exact h.cold.congr hhas
  · intro d n hn
    show Named p.saveHot.server.created n
    rw [hcreated]
    exact h.named (hsub _ hn)
  · exact hview
  · exact h.contents
  · rw [hdb']
    exact h.linked.congr rfl rfl fun f hf => hf.elim
  · rw [hdb']
    exact h.localTmpMap
  · rw [hdb']
    exact h.skipMap
  · rw [hdb']
    exact h.localMap
  · rfl
  · intro n hn
    rw [hdb', hleft] at hn
    obtain ⟨d, r, hr⟩ := h.coldSet n hn
    obtain ⟨rs, hrs, -⟩ := (hhas _ _).mpr hr
    exact ⟨d, by rw [hrs]; simp⟩
  · intro n hn
    rw [hdb'] at hn ⊢
    exact (hleft n).mpr (h.coldListed n hn)
  · rw [hdb']
    rfl
  · exact h.enclave.trans (henclave.trans ⟨rfl, rfl, rfl⟩)
  · exact h.chunks

/-! ## The end of a pass -/

/-- An empty log names nothing. -/
theorem InMemoryDatabase.not_logged_of_empty {db : InMemoryDatabase} (htmp : db.localTmpMap = ∅)
    (hskip : db.skipMap = ∅) (v : Fp) : ¬ db.Logged v := by
  rintro (⟨b, hb⟩ | ⟨b, hb⟩)
  · rw [htmp] at hb
    cases hb
  · rw [hskip] at hb
    cases hb

theorem logOk_of_empty {db : InMemoryDatabase} (htmp : db.localTmpMap = ∅) (hskip : db.skipMap = ∅) :
    LogOk db := by
  have hnone : ∀ b v, db.localTmpMap.lookup b ≠ some v := by
    intro b v hb
    rw [htmp] at hb
    cases hb
  exact ⟨fun b v hb => absurd hb (hnone b v),
    fun v hv => absurd hv (db.not_logged_of_empty htmp hskip v),
    fun b b' v hb => absurd hb (hnone b v), fun b v b' hb => absurd hb (hnone b v)⟩

/-- A ledger whose log is empty. -/
theorem Ledger.of_linked {db : InMemoryDatabase} {pending : Fp → Prop}
    (hcontents : ∀ f c, abs f = some c → c.Ok env f) (hlinked : Linked db abs pending)
    (htmp : db.localTmpMap = ∅) (hskip : db.skipMap = ∅) (hidle : db.Idle) : Ledger env db abs where
  contents := hcontents
  linked := hlinked.congr rfl rfl fun f hf => absurd hf (db.not_logged_of_empty htmp hskip f)
  log := logOk_of_empty htmp hskip
  idle := hidle

/-- The heap knows no more than before. -/
theorem HeapKnown.congr {s s' : Server} {abs' : Fp → Option Content} (h : HeapKnown env s abs)
    (hs : SameEnclave s s') (hkeys : ∀ f, (abs' f).isSome = (abs f).isSome) : HeapKnown env s' abs' := by
  intro k hk
  rw [hs.heap] at hk
  rw [hkeys]
  exact h k hk

theorem Compacting.rest (h : Compacting env s₀ abs₀ [] p F abs) (hheap : HeapKnown env s₀ abs₀) :
    Rest env p.server F abs where
  stock := ⟨h.rep, h.allLive, h.named⟩
  view := h.view
  ledger := .of_linked h.contents h.linked h.localTmpMap h.skipMap
    { localMap := h.localMap
      coldMap := fun n => by
        by_contra hne
        cases h.listed n hne
      coldVector := h.vector
      coldSet := h.coldSet }
  heap := hheap.congr h.enclave h.chunks.keys

/-! ## The whole pass -/

namespace OFFLineBackward

theorem created_updateCold (fuel : Nat) (p : Pass) :
    (updateCold env fuel p).server.created = p.server.created := by
  induction fuel generalizing p with
  | zero => rfl
  | succ fuel ih =>
      rw [updateCold]
      split
      · rfl
      · refine (ih _).trans ?_
        unfold updateColdContainer Pass.oneColdContainer
        dsimp only
        split
        · rfl
        · split <;> rfl

theorem created_mergeContainer (p : Pass) :
    (mergeContainer env p).server.created = p.server.created := by
  unfold mergeContainer
  refine foldl_inv (I := fun q : Pass => q.server.created = p.server.created) ?_ _ p rfl
  exact fun q pair h => h

/-- Only the pairs open new containers. -/
theorem created_easyUpdate (p : Pass) : (easyUpdate env p).server.created =
    (updateLocal env (p.server.db.localMap.length + 1) p).server.created := by
  rw [easyUpdate_eq, created_mergeContainer, created_updateCold]
  exact (Pass.frame_saveHot _).2.1

theorem created_easyUpdate_revised (env : Env) (s : Server) (m : PassResidue) :
    s.created < (easyUpdate env (.revised env s m)).server.created := by
  have hstart : s.created < (Pass.revised env s m).server.created := Nat.lt_succ_self _
  rw [created_easyUpdate]
  exact lt_of_lt_of_le hstart (created_updateLocal _ _)

end OFFLineBackward

theorem created_processOff (env : Env) (s : Server) (m : PassResidue) :
    s.created ≤ (processOff env s m).created := by
  rw [processOff_eq]
  split
  · exact le_of_lt (OFFLineBackward.created_easyUpdate_revised env s m)
  · exact Nat.le_succ _

/-- The compaction and the merging, once the pairs are done. -/
theorem Rebasing.finish (henv : env.Lawful) {news : Fp → Prop}
    (h : Rebasing env s₀ abs₀ news [] (InPairs []) p F abs) (hheap : HeapKnown env s₀ abs₀) :
    ∃ F', Rest env (OFFLineBackward.mergeContainer env (OFFLineBackward.updateCold env
        (p.saveHot.mapDb InMemoryDatabase.coldrevise).server.db.coldContainerVector.length
        (p.saveHot.mapDb InMemoryDatabase.coldrevise))).server F' abs ∧
      SameEnclave s₀ (OFFLineBackward.mergeContainer env (OFFLineBackward.updateCold env
        (p.saveHot.mapDb InMemoryDatabase.coldrevise).server.db.coldContainerVector.length
        (p.saveHot.mapDb InMemoryDatabase.coldrevise))).server := by
  -- the containers that chunks were moved out of
  obtain ⟨F₂, h₂⟩ := h.compacting
  obtain ⟨F₃, h₃⟩ := h₂.updateCold henv _ (le_refl _)
  -- small containers
  obtain ⟨F₄, h₄⟩ := h₃.mergeContainer henv
  exact ⟨F₄, h₄.rest hheap, h₄.enclave⟩

/-- The pairs of a pass from the server at rest. -/
theorem Rest.updateLocal (henv : env.Lawful) {s : Server} (h : Rest env s F abs) (m : PassResidue)
    (hcreated : (OFFLineBackward.easyUpdate env (.revised env s m)).server.created ≤ 2 ^ 31) :
    (∃ F' abs', Rebasing env s abs s.db.LastOf [] (InPairs []) (OFFLineBackward.updateLocal env
        ((Pass.revised env s m).server.db.localMap.length + 1) (.revised env s m)) F' abs') ∧
      ∀ v ∈ OFFLineBackward.updateLocalVisits env
        ((Pass.revised env s m).server.db.localMap.length + 1) (.revised env s m),
        Rebasing.Visited env s abs s.db.LastOf v := by
  have hlt := lt_of_lt_of_le (OFFLineBackward.created_easyUpdate_revised env s m) hcreated
  rw [OFFLineBackward.created_easyUpdate] at hcreated
  exact (h.startPass m hlt).updateLocal henv _ (h.ledger.log.pairsOk h.ledger.idle.localMap)
    (Nat.lt_succ_self _) hcreated

/-- `Easy_update` from the server at rest. -/
theorem Rest.easyUpdate (henv : env.Lawful) {s : Server} (h : Rest env s F abs) (m : PassResidue)
    (hcreated : (OFFLineBackward.easyUpdate env (.revised env s m)).server.created ≤ 2 ^ 31) :
    ∃ F' abs', Rest env (OFFLineBackward.easyUpdate env (.revised env s m)).server F' abs' ∧
      SameEnclave s (OFFLineBackward.easyUpdate env (.revised env s m)).server ∧
      SameChunks env abs abs' := by
  obtain ⟨⟨F₁, abs₁, h₁⟩, -⟩ := h.updateLocal henv m hcreated
  obtain ⟨F₂, hrest, henclave⟩ := h₁.finish henv h.heap
  rw [OFFLineBackward.easyUpdate_eq]
  exact ⟨F₂, abs₁, hrest, henclave, h₁.chunks⟩

/-- The pass is switched off: the log is dropped. -/
theorem Rest.cleanLocalIndex {s : Server} (h : Rest env s F abs) :
    Rest env { s with
      created := s.created + 1
      db := (s.db.localrevise env.walkOrder).cleanLocalIndex } F abs where
  stock := h.stock.mono (Nat.le_succ _)
  view := h.view
  ledger := .of_linked h.ledger.contents
    ((h.ledger.linked_pairs env.walkOrder).congr rfl rfl fun _ hf => hf) rfl rfl
    ⟨rfl, h.ledger.idle.coldMap, h.ledger.idle.coldVector, h.ledger.idle.coldSet⟩
  heap := h.heap

/-- **An offline pass** keeps the invariants of the server and every chunk. -/
theorem Rest.processOff (henv : env.Lawful) {s : Server} (h : Rest env s F abs) (m : PassResidue)
    (hcreated : (ShieldReduce.processOff env s m).created ≤ 2 ^ 31) :
    ∃ F' abs', Rest env (ShieldReduce.processOff env s m) F' abs' ∧
      SameEnclave s (ShieldReduce.processOff env s m) ∧ SameChunks env abs abs' := by
  rw [processOff_eq] at hcreated ⊢
  split
  · rename_i hon
    rw [if_pos hon] at hcreated
    exact h.easyUpdate henv m hcreated
  · exact ⟨F, abs, h.cleanLocalIndex, ⟨rfl, rfl, rfl⟩, .refl env abs⟩

/-! ## Runs -/

theorem created_serve (henv : env.Lawful) (s : Server) (e : Event) :
    s.created ≤ (s.serve env e).created := by
  cases e with
  | upload u => exact created_upload henv s u
  | offline u m => exact le_trans (created_upload henv s u) (created_processOff env _ m)

theorem created_run (henv : env.Lawful) : ∀ (es : List Event) (s : Server),
    s.created ≤ (s.run env es).created
  | [], _ => le_refl _
  | e :: es, s => le_trans (created_serve henv s e) (created_run henv es (s.serve env e))

theorem Server.Reached.rest (henv : env.Lawful) {m : Residue} {s : Server} (hs : s.Reached env m)
    (hcounts : s.Counts) : ∃ F abs, Rest env s F abs := by
  induction hs with
  | boot => exact ⟨_, _, .boot env m⟩
  | @upload s u _ ih =>
      obtain ⟨F, abs, h⟩ := ih (le_trans (created_upload henv s u) hcounts)
      obtain ⟨F', abs', h', -, -⟩ := h.upload (P := fun _ => True) henv u (fun _ _ => trivial) hcounts
      exact ⟨F', abs', h'⟩
  | @pass s r _ ih =>
      obtain ⟨F, abs, h⟩ := ih (le_trans (created_processOff env s r) hcounts)
      obtain ⟨F', abs', h', -, -⟩ := h.processOff henv r hcounts
      exact ⟨F', abs', h'⟩
  | @info s _ ih =>
      obtain ⟨F, abs, h⟩ := ih hcounts
      exact ⟨F, abs, h.updateOnlineInfo⟩

end ShieldReduce
