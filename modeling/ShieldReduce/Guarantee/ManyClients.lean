import ShieldReduce.System.Calls
import ShieldReduce.Invariant.Reserved

/-!
# Deduplication between clients

As long as no client asks for a fingerprint that another one has reserved,
and no container ID is drawn twice, every fingerprint gets one record and
the index leads to it, in every interleaving. The heap of frequent chunks
knows reserved fingerprints too and does no harm.

Two clients that ask for the same new fingerprint both store it, and one
of the two records is left behind.
-/

namespace ShieldReduce

open ByteLib UMapLib CatalogLib StepLib EcallFreqIndex

variable {env : Env}

section Runs

variable [names : ContainerNames]

/-! ## Every step keeps the records -/

/-- What holds in every state: the records that `idx` leads to are those of the
index and those that are reserved. -/
structure Clients.Sound (env : Env) (t : Clients) (F : Containers) (idx : Fp → Option Cipher)
    (abs : Fp → Option Content) : Prop where
  stock : Stock env F idx abs t.server.created
  benches : Benches t.server.view (benchOf t.clients) F
  reserved : Reserved env t.server.db.queryBuffer idx t.server.insideDedupIndex t.hashes t.batch
  /-- Who is not there does nothing. -/
  away : ∀ i, t.clients i = none → t.batch i = .idle

variable {idx : Fp → Option Cipher}

/-- What the client will ask the index for. -/
def BatchAt.asking : BatchAt → List Fp
  | .checked _ entries => asked entries
  | _ => []

/-- No client asks for a fingerprint that another client has reserved. -/
def Clients.Unreserved (t : Clients) : ClientAction → Prop
  | .batch i .query => ∀ f ∈ (t.batch i).asking, ∀ j ≠ i, f ∉ (t.batch j).reserved
  | _ => True

namespace Clients.Sound

variable {t : Clients} {F : Containers} {abs : Fp → Option Content}

theorem housed (h : t.Sound env F idx abs) {i : Nat} {c : Client} (hc : t.clients i = some c) :
    Housed env t.clients i ⟨t.server, c⟩ F idx abs := by
  refine ⟨h.stock, ?_⟩
  rw [← hc, Function.update_eq_self]
  exact h.benches

/-- Who moves is there. -/
theorem away_update (h : t.Sound env F idx abs) (i : Nat) (c : Client) (a : BatchAt) (j : Nat)
    (hj : Function.update t.clients i (some c) j = none) : Function.update t.batch i a j = .idle := by
  by_cases hji : j = i
  · rw [hji, Function.update_self] at hj
    cases hj
  · rw [Function.update_of_ne hji] at hj ⊢
    exact h.away j hj

/-- A round of the store loop. -/
theorem store (henv : env.Lawful) (h : t.Sound env F idx abs) {i : Nat} {c : Client}
    (hc : t.clients i = some c) {recvBuffer : Bytes} {localFlag : Bool} {es todo : List InQueryEntry}
    {basemap process : List (Fp × Fp)} {e : InQueryEntry}
    (hat : t.batch i = .storing recvBuffer localFlag es basemap process (e :: todo))
    (hcreated : (storeEntry env recvBuffer localFlag ⟨⟨t.server, c⟩, es, basemap, process⟩
      e).session.server.created ≤ names.distinct) :
    ∃ F' idx' abs', Sound env
      { server := (storeEntry env recvBuffer localFlag
          ⟨⟨t.server, c⟩, es, basemap, process⟩ e).session.server
        clients := Function.update t.clients i (some (storeEntry env recvBuffer localFlag
          ⟨⟨t.server, c⟩, es, basemap, process⟩ e).session.client)
        batch := Function.update t.batch i (.storing recvBuffer localFlag
          (storeEntry env recvBuffer localFlag ⟨⟨t.server, c⟩, es, basemap, process⟩ e).entries
          (storeEntry env recvBuffer localFlag ⟨⟨t.server, c⟩, es, basemap, process⟩ e).batchBasemap
          (storeEntry env recvBuffer localFlag ⟨⟨t.server, c⟩, es, basemap, process⟩ e).processBuffer
          todo)
        hashes := t.hashes } F' idx' abs' := by
  have hown := h.reserved.ok i
  rw [hat] at hown
  obtain ⟨⟨chunk, hchunk⟩, hanswered, hloaded⟩ := hown.form e (List.mem_cons_self ..)
  have hrecipe : ∀ (s : Session), SameShelves s (s.updateFileRecipe env e.chunkHash) := fun s =>
    ⟨by rw [server_updateFileRecipe], by rw [server_updateFileRecipe], cur_updateFileRecipe env s _⟩
  have hdb : ∀ (s : Session), (s.updateFileRecipe env e.chunkHash).server = s.server :=
    fun s => server_updateFileRecipe env s _
  -- a round that stores nothing changes the session by the recipe only
  have hskip : ∀ e' : InQueryEntry, e'.chunkHash = e.chunkHash → uniques [e] = [] → uniques [e'] = [] →
      ∃ F' idx' abs', Sound env
        { server := ((⟨t.server, c⟩ : Session).updateFileRecipe env e.chunkHash).server
          clients := Function.update t.clients i
            (some ((⟨t.server, c⟩ : Session).updateFileRecipe env e.chunkHash).client)
          batch := Function.update t.batch i
            (.storing recvBuffer localFlag (es ++ [e']) basemap process todo)
          hashes := t.hashes } F' idx' abs' := by
    intro e' hhash hold hnew
    have hhoused := (h.housed hc).congr (hrecipe _)
    refine ⟨F, idx, abs, hhoused.stock, hhoused.benches, ?_, h.away_update i _ _⟩
    rw [hdb]
    exact h.reserved.skip hat hhash hold hnew
  unfold storeEntry at hcreated ⊢
  dsimp only at hcreated ⊢
  cases ho : e.out with
  | none =>
      have hnone : uniques [e] = [] := by simp [uniques, ho]
      exact hskip e rfl hnone hnone
  | some o =>
      rw [ho] at hcreated
      dsimp only at hcreated ⊢
      by_cases hdup : o.dedupFlag = .duplicate
      · rw [if_pos hdup]
        refine hskip _ rfl ?_ ?_ <;> simp [uniques, ho, hdup]
      · rw [if_neg hdup] at hcreated ⊢
        have hunique : o.dedupFlag = .unique := (hanswered o ho).resolve_left hdup
        have hold : uniques [e] = [o] := by simp [uniques, ho, hunique]
        have hstores := @stores_storeUnique env _ recvBuffer localFlag
          ⟨⟨t.server, c⟩, es, basemap, process⟩ e o (hloaded o ho hunique)
        generalize storeUnique env recvBuffer localFlag ⟨⟨t.server, c⟩, es, basemap, process⟩ e o = st
          at hstores hcreated ⊢
        rw [hdb] at hcreated
        have htodo : idx o.chunkHash = none := hown.todo o (by
          rw [BatchAt.todo, ← List.singleton_append, uniques_append, hold]
          exact List.mem_append_left _ (List.mem_singleton_self _))
        obtain ⟨F', abs', v, hhoused, hcarried, e', o', hentries, hhash, hout, hflag, hochunk, haddr⟩ :=
          Housed.stores henv (h.housed hc) hstores chunk hchunk htodo hcreated
        have hnext := hhoused.congr (hrecipe _)
        refine ⟨F', _, abs', hnext.stock, hnext.benches, ?_, h.away_update i _ _⟩
        rw [hdb, hcarried.db, hcarried.heap, hentries, ← haddr]
        refine h.reserved.store hat hhash hold ?_ hochunk
        simp [uniques, hout, hflag, hunique]

/-- A step that stores nothing. -/
theorem lookup (h : t.Sound env F idx abs) {i : Nat} {c : Client} (hc : t.clients i = some c)
    {s : Server} {a : BatchAt} {hashes' : List Fp} (hview : s.view = t.server.view)
    (hcreated : s.created = t.server.created)
    (hreserved : Reserved env s.db.queryBuffer idx s.insideDedupIndex hashes'
      (Function.update t.batch i a)) :
    Sound env { server := s, clients := Function.update t.clients i (some c)
                batch := Function.update t.batch i a, hashes := hashes' } F idx abs := by
  have hsame : SameShelves ⟨t.server, c⟩ ⟨s, c⟩ := ⟨hview, hcreated, rfl⟩
  have hhoused := (h.housed hc).congr hsame
  exact ⟨hhoused.stock, hhoused.benches, hreserved, h.away_update i _ _⟩

/-- A step of a batch. -/
theorem batchStep (henv : env.Lawful) (h : t.Sound env F idx abs) {i : Nat} {c : Client}
    (hc : t.clients i = some c) {x : BatchStep} (hfree : t.Unreserved (.batch i x))
    {p : Session × BatchAt}
    (hstep : EcallFreqIndex.batchStep env (⟨t.server, c⟩, t.batch i) x = some p)
    (hcreated : p.1.server.created ≤ names.distinct) :
    ∃ F' idx' abs', Sound env
      { server := p.1.server, clients := Function.update t.clients i (some p.1.client)
        batch := Function.update t.batch i p.2, hashes := t.hashes ++ x.hashes env }
      F' idx' abs' := by
  cases hat : t.batch i with
  | idle =>
      rw [hat] at hstep
      cases x with
      | receive b =>
          obtain ⟨sketch, recvBuffer, es, heq, hhashes, hes⟩ :=
            countBatch_spec henv ⟨t.server, c⟩ b
          obtain rfl : countBatch env ⟨t.server, c⟩ b = p := Option.some.inj hstep
          rw [heq]
          exact ⟨F, idx, abs, h.lookup hc rfl rfl (h.reserved.receive hat hes hhashes)⟩
      | _ => cases hstep
  | counted recvBuffer es =>
      rw [hat] at hstep
      cases x <;> cases hstep
      rw [show BatchStep.check.hashes env = [] from rfl, List.append_nil]
      exact ⟨F, idx, abs, h.lookup hc rfl rfl (h.reserved.check henv hat)⟩
  | checked recvBuffer es =>
      rw [hat] at hstep
      cases x <;> cases hstep
      rw [show BatchStep.query.hashes env = [] from rfl, List.append_nil]
      rw [Clients.Unreserved, hat] at hfree
      exact ⟨F, idx, abs, h.lookup hc rfl rfl (h.reserved.query hat hfree)⟩
  | queried recvBuffer es =>
      rw [hat] at hstep
      cases x <;> cases hstep
      rw [show BatchStep.load.hashes env = [] from rfl, List.append_nil]
      exact ⟨F, idx, abs, h.lookup hc rfl rfl (h.reserved.load hat _)⟩
  | storing recvBuffer localFlag es basemap process todo =>
      rw [hat] at hstep
      cases todo with
      | nil =>
          cases x <;> cases hstep
          rw [show BatchStep.log.hashes env = [] from rfl, List.append_nil]
          refine ⟨F, idx, abs, h.lookup hc rfl rfl ?_⟩
          have hindex := queryBuffer_insertPairs localFlag t.server.db basemap process
          have hlogged := h.reserved.log hat
          rw [← hindex] at hlogged
          exact hlogged
      | cons e todo =>
          cases x <;> cases hstep
          rw [show BatchStep.store.hashes env = [] from rfl, List.append_nil]
          exact h.store henv hc hat hcreated
  | logged es =>
      rw [hat] at hstep
      cases x <;> cases hstep
      rw [show BatchStep.heap.hashes env = [] from rfl, List.append_nil]
      exact ⟨F, idx, abs, h.lookup hc rfl rfl (h.reserved.heaps hat)⟩
  | heaped es =>
      rw [hat] at hstep
      cases x <;> cases hstep
      rw [show BatchStep.update.hashes env = [] from rfl, List.append_nil]
      exact ⟨F, idx, abs, h.lookup hc rfl rfl (h.reserved.update hat)⟩

/-- Every step, as long as no client asks for what another has reserved. -/
theorem step (henv : env.Lawful) (h : t.Sound env F idx abs) {a : ClientAction}
    (hfree : t.Unreserved a) {t' : Clients} (hstep : t.step env a = some t')
    (hcreated : t'.server.created ≤ names.distinct) : ∃ F' idx' abs', t'.Sound env F' idx' abs' := by
  cases a with
  | login i l =>
      simp only [Clients.step] at hstep
      split at hstep
      · rename_i hnone
        cases hstep
        obtain ⟨F', hhoused⟩ := Housed.login h.stock h.benches hnone l hcreated
        refine ⟨F', idx, abs, hhoused.stock, hhoused.benches, h.reserved, fun j hj => h.away j ?_⟩
        have hj' : Function.update t.clients i (some (Session.start t.server l).client) j = none := hj
        by_cases hji : j = i
        · rw [hji, hnone]
        · rwa [Function.update_of_ne hji] at hj'
      · cases hstep
  | batch i x =>
      simp only [Clients.step] at hstep
      split at hstep
      · rename_i c hc
        obtain ⟨p, hp, rfl⟩ := Option.map_eq_some_iff.mp hstep
        exact h.batchStep henv hc hfree hp hcreated
      · cases hstep
  | finish i head =>
      simp only [Clients.step] at hstep
      split at hstep
      · rename_i c hc hidle
        obtain rfl := Option.some.inj hstep
        obtain ⟨F', hstock, hbenches⟩ := (h.housed hc).finish head
        obtain ⟨-, -, hdb, hheap⟩ := Housed.ended env ⟨t.server, c⟩ head
        have hreserved := h.reserved
        rw [← hdb, ← hheap] at hreserved
        generalize Clients.endSession env ⟨t.server, c⟩ head = s at hstock hbenches hreserved
        refine ⟨F', idx, abs, hstock, hbenches, hreserved, fun j hj => ?_⟩
        have hj' : Function.update t.clients i none j = none := hj
        by_cases hji : j = i
        · rw [hji]
          exact hidle
        · rw [Function.update_of_ne hji] at hj'
          exact h.away j hj'
      · cases hstep

end Clients.Sound

/-! ## Container IDs -/

theorem created_round (recvBuffer : Bytes) (localFlag : Bool) (st : Storing) (e : InQueryEntry) :
    st.session.server.created ≤
      (storeEntry env recvBuffer localFlag st e).session.server.created := by
  unfold storeEntry
  dsimp only
  rw [server_updateFileRecipe]
  cases e.out with
  | none => exact le_refl _
  | some o =>
      dsimp only
      split
      · exact le_refl _
      · rw [(storeUnique_call env recvBuffer localFlag st e o).1]
        have hcall : (uniqueCall env recvBuffer localFlag st e o).session.server.created =
            st.session.server.created := by
          obtain ⟨b, c, calls, table, hsession⟩ :=
            session_uniqueCall env recvBuffer localFlag st e o
          rw [hsession]
        rw [← hcall]
        exact (carried_processSheUniqueChunk ..).1.created

namespace Clients

theorem created_batchStep {s : Session} {a : BatchAt} {x : BatchStep} {p : Session × BatchAt}
    (h : batchStep env (s, a) x = some p) : s.server.created ≤ p.1.server.created := by
  cases a with
  | storing recvBuffer localFlag es basemap process todo =>
      cases todo with
      | nil =>
          cases x <;> cases h
          exact le_refl _
      | cons e todo =>
          cases x <;> cases h
          exact created_round recvBuffer localFlag ⟨s, es, basemap, process⟩ e
  | _ =>
      cases x <;> cases h
      exact le_refl _

theorem created_step {t t' : Clients} {a : ClientAction} (hstep : t.step env a = some t') :
    t.server.created ≤ t'.server.created := by
  cases a with
  | login i l =>
      simp only [step] at hstep
      split at hstep
      · obtain rfl := Option.some.inj hstep
        exact Nat.le_add_right _ 2
      · cases hstep
  | batch i x =>
      simp only [step] at hstep
      split at hstep
      · obtain ⟨p, hp, rfl⟩ := Option.map_eq_some_iff.mp hstep
        exact created_batchStep hp
      · cases hstep
  | finish i head =>
      simp only [step] at hstep
      split at hstep
      · rename_i c hc hidle
        obtain rfl := Option.some.inj hstep
        have hcreated := created_close ((⟨t.server, c⟩ : Session).receive env (.recipeEnd head))
        rw [server_recipeEnd, ← (Housed.ended env ⟨t.server, c⟩ head).2.1] at hcreated
        exact hcreated
      · cases hstep

/-! ## One record for each fingerprint -/

theorem sound_boot (env : Env) (m : Residue) :
    (boot env m).Sound env (fun _ => none) (fun _ => none) (fun _ => none) where
  stock := stock_boot env 0
  benches :=
    { opened := fun hc => by cases hc
      closed := fun hc => by cases hc
      files := fun _ => rfl
      apart := fun hc => by cases hc }
  reserved :=
    { sound := fun f v hf => by cases hf
      owned := fun f v hf => by cases hf
      apart := fun i j f hf => by cases hf
      ok := fun i => ⟨trivial, List.nodup_nil, fun f hf => (by cases hf), fun o ho => (by cases ho),
        fun o ho => (by cases ho), fun e he => (by cases he)⟩
      frequent := fun k hk => by cases hk
      received := fun k hk => by cases hk }
  away := fun _ _ => rfl

/-- The container files, as records. -/
structure Filed (s : Server) (F : Containers) : Prop where
  view : s.view = viewOf F
  holds : ∀ {d n rs}, F (d, n) = some rs → Holds n (records.flat rs) rs

/-- The fingerprint has exactly one record in the files, and the index leads to
it. -/
def OneRecord (env : Env) (s : Server) (F : Containers) (f : Fp) : Prop :=
  ∃ p r, F.Has p r ∧ r.fp = f ∧ s.db.queryBuffer f = some (env.encEntry r.entry) ∧
    ∀ p' r', F.Has p' r' → r'.fp = f → p' = p ∧ r' = r

/-- Every fingerprint that was received, that the index knows or that has a
record, has one. -/
def Deduplicated (env : Env) (t : Clients) : Prop :=
  ∃ F, Filed t.server F ∧ ∀ f, (f ∈ t.hashes.map env.indexAESCMCEnc ∨
    (t.server.db.queryBuffer f).isSome ∨ ∃ p r, F.Has p r ∧ r.fp = f) → OneRecord env t.server F f

/-- Once all sessions are over. -/
theorem Sound.deduplicated (henv : env.Lawful) {t : Clients} {F : Containers}
    {idx : Fp → Option Cipher} {abs : Fp → Option Content} (h : t.Sound env F idx abs)
    (hdone : ∀ i, t.clients i = none) : t.Deduplicated env := by
  have hidle : ∀ i, t.batch i = .idle := fun i => h.away i (hdone i)
  have hclaimed : ∀ f, Claimed t.server.db.queryBuffer t.batch f →
      (t.server.db.queryBuffer f).isSome := by
    rintro f (hf | ⟨i, hi⟩)
    · exact hf
    · rw [hidle i] at hi
      cases hi
  have hidx : idx = t.server.db.queryBuffer := by
    funext f
    cases hf : t.server.db.queryBuffer f with
    | some v => exact h.reserved.sound f v hf
    | none => exact h.reserved.unstored hf fun i hi => by rw [hidle i] at hi; cases hi
  subst hidx
  refine ⟨F, ⟨?_, h.stock.rep.holds⟩, fun f hf => ?_⟩
  · funext d n
    refine h.benches.files fun i c hc => ?_
    rw [benchOf, hdone i] at hc
    cases hc
  · have hsome : (t.server.db.queryBuffer f).isSome := by
      rcases hf with hf | hf | ⟨p, r, hr, rfl⟩
      · obtain ⟨k, hk, rfl⟩ := List.mem_map.mp hf
        rcases h.reserved.received k hk with hc | ⟨i, hi⟩
        · exact hclaimed _ hc
        · rw [hidle i] at hi
          cases hi
      · exact hf
      · have hlive : t.server.db.queryBuffer r.fp = _ := h.stock.live p r hr
        rw [hlive]
        rfl
    rw [h.stock.rep.catalog.isSome_iff] at hsome
    obtain ⟨c, hc⟩ := Option.isSome_iff_exists.mp hsome
    obtain ⟨d, n, r, hr, rfl, hindex, -⟩ := h.stock.rep.found hc
    refine ⟨(d, n), r, hr, rfl, hindex, fun p' r' hr' hfp => ?_⟩
    exact (h.stock.rep.distinct henv).eq_of_live hr' hr (h.stock.live _ _ hr') (h.stock.live _ _ hr) hfp

/-- **Concurrent clients do not store a chunk twice** in any interleaving in
which no client asks the index for a fingerprint that another client has
reserved, and in which the container IDs that are drawn differ. -/
theorem deduplicated_run (henv : env.Lawful) (m : Residue) (as : List ClientAction) {t : Clients}
    (hexec : exec (step env) (boot env m) as = some t)
    (hfree : Allowed (step env) Unreserved (boot env m) as)
    (hcreated : t.server.created ≤ names.distinct) (hdone : ∀ i, t.clients i = none) :
    t.Deduplicated env := by
  have hinv : ∀ (t : Clients) (a : ClientAction) (t' : Clients),
      (t.server.created ≤ names.distinct → ∃ F idx abs, t.Sound env F idx abs) → t.Unreserved a →
      t.step env a = some t' → t'.server.created ≤ names.distinct → ∃ F idx abs, t'.Sound env F idx abs := by
    intro t a t' h hcond hstep hcreated
    obtain ⟨F, idx, abs, hsound⟩ := h (le_trans (created_step hstep) hcreated)
    exact hsound.step henv hcond hstep hcreated
  obtain ⟨F, idx, abs, hsound⟩ :=
    exec_inv hinv as (fun _ => ⟨_, _, _, sound_boot env m⟩) hfree hexec hcreated
  exact hsound.deduplicated henv hdone

/-! ## Runs of a few clients -/

/-- Whose step it is. -/
def ofAction : ClientAction → Nat
  | .login i _ => i
  | .batch i _ => i
  | .finish i _ => i

/-- Other clients are left alone. -/
theorem step_other {t t' : Clients} {a : ClientAction} (hstep : t.step env a = some t') {j : Nat}
    (hj : j ≠ ofAction a) : t'.clients j = t.clients j ∧ t'.batch j = t.batch j := by
  cases a with
  | login i l =>
      simp only [step] at hstep
      split at hstep
      · obtain rfl := Option.some.inj hstep
        exact ⟨Function.update_of_ne hj _ _, rfl⟩
      · cases hstep
  | batch i x =>
      simp only [step] at hstep
      split at hstep
      · obtain ⟨p, -, rfl⟩ := Option.map_eq_some_iff.mp hstep
        exact ⟨Function.update_of_ne hj _ _, Function.update_of_ne hj _ _⟩
      · cases hstep
  | finish i head =>
      simp only [step] at hstep
      split at hstep
      · obtain rfl := Option.some.inj hstep
        exact ⟨Function.update_of_ne hj _ _, rfl⟩
      · cases hstep

/-- The clients from `n` on have not come. -/
def Empty (n : Nat) (t : Clients) : Prop := ∀ j, n ≤ j → t.clients j = none ∧ t.batch j = .idle

theorem Empty.step {n : Nat} {t t' : Clients} {a : ClientAction} (h : t.Empty n)
    (ha : ofAction a < n) (hstep : t.step env a = some t') : t'.Empty n := by
  intro j hj
  obtain ⟨hclient, hbatch⟩ := step_other hstep (show j ≠ ofAction a by omega)
  rw [hclient, hbatch]
  exact h j hj

theorem Empty.exec {n : Nat} : ∀ {as : List ClientAction} {t t' : Clients}, t.Empty n →
    (∀ a ∈ as, ofAction a < n) → exec (Clients.step env) t as = some t' → t'.Empty n
  | [], t, t', h, _, hexec => by
      obtain rfl := Option.some.inj hexec
      exact h
  | a :: as, t, t', h, has, hexec => by
      obtain ⟨u, hu, hexec⟩ := Option.bind_eq_some_iff.mp hexec
      exact (h.step (has a (List.mem_cons_self ..)) hu).exec
        (fun b hb => has b (List.mem_cons_of_mem _ hb)) hexec

/-- `Unreserved` among `n` clients. -/
def checkUnreserved (n : Nat) (t : Clients) : ClientAction → Bool
  | .batch i .query => (t.batch i).asking.all fun f =>
      (List.range n).all fun j => j = i || !(t.batch j).reserved.contains f
  | _ => true

/-- `Allowed` for a run of `n` clients. -/
def checkAllowed (env : Env) (n : Nat) : Clients → List ClientAction → Bool
  | _, [] => true
  | t, a :: as => decide (ofAction a < n) && checkUnreserved n t a &&
      match t.step env a with
      | some t' => checkAllowed env n t' as
      | none => true

omit names in
theorem unreserved_of_check {n : Nat} {t : Clients} {a : ClientAction} (h : t.Empty n)
    (hcheck : checkUnreserved n t a = true) : t.Unreserved a := by
  cases a with
  | batch i x =>
      cases x with
      | query =>
          intro f hf j hji hres
          by_cases hj : j < n
          · have hall := List.all_eq_true.mp (List.all_eq_true.mp hcheck f hf) j (List.mem_range.mpr hj)
            simp [hji, hres] at hall
          · rw [(h j (Nat.le_of_not_lt hj)).2] at hres
            cases hres
      | _ => trivial
  | _ => trivial

theorem allowed_of_check {n : Nat} : ∀ {as : List ClientAction} {t : Clients}, t.Empty n →
    checkAllowed env n t as = true → Allowed (Clients.step env) Unreserved t as
  | [], _, _, _ => trivial
  | a :: as, t, h, hcheck => by
      rw [checkAllowed, Bool.and_eq_true, Bool.and_eq_true, decide_eq_true_iff] at hcheck
      refine ⟨unreserved_of_check h hcheck.1.2, fun t' ht' => ?_⟩
      have hrest := hcheck.2
      rw [ht'] at hrest
      exact allowed_of_check (h.step hcheck.1.1 ht') hrest

end Clients

end Runs

namespace Clients

/-- Five IDs that `rand` drew, for the runs below. -/
local instance drawnNames : ContainerNames where
  name i := BytesN.ofBytes 7 (ContainerId.drawUUID [383, 886, 777, 915, 793, 335, 1386 + 7 * i])
  distinct := 5
  name_inj := by
    have hinj : ∀ i < 5, ∀ j < 5,
        BytesN.ofBytes 7 (ContainerId.drawUUID [383, 886, 777, 915, 793, 335, 1386 + 7 * i]) =
          BytesN.ofBytes 7 (ContainerId.drawUUID [383, 886, 777, 915, 793, 335, 1386 + 7 * j]) →
        i = j := by
      decide
    exact fun {i j} hi hj => hinj i hi j hj

theorem length_oneChunk : 0 < ([7] : Bytes).length ∧ ([7] : Bytes).length ≤ MAX_CHUNK_SIZE := by
  decide

/-- A file of one chunk. -/
def oneChunk : Batch := ⟨[⟨[7], length_oneChunk⟩], fun _ => RecipeEntry.ofBytes []⟩

def oneChunkLogin : Login :=
  ⟨BytesN.ofBytes 32 [1], BytesN.ofBytes 32 [2], BytesN.ofBytes 32 [3], BytesN.ofBytes 16 [],
    BytesN.ofBytes 16 []⟩

/-- Two clients with the same chunk, which the heap does not know: the steps up
to the check, those `between`, and the end of both sessions. -/
def twoClients (between : List ClientAction) : List ClientAction :=
  [.login 0 oneChunkLogin, .login 1 oneChunkLogin, .batch 0 (.receive oneChunk), .batch 0 .check,
    .batch 1 (.receive oneChunk), .batch 1 .check] ++ between ++
    [.finish 0 (BytesN.ofBytes 16 [9]), .finish 1 (BytesN.ofBytes 16 [9])]

/-- What follows the query of a batch with one chunk. -/
def afterQuery (i : Nat) : List ClientAction :=
  [.batch i .load, .batch i .store, .batch i .log, .batch i .heap, .batch i .update]

/-- The second client asks the index when the first one has updated it. -/
def inTurn : List ClientAction :=
  twoClients (.batch 0 .query :: afterQuery 0 ++ .batch 1 .query :: afterQuery 1)

/-- Both ask the index before either updates it. -/
def atOnce : List ClientAction :=
  twoClients (.batch 0 .query :: .batch 1 .query :: afterQuery 0 ++ afterQuery 1)

theorem twoClients_over {as : List ClientAction} (has : ∀ a ∈ as, ofAction a < 2) {m : Residue}
    {t : Clients} (hexec : exec (step .plain) (boot .plain m) as = some t)
    (hover : (exec (step .plain) (boot .plain m) as).map
      (fun t => ((t.clients 0).isNone, (t.clients 1).isNone)) = some (true, true)) :
    ∀ i, t.clients i = none := by
  rw [hexec] at hover
  obtain ⟨h0, h1⟩ := Prod.mk.injEq .. |>.mp (Option.some.inj hover)
  have hempty : t.Empty 2 := Empty.exec (fun _ _ => ⟨rfl, rfl⟩) has hexec
  rintro (_ | _ | i)
  · exact Option.isNone_iff_eq_none.mp h0
  · exact Option.isNone_iff_eq_none.mp h1
  · exact (hempty (i + 2) (Nat.le_add_left _ _)).1

theorem deduplicated_inTurn : ∃ t,
    exec (step .plain) (boot .plain ⟨[], fun _ => []⟩) inTurn = some t ∧ t.Deduplicated .plain := by
  obtain ⟨t, ht⟩ := Option.isSome_iff_exists.mp
    (show (exec (step .plain) (boot .plain ⟨[], fun _ => []⟩) inTurn).isSome = true by decide +kernel)
  have hcreated : (exec (step .plain) (boot .plain ⟨[], fun _ => []⟩) inTurn).map
      (fun t => t.server.created) = some 5 := by decide +kernel
  rw [ht] at hcreated
  have hcreated : t.server.created = 5 := Option.some.inj hcreated
  refine ⟨t, ht, deduplicated_run Env.lawful_plain _ inTurn ht ?_ ?_ ?_⟩
  · exact allowed_of_check (fun _ _ => ⟨rfl, rfl⟩) (show checkAllowed .plain 2 _ inTurn = true by
      decide +kernel)
  · rw [hcreated]
    decide
  · exact twoClients_over (by decide) ht (by decide +kernel)

/-- The first record of a file. -/
theorem Filed.first {s : Server} {F : Containers} (h : Filed s F) {d : Dir} {n : ContainerName}
    {file : Bytes} (hfile : s.view d n = some file) (hne : file ≠ []) :
    ∃ r, F.Has (d, n) r ∧ r.fp = getChunkFP file (RecipeEntry.ofBytes []) := by
  rw [h.view] at hfile
  obtain ⟨rs, hrs, rfl⟩ := Option.map_eq_some_iff.mp hfile
  cases rs with
  | nil => exact absurd rfl hne
  | cons r rs =>
      have hmem : r ∈ r :: rs := List.mem_cons_self ..
      refine ⟨r, ⟨_, hrs, hmem⟩, ?_⟩
      have hfound := (h.holds hrs).found hmem (List.prefix_refl _)
      have hstart : r.entry.offset.toNat = (RecipeEntry.ofBytes []).offset.toNat :=
        (h.holds hrs).tiles.1
      rw [← hfound.getChunkFP]
      unfold getChunkFP
      rw [hstart]

/-- Two files that begin with records of one fingerprint. -/
theorem not_deduplicated {t : Clients} {n n' : ContainerName} (hne : n ≠ n') {f : Fp}
    (hfile : (t.server.view .base n).map (fun file =>
      (file.length, getChunkFP file (RecipeEntry.ofBytes []))) = some (289, f))
    (hfile' : (t.server.view .base n').map (fun file =>
      (file.length, getChunkFP file (RecipeEntry.ofBytes []))) = some (289, f)) :
    ¬ t.Deduplicated env := by
  rintro ⟨F, hfiled, hone⟩
  have hfirst : ∀ {n}, (t.server.view .base n).map (fun file =>
      (file.length, getChunkFP file (RecipeEntry.ofBytes []))) = some (289, f) →
      ∃ r, F.Has (.base, n) r ∧ r.fp = f := by
    intro n hn
    obtain ⟨file, hfile, heq⟩ := Option.map_eq_some_iff.mp hn
    obtain ⟨hlen, hfp⟩ := Prod.mk.injEq .. |>.mp heq
    obtain ⟨r, hr, hrfp⟩ := hfiled.first hfile (by rintro rfl; cases hlen)
    exact ⟨r, hr, hrfp.trans hfp⟩
  obtain ⟨r, hr, hrfp⟩ := hfirst hfile
  obtain ⟨r', hr', hrfp'⟩ := hfirst hfile'
  obtain ⟨p, s, -, -, -, honly⟩ := hone f (Or.inr (Or.inr ⟨_, r, hr, hrfp⟩))
  have hsame := (honly _ _ hr hrfp).1.trans (honly _ _ hr' hrfp').1.symm
  exact hne (congrArg Prod.snd hsame)

theorem not_deduplicated_atOnce : ∃ t,
    exec (step .plain) (boot .plain ⟨[], fun _ => []⟩) atOnce = some t ∧
      (∀ i, t.clients i = none) ∧ ¬ t.Deduplicated .plain := by
  obtain ⟨t, ht⟩ := Option.isSome_iff_exists.mp
    (show (exec (step .plain) (boot .plain ⟨[], fun _ => []⟩) atOnce).isSome = true by decide +kernel)
  have hfiles : (exec (step .plain) (boot .plain ⟨[], fun _ => []⟩) atOnce).map (fun t =>
      ((t.server.view .base (containerName 0)).map (fun file =>
        (file.length, getChunkFP file (RecipeEntry.ofBytes []))),
      (t.server.view .base (containerName 2)).map (fun file =>
        (file.length, getChunkFP file (RecipeEntry.ofBytes []))))) =
      some (some (289, Env.plain.fp [7]), some (289, Env.plain.fp [7])) := by decide +kernel
  rw [ht] at hfiles
  obtain ⟨hfile, hfile'⟩ := Prod.mk.injEq .. |>.mp (Option.some.inj hfiles)
  exact ⟨t, ht, twoClients_over (by decide) ht (by decide +kernel),
    not_deduplicated (by decide +kernel) hfile hfile'⟩

end Clients

end ShieldReduce
