import Mathlib.Tactic.Common

/-!
# Bounded `while` loops and traced folds

`whileLoop fuel cond body s` runs `while (cond) body` from `s` for at
most `fuel` rounds. A body that ends in a `break` is a stronger
condition. Partial correctness is the invariant rule `whileLoop_inv`;
that the fuel was enough, so that the loop stopped because its condition
failed, is the variant rule `whileLoop_exit`.

`whileRun` is the loop of a body that can fail; it answers only when it is
left, so that an answer is a run that ended. `whileRun_total` is its rule.

`outputs step out s xs` is what can be observed of `xs.foldl step s`,
round by round.
-/

namespace LoopLib

variable {σ : Type}

def whileLoop (cond : σ → Bool) (body : σ → σ) : Nat → σ → σ
  | 0, s => s
  | fuel + 1, s => if cond s then whileLoop cond body fuel (body s) else s

/-- What every round preserves holds when the loop is left. -/
theorem whileLoop_inv {cond : σ → Bool} {body : σ → σ} {I : σ → Prop}
    (hstep : ∀ s, I s → cond s = true → I (body s)) :
    ∀ (fuel : Nat) (s : σ), I s → I (whileLoop cond body fuel s)
  | 0, _, h => h
  | fuel + 1, s, h => by
      rw [whileLoop]
      split
      · rename_i hc
        exact whileLoop_inv hstep fuel (body s) (hstep s h hc)
      · exact h

/-- A variant that every round decreases bounds the number of rounds. -/
theorem whileLoop_exit {cond : σ → Bool} {body : σ → σ} {I : σ → Prop}
    (variant : σ → Nat)
    (hstep : ∀ s, I s → cond s = true → I (body s))
    (hdec : ∀ s, I s → cond s = true → variant (body s) < variant s) :
    ∀ (fuel : Nat) (s : σ), I s → variant s < fuel →
      cond (whileLoop cond body fuel s) = false
  | 0, _, _, hlt => absurd hlt (by omega)
  | fuel + 1, s, h, hlt => by
      rw [whileLoop]
      split
      · rename_i hc
        have hv := hdec s h hc
        exact whileLoop_exit variant hstep hdec fuel (body s) (hstep s h hc) (by omega)
      · rename_i hc
        simpa using hc

/-- A loop over a larger state whose condition and body are those of the smaller one. -/
theorem whileLoop_map {τ : Type} {cond : σ → Bool} {body : σ → σ} (g : σ → τ)
    (cond' : τ → Bool) (body' : τ → τ) (hcond : ∀ s, cond' (g s) = cond s)
    (hbody : ∀ s, body' (g s) = g (body s)) :
    ∀ (fuel : Nat) (s : σ), g (whileLoop cond body fuel s) = whileLoop cond' body' fuel (g s)
  | 0, _ => rfl
  | fuel + 1, s => by
      rw [whileLoop, whileLoop, hcond, hbody, ← whileLoop_map g cond' body' hcond hbody fuel]
      split <;> rfl

/-- What condition and body do not look at can be changed before or after. -/
theorem whileLoop_comm {cond : σ → Bool} {body f : σ → σ} (hcond : ∀ s, cond (f s) = cond s)
    (hbody : ∀ s, body (f s) = f (body s)) (fuel : Nat) (s : σ) :
    whileLoop cond body fuel (f s) = f (whileLoop cond body fuel s) :=
  (whileLoop_map f cond body hcond hbody fuel s).symm

/-- `while (cond) body` with a body that may have no result. Without fuel
there is no result either. -/
def whileRun (cond : σ → Bool) (body : σ → Option σ) : Nat → σ → Option σ
  | 0, _ => none
  | fuel + 1, s => if cond s then (body s).bind (whileRun cond body fuel) else some s

/-- Total correctness: an invariant whose rounds succeed and decrease a variant. -/
theorem whileRun_total {cond : σ → Bool} {body : σ → Option σ} {I : σ → Prop} (variant : σ → Nat)
    (hstep : ∀ s, I s → cond s = true → ∃ s', body s = some s' ∧ I s' ∧ variant s' < variant s) :
    ∀ (fuel : Nat) (s : σ), I s → variant s < fuel →
      ∃ s', whileRun cond body fuel s = some s' ∧ I s' ∧ cond s' = false
  | 0, _, _, hlt => absurd hlt (by omega)
  | fuel + 1, s, h, hlt => by
      rw [whileRun]
      split
      · rename_i hc
        obtain ⟨s', hbody, h', hdec⟩ := hstep s h hc
        rw [hbody]
        exact whileRun_total variant hstep fuel s' h' (by omega)
      · rename_i hc
        exact ⟨s, rfl, h, by simpa using hc⟩

/-- A loop that does on part of its state what a bounded loop does there, and that
is left where the bounded one is. -/
theorem whileRun_sim {τ : Type} {cond : σ → Bool} {body : σ → Option σ} {I : σ → Prop} (g : σ → τ)
    (cond' : τ → Bool) {body' : τ → τ} (hcond : ∀ s, cond s = cond' (g s))
    (hstep : ∀ s, I s → cond s = true → ∃ s', body s = some s' ∧ g s' = body' (g s) ∧ I s') :
    ∀ {n fuel : Nat} (s : σ), I s → n < fuel → cond' (whileLoop cond' body' n (g s)) = false →
      ∃ s', whileRun cond body fuel s = some s' ∧ g s' = whileLoop cond' body' n (g s) ∧ I s'
  | 0, fuel + 1, s, h, _, hexit => by
      have hc : cond s = false := (hcond s).trans hexit
      rw [whileRun, hc]
      exact ⟨s, rfl, rfl, h⟩
  | n + 1, fuel + 1, s, h, hlt, hexit => by
      rw [whileRun]
      rw [whileLoop] at hexit ⊢
      cases hc : cond s with
      | true =>
          rw [← hcond, if_pos hc] at hexit ⊢
          obtain ⟨t, ht, hg, hI⟩ := hstep s h hc
          rw [if_pos rfl, ht, Option.bind_some, ← hg]
          rw [← hg] at hexit
          exact whileRun_sim g cond' hcond hstep t hI (by omega) hexit
      | false =>
          rw [← hcond, hc, if_neg Bool.false_ne_true]
          exact ⟨s, rfl, rfl, h⟩

/-- A loop with a total body, bounded by rounds that were enough. -/
theorem whileRun_of_exit {cond : σ → Bool} {body : σ → σ} {n fuel : Nat} (s : σ) (hlt : n < fuel)
    (hexit : cond (whileLoop cond body n s) = false) :
    whileRun cond (fun s => some (body s)) fuel s = some (whileLoop cond body n s) := by
  have hstep : ∀ s, True → cond s = true →
      ∃ s', some (body s) = some s' ∧ id s' = body (id s) ∧ True :=
    fun s _ _ => ⟨body s, rfl, rfl, trivial⟩
  have hcond : ∀ s, cond s = cond (id s) := fun _ => rfl
  obtain ⟨s', hrun, heq, -⟩ := whileRun_sim id cond hcond hstep s trivial hlt hexit
  rw [hrun]
  exact congrArg some heq

/-- A loop that counts up stops where its condition fails. -/
theorem whileLoop_add_exit {cond : Nat → Bool} {limit d : Nat} (hd : 0 < d)
    (hlimit : ∀ k, cond k = true → k < limit) :
    ∀ (n j : Nat), limit ≤ j + n → cond (whileLoop cond (· + d) n j) = false
  | 0, j, hn => by
      rw [whileLoop, ← Bool.not_eq_true]
      exact fun hc => absurd (hlimit j hc) (by omega)
  | n + 1, j, hn => by
      rw [whileLoop]
      split
      · exact whileLoop_add_exit hd hlimit n (j + d) (by omega)
      · rename_i hc
        rwa [Bool.not_eq_true] at hc

/-- A loop whose rounds succeed only into states that go on never ends. -/
theorem whileRun_none {cond : σ → Bool} {body : σ → Option σ} {I : σ → Prop}
    (hstep : ∀ s, I s → cond s = true ∧ ∀ s', body s = some s' → I s') :
    ∀ (fuel : Nat) (s : σ), I s → whileRun cond body fuel s = none
  | 0, _, _ => rfl
  | fuel + 1, s, h => by
      obtain ⟨hc, hnext⟩ := hstep s h
      rw [whileRun, if_pos hc]
      refine Option.bind_eq_none_iff.mpr fun s' hbody => ?_
      exact whileRun_none hstep fuel s' (hnext s' hbody)

/-! ## Traced folds -/

variable {α κ : Type}

/-- What `out` gives in each round of `foldl step`. -/
def outputs (step : σ → α → σ) (out : σ → α → κ) : σ → List α → List κ
  | _, [] => []
  | s, x :: xs => out s x :: outputs step out (step s x) xs

theorem outputs_append (step : σ → α → σ) (out : σ → α → κ) : ∀ (s : σ) (xs ys : List α),
    outputs step out s (xs ++ ys) = outputs step out s xs ++ outputs step out (xs.foldl step s) ys
  | _, [], _ => rfl
  | s, x :: xs, ys => by
      rw [List.cons_append, outputs, outputs_append step out (step s x) xs ys]
      rfl

theorem length_outputs (step : σ → α → σ) (out : σ → α → κ) : ∀ (s : σ) (xs : List α),
    (outputs step out s xs).length = xs.length
  | _, [] => rfl
  | s, x :: xs => by
      rw [outputs, List.length_cons, length_outputs step out (step s x) xs, List.length_cons]

/-- The states that a fold goes through, each with the input that it meets. -/
def visits (step : σ → α → σ) (s : σ) (xs : List α) : List (σ × α) := outputs step Prod.mk s xs

theorem visits_cons (step : σ → α → σ) (s : σ) (x : α) (xs : List α) :
    visits step s (x :: xs) = (s, x) :: visits step (step s x) xs := rfl

theorem length_visits (step : σ → α → σ) (s : σ) (xs : List α) :
    (visits step s xs).length = xs.length := length_outputs step Prod.mk s xs

theorem mem_of_mem_visits {step : σ → α → σ} : ∀ (xs : List α) (s : σ) {v : σ × α},
    v ∈ visits step s xs → v.2 ∈ xs
  | [], _, _, h => by cases h
  | x :: xs, s, v, h => by
      rw [visits_cons] at h
      rcases List.mem_cons.mp h with rfl | h
      · exact List.mem_cons_self ..
      · exact List.mem_cons_of_mem _ (mem_of_mem_visits xs (step s x) h)

/-- A fold and what observes it, with a relation between them that every round
keeps. -/
theorem foldl_observed {τ : Type} {step : σ → α → σ} {obs : σ × α → τ → τ} {I : σ → τ → Prop} :
    ∀ (xs : List α) (s : σ) (t : τ),
      (∀ v ∈ visits step s xs, ∀ t, I v.1 t → I (step v.1 v.2) (obs v t)) → I s t →
      I (xs.foldl step s) ((visits step s xs).foldl (fun t v => obs v t) t)
  | [], _, _, _, h => h
  | x :: xs, s, t, hstep, h => by
      rw [visits_cons, List.foldl_cons, List.foldl_cons]
      exact foldl_observed xs (step s x) (obs (s, x) t)
        (fun v hv => hstep v (List.mem_cons_of_mem _ hv)) (hstep (s, x) (List.mem_cons_self ..) t h)

/-- A quantity of the state that goes, in every round, through the steps that `ex`
tells from outside. -/
theorem foldl_visits {τ β : Type} {step : σ → α → σ} {f : σ → τ} {g : τ → β → τ}
    {ex : σ × α → List β} (h : ∀ s x, f (step s x) = (ex (s, x)).foldl g (f s)) :
    ∀ (xs : List α) (s : σ),
      f (xs.foldl step s) = ((visits step s xs).flatMap ex).foldl g (f s)
  | [], _ => rfl
  | x :: xs, s => by
      rw [List.foldl_cons, foldl_visits h xs, visits_cons, List.flatMap_cons, List.foldl_append, h]

/-- Each of the states has got the quantity from the rounds before it. -/
def Tracks {τ β : Type} (f : σ → τ) (g : τ → β → τ) (ex : σ × α → List β) :
    τ → List (σ × α) → Prop
  | _, [] => True
  | t, v :: vs => f v.1 = t ∧ Tracks f g ex ((ex v).foldl g t) vs

theorem tracks_visits {τ β : Type} {step : σ → α → σ} {f : σ → τ} {g : τ → β → τ}
    {ex : σ × α → List β} (h : ∀ s x, f (step s x) = (ex (s, x)).foldl g (f s)) :
    ∀ (xs : List α) (s : σ), Tracks f g ex (f s) (visits step s xs)
  | [], _ => trivial
  | x :: xs, s => ⟨rfl, h s x ▸ tracks_visits h xs (step s x)⟩

theorem Tracks.append {τ β : Type} {f : σ → τ} {g : τ → β → τ} {ex : σ × α → List β} :
    ∀ {vs ws : List (σ × α)} {t : τ}, Tracks f g ex t vs →
      Tracks f g ex ((vs.flatMap ex).foldl g t) ws → Tracks f g ex t (vs ++ ws)
  | [], _, _, _, hw => hw
  | v :: vs, ws, t, hv, hw => ⟨hv.1, hv.2.append (by
      rwa [List.flatMap_cons, List.foldl_append] at hw)⟩

theorem Tracks.at {τ β : Type} {f : σ → τ} {g : τ → β → τ} {ex : σ × α → List β} :
    ∀ {pre post : List (σ × α)} {v : σ × α} {t : τ}, Tracks f g ex t (pre ++ v :: post) →
      f v.1 = (pre.flatMap ex).foldl g t
  | [], _, _, _, h => h.1
  | w :: pre, _, _, _, h => by
      rw [List.flatMap_cons, List.foldl_append]
      exact h.2.at

/-- What holds of every output, under an invariant of the fold. -/
theorem forall_mem_outputs {step : σ → α → σ} {out : σ → α → κ} {I : σ → Prop} {Q : κ → Prop}
    (hstep : ∀ s x, I s → I (step s x)) (hout : ∀ s x, I s → Q (out s x)) :
    ∀ (xs : List α) (s : σ), I s → ∀ y ∈ outputs step out s xs, Q y
  | [], _, _, y, hy => by cases hy
  | x :: xs, s, h, y, hy => by
      rcases List.mem_cons.mp hy with rfl | hy
      · exact hout s x h
      · exact forall_mem_outputs hstep hout xs (step s x) (hstep s x h) y hy

/-- An invariant of every round is one of the fold. -/
theorem foldl_inv {step : σ → α → σ} {I : σ → Prop} (hstep : ∀ s x, I s → I (step s x)) :
    ∀ (xs : List α) (s : σ), I s → I (xs.foldl step s)
  | [], _, h => h
  | x :: xs, s, h => foldl_inv hstep xs (step s x) (hstep s x h)

/-- A fallible fold whose rounds succeed with the same result for another
function, on the inputs that occur. -/
theorem foldlM_mono {f g : σ → α → Option σ} {I : σ → Prop} {V : α → Prop}
    (hstep : ∀ s x s', V x → I s → f s x = some s' → g s x = some s' ∧ I s') :
    ∀ (xs : List α) (s s' : σ), (∀ x ∈ xs, V x) → I s → xs.foldlM f s = some s' →
      xs.foldlM g s = some s' ∧ I s'
  | [], _, _, _, h, hs => by
      obtain rfl := Option.some.inj hs
      exact ⟨rfl, h⟩
  | x :: xs, s, s', hV, h, hs => by
      rw [List.foldlM_cons] at hs ⊢
      obtain ⟨s₁, hfirst, hrest⟩ := Option.bind_eq_some_iff.mp hs
      obtain ⟨hfirst', h₁⟩ := hstep s x s₁ (hV x (List.mem_cons_self ..)) h hfirst
      rw [hfirst']
      exact foldlM_mono hstep xs s₁ s' (fun y hy => hV y (List.mem_cons_of_mem _ hy)) h₁ hrest

end LoopLib
