import Mathlib.Tactic.Common

/-!
# Step systems

A step system is a partial step function; a run is a list of actions, in
whatever order its threads take them. `Allowed` says that each action of
a run is taken in a state that meets a condition, and `exec_inv` is the
rule for invariants of such runs. A measure that every step lowers bounds
the length of a run (`exec_length`).
-/

namespace StepLib

variable {σ α : Type}

/-- The state after a run, if all its actions can be taken. -/
def exec (step : σ → α → Option σ) : σ → List α → Option σ
  | s, [] => some s
  | s, a :: as => (step s a).bind fun s' => exec step s' as

theorem exec_append {step : σ → α → Option σ} : ∀ (as bs : List α) (s : σ),
    exec step s (as ++ bs) = (exec step s as).bind fun t => exec step t bs
  | [], _, _ => rfl
  | a :: as, bs, s => by
      rw [List.cons_append, exec, exec, Option.bind_assoc]
      exact congrArg _ (funext fun t => exec_append as bs t)

/-- Every action of the run is taken in a state that meets the condition. -/
def Allowed (step : σ → α → Option σ) (cond : σ → α → Prop) : σ → List α → Prop
  | _, [] => True
  | s, a :: as => cond s a ∧ ∀ s', step s a = some s' → Allowed step cond s' as

/-- What every allowed step preserves holds after every allowed run. -/
theorem exec_inv {step : σ → α → Option σ} {cond : σ → α → Prop} {I : σ → Prop}
    (hstep : ∀ s a s', I s → cond s a → step s a = some s' → I s') :
    ∀ (as : List α) {s s' : σ}, I s → Allowed step cond s as → exec step s as = some s' → I s'
  | [], s, s', h, _, hexec => by
      obtain rfl := Option.some.inj hexec
      exact h
  | a :: as, s, s', h, ⟨hcond, hrest⟩, hexec => by
      obtain ⟨t, ht, hexec⟩ := Option.bind_eq_some_iff.mp hexec
      exact exec_inv hstep as (hstep s a t h hcond ht) (hrest t ht) hexec

/-- The same for what every step preserves, whatever its state. -/
theorem exec_inv' {step : σ → α → Option σ} {I : σ → Prop}
    (hstep : ∀ s a s', I s → step s a = some s' → I s') :
    ∀ (as : List α) {s s' : σ}, I s → exec step s as = some s' → I s'
  | [], s, s', h, hexec => by
      obtain rfl := Option.some.inj hexec
      exact h
  | a :: as, s, s', h, hexec => by
      obtain ⟨t, ht, hexec⟩ := Option.bind_eq_some_iff.mp hexec
      exact exec_inv' hstep as (hstep s a t h ht) hexec

theorem allowed_of_forall {step : σ → α → Option σ} {cond : α → Prop} : ∀ {as : List α} {s : σ},
    (∀ a ∈ as, cond a) → Allowed step (fun _ a => cond a) s as
  | [], _, _ => trivial
  | a :: as, s, h => by
      obtain ⟨ha, has⟩ := List.forall_mem_cons.mp h
      exact ⟨ha, fun s' _ => allowed_of_forall has⟩

/-- A run takes no more steps than its measure can fall. -/
theorem exec_length {step : σ → α → Option σ} {I : σ → Prop} {measure : σ → Nat}
    (hstep : ∀ s a s', I s → step s a = some s' → I s' ∧ measure s' < measure s) :
    ∀ (as : List α) {s s' : σ}, I s → exec step s as = some s' →
      as.length + measure s' ≤ measure s
  | [], s, s', h, hexec => by
      obtain rfl := Option.some.inj hexec
      exact Nat.le_of_eq (Nat.zero_add _)
  | a :: as, s, s', h, hexec => by
      obtain ⟨t, ht, hexec⟩ := Option.bind_eq_some_iff.mp hexec
      obtain ⟨hinv, hless⟩ := hstep s a t h ht
      have hrest := exec_length hstep as hinv hexec
      rw [List.length_cons]
      omega

end StepLib
