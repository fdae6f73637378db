import Mathlib

/-!
# Predicates along runs

A run applies a step function to the actions of a list.  A predicate of a state
and the next action holds along a run if it holds at every step.
-/

namespace StepRuns

variable {σ α : Type*} (step : σ → α → σ)

def Along (P : σ → α → Prop) : σ → List α → Prop
  | _, [] => True
  | s, a :: actions => P s a ∧ Along P (step s a) actions

variable {step} {P Q : σ → α → Prop} {s : σ}

theorem along_cons {a : α} {actions : List α} :
    Along step P s (a :: actions) ↔ P s a ∧ Along step P (step s a) actions := Iff.rfl

/-- An invariant that every step keeps holds after the run. -/
theorem foldl_invariant {Inv : σ → Prop} (hstep : ∀ s a, Inv s → Inv (step s a)) (h : Inv s)
    (actions : List α) : Inv (actions.foldl step s) := by
  induction actions generalizing s with
  | nil => exact h
  | cons a actions ih => exact ih (hstep s a h)

/-- The same for steps that may fail, where a run fails with the first of them. -/
theorem run_invariant (step : σ → α → σ → Prop) (run : σ → List α → σ → Prop)
    (hnil : ∀ s s', run s [] s' → s = s')
    (hcons : ∀ s a actions s', run s (a :: actions) s' → ∃ t, step s a t ∧ run t actions s')
    {Inv : σ → Prop} (hstep : ∀ s a s', Inv s → step s a s' → Inv s') {s s' : σ} (h : Inv s)
    {actions : List α} (hrun : run s actions s') : Inv s' := by
  induction actions generalizing s with
  | nil => exact hnil s s' hrun ▸ h
  | cons a actions ih =>
      obtain ⟨t, ht, hrun⟩ := hcons s a actions s' hrun
      exact ih (hstep s a t h ht) hrun

/-- Two predicates that agree wherever an invariant holds agree along every run,
if a step that meets the second keeps the invariant. -/
theorem along_congr {Inv : σ → Prop} (hiff : ∀ s a, Inv s → (P s a ↔ Q s a))
    (hstep : ∀ s a, Inv s → Q s a → Inv (step s a)) (h : Inv s) (actions : List α) :
    Along step P s actions ↔ Along step Q s actions := by
  induction actions generalizing s with
  | nil => exact Iff.rfl
  | cons a actions ih =>
      rw [along_cons, along_cons, hiff s a h]
      exact and_congr_right fun hq ↦ ih (hstep s a h hq)

end StepRuns
