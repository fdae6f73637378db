import Mathlib

/-!
# Events that a program triggers

A user event is triggered with a precondition and fires once every completion
of the precondition has.  Completions of another kind fire when the outside
says so.
-/

namespace TriggeredEvents

variable {α : Type*}

/-- What fires, given the calls of trigger so far and the completions of the
outside. -/
inductive Fires (triggers : List (α × Finset α)) (done : Finset α) : α → Prop where
  | done {a : α} : a ∈ done → Fires triggers done a
  | trigger {a : α} {event : Finset α} : (a, event) ∈ triggers →
      (∀ b ∈ event, Fires triggers done b) → Fires triggers done a

/-- All completions of an event have fired. -/
def FiresAll (triggers : List (α × Finset α)) (done event : Finset α) : Prop :=
  ∀ a ∈ event, Fires triggers done a

variable {triggers : List (α × Finset α)} {done event event' : Finset α} {a : α}

theorem FiresAll.subset (h : FiresAll triggers done event) (hsubset : event' ⊆ event) :
    FiresAll triggers done event' :=
  fun a ha ↦ h a (hsubset ha)

/-- An event that the outside does not know fires with one of its triggers. -/
theorem fires_iff_exists (ha : a ∉ done) :
    Fires triggers done a ↔ ∃ event, (a, event) ∈ triggers ∧ FiresAll triggers done event := by
  constructor
  · intro h
    cases h with
    | done hmem => exact absurd hmem ha
    | trigger hmem hall => exact ⟨_, hmem, hall⟩
  · rintro ⟨event, hmem, hall⟩
    exact .trigger hmem hall

end TriggeredEvents
