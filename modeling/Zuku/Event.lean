import Mathlib

/-!
# Events

An event of the Realm runtime is modelled by the set of completions it waits
for.  `NO_EVENT` waits for nothing, and merging events is union.
-/

namespace Zuku

abbrev Event (ε : Type) := Finset ε

namespace Event

variable {ε : Type}

def noEvent : Event ε := ∅

def mergeEvents [DecidableEq ε] (a b : Event ε) : Event ε := a ∪ b

theorem mergeEvents_comm [DecidableEq ε] (a b : Event ε) : mergeEvents a b = mergeEvents b a :=
  Finset.union_comm a b

/-- `merge_events` of a collection of events. -/
def mergeAll [DecidableEq ε] (events : List (Event ε)) : Event ε := events.foldr mergeEvents noEvent

@[simp] theorem mem_mergeAll [DecidableEq ε] {events : List (Event ε)} {c : ε} :
    c ∈ mergeAll events ↔ ∃ event ∈ events, c ∈ event := by
  induction events with
  | nil => simp [mergeAll, noEvent]
  | cons event events ih =>
      rw [List.exists_mem_cons_iff, ← ih]
      exact Finset.mem_union

theorem subset_mergeAll [DecidableEq ε] {events : List (Event ε)} {event : Event ε}
    (h : event ∈ events) : event ⊆ mergeAll events :=
  fun _ hc ↦ mem_mergeAll.mpr ⟨event, h, hc⟩

end Event

end Zuku
