import Zuku.Task

/-!
# What a use of a store waits for

A task waits for the effects of the uses of its stores before it or, with a
stream order, for their streams.  A reader waits for the writers of a store, a
writer for its readers as well.
-/

namespace Zuku

open Event EventPrecondition

variable {ε β : Type}

/-! ## The part of an event that orders a task -/

/-- The event of an optional precondition for the order of a stream or for the
effects. -/
def EventPrecondition.part (streamOrdered : Bool) : Option (EventPrecondition ε) → Event ε
  | some p => if streamOrdered then p.stream else p.effects
  | none => noEvent

variable (streamOrdered : Bool)

@[simp] theorem part_none : part streamOrdered (none : Option (EventPrecondition ε)) = ∅ := rfl

theorem part_false (precondition : Option (EventPrecondition ε)) :
    part false precondition = effectsOf precondition := by
  cases precondition <;> rfl

variable [DecidableEq ε]

@[simp] theorem part_merge (precondition : Option (EventPrecondition ε))
    (stream effects : Event ε) :
    part streamOrdered (some (merge precondition stream effects)) =
      (if streamOrdered then stream else effects) ∪ part streamOrdered precondition := by
  cases precondition with
  | none => simp [part, merge, noEvent]
  | some p => cases streamOrdered <;> rfl

@[simp] theorem part_warPrecondition_addReader (store : Store ε β) (stream effects : Event ε) :
    part streamOrdered (store.addReader stream effects).warPrecondition =
      part streamOrdered store.warPrecondition ∪ (if streamOrdered then stream else effects) := by
  rw [Store.addReader]
  cases store.warPrecondition with
  | none => simp [part, noEvent]
  | some war => cases streamOrdered <;> rfl

/-! ## Arguments of a task -/

/-- What an argument makes its task wait for, in the order of a stream or for
the effects. -/
def StoredArgument.dependency (streamOrdered : Bool) (argument : StoredArgument ε β) : Event ε :=
  if streamOrdered then argument.streamPrecondition else argument.effectsPrecondition

@[simp] theorem dependency_child (store : Store ε β) :
    (StoredArgument.child store).dependency streamOrdered =
      part streamOrdered store.warPrecondition ∪ part streamOrdered store.childRwEvent := by
  cases streamOrdered with
  | false => exact store.effectsPrecondition_eq
  | true =>
      rw [StoredArgument.dependency, if_pos rfl, StoredArgument.streamPrecondition,
        Store.streamPrecondition]
      cases store.warPrecondition <;> cases store.childRwEvent <;>
        simp [part, mergeEvents, noEvent]

@[simp] theorem dependency_view (view : View ε β) :
    (StoredArgument.view view).dependency streamOrdered =
      part streamOrdered view.precondition := by
  cases streamOrdered <;> cases h : view.precondition <;>
    simp [StoredArgument.dependency, StoredArgument.streamPrecondition,
      StoredArgument.effectsPrecondition, View.streamPrecondition, View.effectsPrecondition,
      part, h]

/-! ## Uses of a store -/

/-- What a use of a store waits for. -/
def Store.waitsFor (streamOrdered : Bool) (store : Store ε β) : Access → Event ε
  | .write => part streamOrdered store.warPrecondition ∪ part streamOrdered store.childRwEvent
  | .read => part streamOrdered store.childRwEvent

theorem dependency_toTaskArgument (streamOrdered : Bool) (store : Store ε β)
    (stream effects : Event ε) (access : Access) :
    (toTaskArgument store stream effects access).1.dependency streamOrdered =
      store.waitsFor streamOrdered access := by
  cases access with
  | write => exact dependency_child streamOrdered _
  | read => exact dependency_view streamOrdered _

theorem waitsFor_subset_write {streamOrdered : Bool} {store : Store ε β} {access : Access} :
    store.waitsFor streamOrdered access ⊆ store.waitsFor streamOrdered .write := by
  cases access with
  | read => exact Finset.subset_union_right
  | write => rfl

theorem waitsFor_false_read (store : Store ε β) :
    store.waitsFor false .read = effectsOf store.childRwEvent := part_false _

theorem waitsFor_false_write (store : Store ε β) :
    store.waitsFor false .write = store.precondition := by
  rw [Store.waitsFor, part_false, part_false, Store.precondition_eq]

/-- Readers and writers wait for the events that a store is ready after. -/
theorem subset_waitsFor_readyAfter (store : Store ε β) (event : Event ε) (access : Access) :
    event ⊆ (store.readyAfter event event).waitsFor streamOrdered access := by
  have hread : event ⊆ (store.readyAfter event event).waitsFor streamOrdered .read := by
    rw [Store.waitsFor, Store.readyAfter, part_merge, ite_self]
    exact Finset.subset_union_left
  cases access with
  | read => exact hread
  | write => exact hread.trans waitsFor_subset_write

/-- Writers wait for a reader that has been added. -/
theorem waitsFor_addReader_write (store : Store ε β) (event : Event ε) :
    (store.addReader event event).waitsFor streamOrdered .write =
      store.waitsFor streamOrdered .write ∪ event := by
  rw [Store.waitsFor, part_warPrecondition_addReader, ite_self, Store.childRwEvent_addReader,
    Finset.union_right_comm]
  rfl

/-! ## What a use leaves on a store -/

section Mapping

variable {store : Store ε β} {stream effects : Event ε} {c : ε}

theorem mem_childRwEvent_toTaskArgument (store : Store ε β) (access : Access) :
    c ∈ effectsOf (toTaskArgument store stream effects access).2.childRwEvent ↔
      c ∈ effectsOf store.childRwEvent ∨ access = .write ∧ c ∈ effects := by
  cases access with
  | read => simp [toTaskArgument, Store.viewAfter]
  | write => simp [toTaskArgument, Store.childAfter, or_comm]

theorem parentNotificationEvent_toTaskArgument (store : Store ε β) (access : Access) :
    (toTaskArgument store stream effects access).2.parentNotificationEvent =
      store.parentNotificationEvent := by
  cases access <;> rfl

variable {κ : Type} [DecidableEq κ] {stores : κ → Store ε β} {s : κ}

/-- The effects of a call are added to the stores that it writes. -/
theorem mem_childRwEvent_storeArgs (uses : List (κ × Access)) :
    c ∈ effectsOf
        ((storeArgsAndSetPostcondition stream effects stores uses).2 s).childRwEvent ↔
      c ∈ effectsOf (stores s).childRwEvent ∨ (s, Access.write) ∈ uses ∧ c ∈ effects := by
  induction uses generalizing stores with
  | nil => simp [storeArgsAndSetPostcondition]
  | cons use uses ih =>
      rw [storeArgsAndSetPostcondition, ih, List.mem_cons]
      by_cases hs : s = use.1
      · subst hs
        rw [Function.update_self, mem_childRwEvent_toTaskArgument, or_assoc, ← or_and_right,
          Prod.ext_iff]
        simp [eq_comm]
      · rw [Function.update_of_ne hs]
        simp [Prod.ext_iff, hs]

/-- Mapping a store leaves it the notification of its parent. -/
theorem parentNotificationEvent_storeArgs (uses : List (κ × Access)) :
    ((storeArgsAndSetPostcondition stream effects stores uses).2 s).parentNotificationEvent =
      (stores s).parentNotificationEvent := by
  induction uses generalizing stores with
  | nil => rfl
  | cons use uses ih =>
      rw [storeArgsAndSetPostcondition, ih]
      by_cases hs : s = use.1
      · subst hs
        rw [Function.update_self, parentNotificationEvent_toTaskArgument]
      · rw [Function.update_of_ne hs]

end Mapping

end Zuku
