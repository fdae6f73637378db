import Zuku.Store

/-!
# Futures and their views

The class `Future` of `future.h`.  A future becomes ready with the event of its
producer.  Once it has handed out views, the event of its readers stands in the
place of that one.
-/

namespace Zuku

open Event EventPrecondition

structure Future (ε β : Type) where
  rawPrecondition : Option (Event ε) := none
  warPrecondition : Option (Event ε) := none
  value : Option β := none

variable {ε β : Type} [DecidableEq ε]

namespace Future

variable (future : Future ε β)

def hasPrecondition : Bool := future.rawPrecondition.isSome || future.warPrecondition.isSome

/-- A WAR precondition is taken to be stronger than the RAW precondition. -/
def precondition : Event ε :=
  match future.warPrecondition, future.rawPrecondition with
  | some war, _ => war
  | none, some raw => raw
  | none, none => noEvent

def streamPrecondition : Event ε := future.precondition

def effectsPrecondition : Event ε := future.precondition

/-- Remember a reader. -/
def addReader (ev : Event ε) : Future ε β :=
  { future with
    warPrecondition := some
      (match future.warPrecondition with
      | some war => mergeEvents war ev
      | none => ev) }

def viewPrecondition : Option (EventPrecondition ε) :=
  future.rawPrecondition.map fun raw ↦ ⟨raw, raw⟩

/-- `view()`, where `reader` is the user event created for it: the view and the
future afterwards. -/
def view (reader : ε) : View ε β × Future ε β :=
  ({ precondition := future.viewPrecondition
     warDependency := some reader
     value := future.value }, future.addReader {reader})

/-- `view(ev)`. -/
def viewAfter (ev : Event ε) : View ε β × Future ε β :=
  ({ precondition := future.viewPrecondition, value := future.value }, future.addReader ev)

omit [DecidableEq ε] in
@[simp] theorem effectsOf_viewPrecondition :
    effectsOf future.viewPrecondition = future.rawPrecondition.getD noEvent := by
  rw [viewPrecondition]
  cases future.rawPrecondition <;> rfl

@[simp] theorem rawPrecondition_addReader (ev : Event ε) :
    (future.addReader ev).rawPrecondition = future.rawPrecondition := rfl

/-- After a view has been made only the readers count. -/
@[simp] theorem precondition_addReader (ev : Event ε) :
    (future.addReader ev).precondition = future.warPrecondition.getD noEvent ∪ ev := by
  unfold precondition addReader
  cases future.warPrecondition with
  | none => exact (Finset.empty_union ev).symm
  | some war => rfl

omit [DecidableEq ε] in
theorem precondition_of_warPrecondition_none (h : future.warPrecondition = none) :
    future.precondition = future.rawPrecondition.getD noEvent := by
  rw [precondition, h]
  cases future.rawPrecondition <;> rfl

end Future

theorem Event.mergeAll_concat (events : List (Event ε)) (ev : Event ε) :
    mergeAll (events ++ [ev]) = mergeAll events ∪ ev := by
  ext a
  simp [or_and_right, exists_or]

namespace View

variable (view : View ε β)

/-- `view(ev)` on a view: the subview, which releases nothing, and the view
afterwards. -/
def viewAfter (ev : Event ε) : View ε β × View ε β :=
  ({ precondition := view.precondition, value := view.value }, view.doneAfter ev)

/-- An event that is registered on a view is one more to wait for. -/
@[simp] theorem mergeAll_views_doneAfter (ev : Event ε) :
    mergeAll (view.doneAfter ev).views = mergeAll view.views ∪ ev := mergeAll_concat _ _

end View

end Zuku
