import Zuku.Event

/-!
# Stores and their views

The class `Store` of `store.h` and the views it hands out.  A store keeps an
event of the writers given out so far (`childRwEvent`) and one of the readers
since the last writer (`warPrecondition`), each for the order of a stream and
for the effects.  Realm events are plain handles, so a moved-from event is
unchanged.
-/

namespace Zuku

open Event

structure EventPrecondition (ε : Type) where
  stream : Event ε
  effects : Event ε
  deriving DecidableEq

namespace EventPrecondition

variable {ε : Type} [DecidableEq ε]

/-- Merge new events into an optional precondition. -/
def merge (precondition : Option (EventPrecondition ε)) (stream effects : Event ε) :
    EventPrecondition ε :=
  match precondition with
  | some p => ⟨mergeEvents stream p.stream, mergeEvents effects p.effects⟩
  | none => ⟨stream, effects⟩

/-- The effects of an optional precondition. -/
def effectsOf (precondition : Option (EventPrecondition ε)) : Event ε :=
  match precondition with
  | some p => p.effects
  | none => noEvent

omit [DecidableEq ε] in
@[simp] theorem effectsOf_none : effectsOf (none : Option (EventPrecondition ε)) = noEvent := rfl

omit [DecidableEq ε] in
@[simp] theorem effectsOf_some (p : EventPrecondition ε) : effectsOf (some p) = p.effects := rfl

@[simp] theorem effectsOf_merge (precondition : Option (EventPrecondition ε))
    (stream effects : Event ε) :
    (merge precondition stream effects).effects = effects ∪ effectsOf precondition := by
  cases precondition with
  | none => exact (Finset.union_empty effects).symm
  | some p => rfl

end EventPrecondition

open EventPrecondition

/-- A read-only handle of a value. -/
structure View (ε β : Type) where
  precondition : Option (EventPrecondition ε) := none
  warDependency : Option ε := none
  views : List (Event ε) := []
  value : Option β := none

/-- `parentNotificationEvent` and the readers of open views are user events. -/
structure Store (ε β : Type) where
  hasParent : Bool := false
  parentNotificationEvent : Option ε := none
  childRwEvent : Option (EventPrecondition ε) := none
  warPrecondition : Option (EventPrecondition ε) := none
  value : Option β := none

variable {ε β : Type} [DecidableEq ε]

namespace View

variable (view : View ε β)

def hasPrecondition : Bool := view.precondition.isSome

def streamPrecondition : Event ε :=
  match view.precondition with
  | some p => p.stream
  | none => noEvent

def effectsPrecondition : Event ε := effectsOf view.precondition

/-- Moving a view leaves the events of its subviews behind. -/
def moved : View ε β := { view with views := [] }

/-- Treat an event as a subview. -/
def doneAfter (ev : Event ε) : View ε β := { view with views := view.views ++ [ev] }

/-- `view()`, where `viewReleaseEvent` is the user event created for it: the
subview and the view afterwards. -/
def subview (viewReleaseEvent : ε) : View ε β × View ε β :=
  ({ precondition := view.precondition
     warDependency := some viewReleaseEvent
     value := view.value }, view.doneAfter {viewReleaseEvent})

/-- `~View` triggers its reader event once all subviews have been released. -/
def destroy : Option (ε × Event ε) :=
  view.warDependency.map fun reader ↦ (reader, mergeAll view.views)

end View

namespace Store

def create (value : β) : Store ε β := { value := some value }

def deferredCreate (createEvent : Event ε) (value : β) : Store ε β :=
  { childRwEvent := some ⟨createEvent, createEvent⟩, value := some value }

variable (store : Store ε β)

def hasPrecondition : Bool := store.warPrecondition.isSome || store.childRwEvent.isSome

def precondition : Event ε :=
  match store.warPrecondition, store.childRwEvent with
  | some war, some rw => mergeEvents war.effects rw.effects
  | some war, none => war.effects
  | none, some rw => rw.effects
  | none, none => noEvent

def streamPrecondition : Event ε :=
  match store.warPrecondition, store.childRwEvent with
  | some war, some rw => mergeEvents war.stream rw.stream
  | some war, none => war.stream
  | none, some rw => rw.stream
  | none, none => noEvent

def effectsPrecondition : Event ε := store.precondition

/-- The next writers wait for these events and for the writers before; the
readers so far are forgotten. -/
def readyAfter (stream effects : Event ε) : Store ε β :=
  { store with
    childRwEvent := some (merge store.childRwEvent stream effects)
    warPrecondition := none }

/-- The child that `child` makes out of a store before it is changed. -/
def newChild (parentNotificationEvent : Option ε) : Store ε β where
  hasParent := true
  parentNotificationEvent := parentNotificationEvent
  childRwEvent := store.childRwEvent
  warPrecondition := store.warPrecondition
  value := store.value

/-- `child(stream, effects)`: the child and the store afterwards. -/
def childAfter (stream effects : Event ε) : Store ε β × Store ε β :=
  (store.newChild none, store.readyAfter stream effects)

/-- `child()`, where `newChildEvent` is the user event created for it. -/
def child (newChildEvent : ε) : Store ε β × Store ε β :=
  (store.newChild (some newChildEvent), store.readyAfter {newChildEvent} {newChildEvent})

/-- Remember a reader. -/
def addReader (stream effects : Event ε) : Store ε β :=
  { store with
    warPrecondition := some
      (match store.warPrecondition with
      | some war => ⟨mergeEvents war.stream stream, mergeEvents war.effects effects⟩
      | none => ⟨stream, effects⟩) }

def unsafeView : View ε β := { precondition := store.childRwEvent, value := store.value }

/-- `view(stream, effects)`: the view and the store afterwards. -/
def viewAfter (stream effects : Event ε) : View ε β × Store ε β :=
  (store.unsafeView, store.addReader stream effects)

/-- `view()`, where `reader` is the user event created for it. -/
def view (reader : ε) : View ε β × Store ε β :=
  ({ store.unsafeView with warDependency := some reader }, store.addReader {reader} {reader})

/-- The event that `Wait` waits for. -/
def waitEvent : Event ε :=
  mergeEvents (effectsOf store.childRwEvent) (effectsOf store.warPrecondition)

/-- The store after `Wait`. -/
def wait : Store ε β := { store with childRwEvent := none, warPrecondition := none }

/-- What a move construction or a move assignment leaves behind: the event of
the readers is copied only. -/
def movedFrom : Store ε β :=
  { store with parentNotificationEvent := none, childRwEvent := none, value := none }

/-- What `~Store` does: the notification of the parent with its event, the
event after which the instances are deleted, and the event after which the
value is released. -/
structure Destruction (ε : Type) where
  notification : Option (ε × Event ε)
  deletion : Option (Event ε)
  release : Option (Event ε)

/-- `~Store`, for a value with or without `DeferredDeleteInstances`. -/
def destroy (hasDeferredDeleteInstances : Bool) : Destruction ε where
  notification := store.parentNotificationEvent.map fun notification ↦
    (notification, effectsOf store.childRwEvent)
  deletion :=
    if hasDeferredDeleteInstances ∧ ¬store.hasParent ∧ store.value.isSome ∧ store.hasPrecondition
    then some store.precondition else none
  release := if store.value.isSome then store.childRwEvent.map EventPrecondition.effects else none

/-! ## Effects -/

@[simp] theorem effectsPrecondition_eq :
    store.effectsPrecondition =
      effectsOf store.warPrecondition ∪ effectsOf store.childRwEvent := by
  rw [effectsPrecondition, precondition]
  cases store.warPrecondition <;> cases store.childRwEvent <;> simp [mergeEvents, noEvent]

@[simp] theorem effectsOf_childRwEvent_readyAfter (stream effects : Event ε) :
    effectsOf (store.readyAfter stream effects).childRwEvent =
      effects ∪ effectsOf store.childRwEvent := effectsOf_merge _ _ _

@[simp] theorem warPrecondition_readyAfter (stream effects : Event ε) :
    (store.readyAfter stream effects).warPrecondition = none := rfl

@[simp] theorem effectsOf_warPrecondition_addReader (stream effects : Event ε) :
    effectsOf (store.addReader stream effects).warPrecondition =
      effectsOf store.warPrecondition ∪ effects := by
  rw [addReader]
  cases store.warPrecondition with
  | none => exact (Finset.empty_union effects).symm
  | some war => rfl

@[simp] theorem childRwEvent_addReader (stream effects : Event ε) :
    (store.addReader stream effects).childRwEvent = store.childRwEvent := rfl

theorem precondition_eq :
    store.precondition = effectsOf store.warPrecondition ∪ effectsOf store.childRwEvent :=
  store.effectsPrecondition_eq

theorem precondition_addReader (stream effects : Event ε) :
    (store.addReader stream effects).precondition = store.precondition ∪ effects := by
  rw [precondition_eq, precondition_eq, effectsOf_warPrecondition_addReader,
    childRwEvent_addReader, Finset.union_right_comm]

/-- After `ReadyAfter` the readers so far do not count. -/
theorem precondition_readyAfter (stream effects : Event ε) :
    (store.readyAfter stream effects).precondition =
      effects ∪ effectsOf store.childRwEvent := by
  rw [precondition_eq, effectsOf_childRwEvent_readyAfter, warPrecondition_readyAfter]
  exact Finset.empty_union _

end Store

end Zuku
