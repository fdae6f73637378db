import Zuku.Promise
import Zuku.StoreUses

/-!
# The token of a deferred task

The function `_defer` of `defer.h` with all kinds of store arguments.  The
event of the token is merged out of the completion of the task, the futures of
its results and the stores among its stored arguments.
-/

namespace Zuku

open Event EventPrecondition

/-- The events that a task has or gets while it is deferred: its completion, the
notification of an open-ended child, the release of an open view and the end of
a store that was moved into the task by the position of the argument, and the
deferred event of a promise. -/
inductive TaskSignal where
  | completion
  | notification (position : ℕ)
  | reader (position : ℕ)
  | moved (position : ℕ)
  | result (i : ℕ)
  deriving DecidableEq, Repr

/-- An argument of `defer` by the parameter it is mapped to: a store to `T&`, or
to `const T&` and `T`; a vector of stores; a store to `Store<T>` and to
`View<T>`; a store that is moved, `std::move(s)`, to `Store<T>`; and a future, a
view or a value with what it waits for. -/
inductive DeferArgument (κ σ β : Type) where
  | store (store : κ) (access : Access)
  | storeVector (stores : List κ) (access : Access)
  | openStore (store : κ)
  | openView (store : κ)
  | moved (store : κ)
  | other (deferredParameter : Bool) (view : View σ β)

/-- The elements of a tuple of stored arguments. -/
inductive StoredElement (σ β : Type) where
  | single (argument : StoredArgument σ β)
  | vector (arguments : List (StoredArgument σ β))

/-- The body returns a value or a future for a result. -/
inductive ResultKind where
  | concrete | deferred
  deriving DecidableEq, Repr

/-- A call of `defer`.  A lambda that returns `void` has no results. -/
structure DeferCall (κ σ β : Type) where
  context : DeferContext σ := {}
  args : List (DeferArgument κ σ β)
  results : Option (List ResultKind) := none

/-- What the constructor of a task makes out of its arguments. -/
structure TaskStart (κ σ β : Type) where
  arguments : List (StoredElement σ β)
  precondition : Event σ
  stores : κ → Store σ β

structure ReturnToken (σ : Type) where
  event : Event σ
  futures : List (Future σ ValueRef)

structure EventBarrier (σ : Type) where
  events : List (Event σ) := []

variable {κ σ β : Type}

/-- `is_deferred` of the parameter. -/
def DeferArgument.isDeferred : DeferArgument κ σ β → Bool
  | .store _ _ => false
  | .storeVector _ _ => false
  | .openStore _ => true
  | .openView _ => true
  | .moved _ => true
  | .other deferredParameter _ => deferredParameter

def StoredArgument.notification : StoredArgument σ β → Option σ
  | .child store => store.parentNotificationEvent
  | .view _ => none

namespace StoredElement

def arguments : StoredElement σ β → List (StoredArgument σ β)
  | single argument => [argument]
  | vector arguments => arguments

def notifications (element : StoredElement σ β) : List σ :=
  element.arguments.filterMap StoredArgument.notification

end StoredElement

variable [DecidableEq κ] [DecidableEq σ]

/-- `ToTaskArgument` of one argument: the stored element and the stores
afterwards. -/
def storeElement (stream effects : Event σ) (signal : TaskSignal → σ) (position : ℕ)
    (stores : κ → Store σ β) : DeferArgument κ σ β → StoredElement σ β × (κ → Store σ β)
  | .store store access =>
      let (argument, store') := toTaskArgument (stores store) stream effects access
      (.single argument, Function.update stores store store')
  | .storeVector vector access =>
      let (arguments, stores) := storeArgsAndSetPostcondition stream effects stores
        (vector.map fun store ↦ (store, access))
      (.vector arguments, stores)
  | .openStore store =>
      let (child, store') := (stores store).child (signal (.notification position))
      (.single (.child child), Function.update stores store store')
  | .openView store =>
      let (view, store') := (stores store).view (signal (.reader position))
      (.single (.view view), Function.update stores store store')
  | .moved store =>
      (.single (.child (stores store)), Function.update stores store (stores store).movedFrom)
  | .other _ view => (.single (.view view), stores)

/-- The elements of the tuple in the order of the arguments, from a position on. -/
def storeElements (stream effects : Event σ) (signal : TaskSignal → σ) :
    ℕ → (κ → Store σ β) → List (DeferArgument κ σ β) →
      List (StoredElement σ β) × (κ → Store σ β)
  | _, stores, [] => ([], stores)
  | position, stores, argument :: arguments =>
      let (element, stores) := storeElement stream effects signal position stores argument
      let (elements, stores) :=
        storeElements stream effects signal (position + 1) stores arguments
      (element :: elements, stores)

namespace DeferCall

/-- The constructor of `Task`, and the precondition that `_defer` makes. -/
def start (call : DeferCall κ σ β) (signal : TaskSignal → σ) (stores : κ → Store σ β) :
    TaskStart κ σ β :=
  let effects : Event σ := {signal .completion}
  let (elements, stores) := storeElements (getStreamOrderedEvent call.context effects) effects
    signal 0 stores call.args
  let data := mergePreconditions
    (addTaskDependencies call.context (elements.flatMap StoredElement.arguments))
  ⟨elements, startPrecondition call.context data, stores⟩

/-- `CreateFuture` of one result.  Its value does not matter here. -/
def createResult (signal : TaskSignal → σ) (i : ℕ) : ResultKind → Future σ ValueRef
  | .concrete => createConcreteFuture {} {signal .completion}
  | .deferred => createDeferredFuture { deferredEvent := some (signal (.result i)) }

/-- `FutureWrappedReturn`. -/
def createFutures (call : DeferCall κ σ β) (signal : TaskSignal → σ) :
    List (Future σ ValueRef) :=
  match call.results with
  | none => [{ rawPrecondition := some {signal .completion} }]
  | some results => results.mapIdx fun i kind ↦ createResult signal i kind

def deferredResults (call : DeferCall κ σ β) : List ℕ :=
  let results := call.results.getD []
  (List.range results.length).filter fun i ↦ results[i]? = some .deferred

end DeferCall

def addRealmEventPrecondition (future : Future σ ValueRef) : List (Event σ) :=
  if future.hasPrecondition then [future.precondition] else []

/-- Of the stored arguments the stores count, with their preconditions. -/
def addRealmEventPostcondition : StoredElement σ β → List (Event σ)
  | .single (.child store) => if store.hasPrecondition then [store.precondition] else []
  | .single (.view _) => []
  | .vector _ => []

/-- `all_effects_done_ev`.  Without deferred parameters and results it is the
completion of the task. -/
def DeferCall.allEffectsDone (call : DeferCall κ σ β) (signal : TaskSignal → σ)
    (elements : List (StoredElement σ β)) : Event σ :=
  if !call.args.any DeferArgument.isDeferred && call.results.isNone then {signal .completion}
  else mergeAll ({signal .completion} ::
    ((call.createFutures signal).flatMap addRealmEventPrecondition ++
      elements.flatMap addRealmEventPostcondition))

namespace EventBarrier

def addPrecondition (barrier : EventBarrier σ) (ev : Event σ) : EventBarrier σ :=
  { barrier with events := barrier.events ++ [ev] }

/-- The event that `Wait` waits for. -/
def waitEvent (barrier : EventBarrier σ) : Event σ := mergeAll barrier.events

end EventBarrier

/-- What a call of `defer` starts and returns. -/
structure DeferOutcome (κ σ β : Type) extends TaskStart κ σ β where
  token : ReturnToken σ
  barrier : Option (EventBarrier σ)

/-- `_defer`, with the barrier given by `sync_to`. -/
def DeferCall.defer (call : DeferCall κ σ β) (signal : TaskSignal → σ)
    (syncTo : Option (EventBarrier σ)) (stores : κ → Store σ β) : DeferOutcome κ σ β :=
  let start := call.start signal stores
  let event := call.allEffectsDone signal start.arguments
  { start with
    token := ⟨event, call.createFutures signal⟩
    barrier := syncTo.map fun barrier ↦ barrier.addPrecondition event }

/-! ## Writers of a store -/

namespace DeferArgument

/-- With which signal of the task its work on a store ends, if it writes it. -/
def writes (signal : TaskSignal → σ) (position : ℕ) (s : κ) : DeferArgument κ σ β → Option σ
  | .store target .write => if target = s then some (signal .completion) else none
  | .storeVector targets .write => if s ∈ targets then some (signal .completion) else none
  | .openStore target => if target = s then some (signal (.notification position)) else none
  | .moved target => if target = s then some (signal (.moved position)) else none
  | _ => none

/-- The store is moved into the task. -/
def moves (s : κ) : DeferArgument κ σ β → Bool
  | .moved target => target = s
  | _ => false

end DeferArgument

/-- The writers of a store among arguments from a position on, up to the one that
it is moved into. -/
def argumentWriters (signal : TaskSignal → σ) (s : κ) :
    ℕ → List (DeferArgument κ σ β) → List σ
  | _, [] => []
  | position, argument :: arguments =>
      (argument.writes signal position s).toList ++
        if argument.moves s then [] else argumentWriters signal s (position + 1) arguments

section Stores

variable {stream effects : Event σ} {signal : TaskSignal → σ} {stores : κ → Store σ β} {s : κ}
  {c : σ}

theorem notification_toTaskArgument (store : Store σ β) (access : Access) :
    (toTaskArgument store stream effects access).1.notification = none := by
  cases access <;> rfl

theorem notification_storeArgs {uses : List (κ × Access)} {argument : StoredArgument σ β}
    (h : argument ∈ (storeArgsAndSetPostcondition stream effects stores uses).1) :
    argument.notification = none := by
  induction uses generalizing stores with
  | nil => exact absurd h List.not_mem_nil
  | cons use uses ih =>
      rw [storeArgsAndSetPostcondition] at h
      rcases List.mem_cons.mp h with rfl | h
      · exact notification_toTaskArgument _ _
      · exact ih h

theorem stores_storeElement_store (position : ℕ) (store : κ) (access : Access) :
    (storeElement stream effects signal position stores (.store store access)).2 =
      Function.update stores store (toTaskArgument (stores store) stream effects access).2 := rfl

theorem stores_storeElement_openStore (position : ℕ) (store : κ) :
    (storeElement stream effects signal position stores (.openStore store)).2 =
      Function.update stores store
        ((stores store).child (signal (.notification position))).2 := rfl

theorem stores_storeElement_openView (position : ℕ) (store : κ) :
    (storeElement stream effects signal position stores (.openView store)).2 =
      Function.update stores store ((stores store).view (signal (.reader position))).2 := rfl

theorem stores_storeElement_moved (position : ℕ) (store : κ) :
    (storeElement stream effects signal position stores (.moved store)).2 =
      Function.update stores store (stores store).movedFrom := rfl

/-- The event of a store collects the signals of its writers. -/
theorem mem_childRwEvent_storeElement (position : ℕ) {argument : DeferArgument κ σ β}
    (hmoves : argument.moves s = false) :
    c ∈ effectsOf
        ((storeElement stream {signal .completion} signal position stores argument).2
          s).childRwEvent ↔
      c ∈ effectsOf (stores s).childRwEvent ∨ argument.writes signal position s = some c := by
  cases argument with
  | store store access =>
      rw [stores_storeElement_store]
      by_cases hs : s = store
      · subst hs
        rw [Function.update_self, mem_childRwEvent_toTaskArgument]
        cases access <;> simp [DeferArgument.writes, eq_comm]
      · rw [Function.update_of_ne hs]
        cases access <;> simp [DeferArgument.writes, Ne.symm hs]
  | storeVector stores access =>
      rw [storeElement, mem_childRwEvent_storeArgs]
      cases access <;> simp [DeferArgument.writes, eq_comm]
  | openStore store =>
      rw [stores_storeElement_openStore]
      by_cases hs : s = store
      · subst hs
        rw [Function.update_self]
        simp [Store.child, DeferArgument.writes, or_comm, eq_comm]
      · rw [Function.update_of_ne hs]
        simp [DeferArgument.writes, Ne.symm hs]
  | openView store =>
      rw [stores_storeElement_openView]
      by_cases hs : s = store
      · subst hs
        rw [Function.update_self]
        simp [Store.view, DeferArgument.writes]
      · rw [Function.update_of_ne hs]
        simp [DeferArgument.writes]
  | moved store =>
      have hs : store ≠ s := of_decide_eq_false hmoves
      rw [stores_storeElement_moved, Function.update_of_ne hs.symm]
      simp [DeferArgument.writes, hs]
  | other deferredParameter view => simp [storeElement, DeferArgument.writes]

/-- A store that stays keeps its parent. -/
theorem parentNotificationEvent_storeElement (position : ℕ) {argument : DeferArgument κ σ β}
    (hmoves : argument.moves s = false) :
    ((storeElement stream effects signal position stores argument).2 s).parentNotificationEvent =
      (stores s).parentNotificationEvent := by
  have hupdate (store : κ) (store' : Store σ β)
      (h : store'.parentNotificationEvent = (stores store).parentNotificationEvent) :
      (Function.update stores store store' s).parentNotificationEvent =
        (stores s).parentNotificationEvent := by
    by_cases hs : s = store
    · subst hs
      rw [Function.update_self, h]
    · rw [Function.update_of_ne hs]
  cases argument with
  | store store access => exact hupdate store _ (parentNotificationEvent_toTaskArgument _ _)
  | storeVector stores access => exact parentNotificationEvent_storeArgs _
  | openStore store => exact hupdate store _ rfl
  | openView store => exact hupdate store _ rfl
  | moved store =>
      have hs : store ≠ s := of_decide_eq_false hmoves
      rw [stores_storeElement_moved, Function.update_of_ne hs.symm]
  | other deferredParameter view => rfl

theorem mem_childRwEvent_storeElements (position : ℕ) {arguments : List (DeferArgument κ σ β)}
    (hmoves : ∀ argument ∈ arguments, argument.moves s = false) :
    c ∈ effectsOf
        ((storeElements stream {signal .completion} signal position stores arguments).2
          s).childRwEvent ↔
      c ∈ effectsOf (stores s).childRwEvent ∨ c ∈ argumentWriters signal s position arguments := by
  induction arguments generalizing position stores with
  | nil => simp [storeElements, argumentWriters]
  | cons argument arguments ih =>
      rw [List.forall_mem_cons] at hmoves
      rw [storeElements, ih _ hmoves.2, mem_childRwEvent_storeElement _ hmoves.1, argumentWriters,
        hmoves.1, if_neg Bool.false_ne_true, List.mem_append, Option.mem_toList, or_assoc]

theorem parentNotificationEvent_storeElements (position : ℕ)
    {arguments : List (DeferArgument κ σ β)}
    (hmoves : ∀ argument ∈ arguments, argument.moves s = false) :
    ((storeElements stream effects signal position stores arguments).2
        s).parentNotificationEvent = (stores s).parentNotificationEvent := by
  induction arguments generalizing position stores with
  | nil => rfl
  | cons argument arguments ih =>
      rw [List.forall_mem_cons] at hmoves
      rw [storeElements, ih _ hmoves.2, parentNotificationEvent_storeElement _ hmoves.1]

/-! ## The tuple of stored arguments -/

theorem getElem?_storeElements {position i : ℕ} {arguments : List (DeferArgument κ σ β)}
    {element : StoredElement σ β}
    (h : (storeElements stream effects signal position stores arguments).1[i]? = some element) :
    ∃ (argument : DeferArgument κ σ β) (stores' : κ → Store σ β),
      arguments[i]? = some argument ∧
        element = (storeElement stream effects signal (position + i) stores' argument).1 := by
  induction arguments generalizing position stores i with
  | nil => simp [storeElements] at h
  | cons argument arguments ih =>
      rw [storeElements] at h
      cases i with
      | zero => exact ⟨argument, stores, rfl, (Option.some.inj h).symm⟩
      | succ i =>
          obtain ⟨argument', stores', hargument, rfl⟩ := ih h
          exact ⟨argument', stores', hargument, by rw [Nat.add_right_comm, Nat.add_assoc]⟩

/-- A child that is moved into a task comes with its parent, with what it was
waiting for and with the writers before the move. -/
theorem exists_element_of_moves {position : ℕ} {arguments : List (DeferArgument κ σ β)} {n : σ}
    (hparent : (stores s).parentNotificationEvent = some n)
    (hmoved : arguments.any (DeferArgument.moves s) = true) :
    ∃ i store, arguments[i]? = some (.moved s) ∧
      (storeElements stream {signal .completion} signal position stores arguments).1[i]? =
        some (.single (.child store)) ∧
      store.parentNotificationEvent = some n ∧
      signal (.moved (position + i)) ∈ argumentWriters signal s position arguments ∧
      ∀ c, c ∈ effectsOf (stores s).childRwEvent ∨
          c ∈ argumentWriters signal s position arguments →
        c = signal (.moved (position + i)) ∨ c ∈ effectsOf store.childRwEvent := by
  induction arguments generalizing position stores with
  | nil => simp at hmoved
  | cons argument arguments ih =>
      cases hmoves : argument.moves s with
      | true =>
          obtain ⟨target, rfl⟩ : ∃ target, argument = .moved target := by
            cases argument with
            | moved target => exact ⟨target, rfl⟩
            | _ => cases hmoves
          obtain rfl : target = s := of_decide_eq_true hmoves
          have hlast : argumentWriters signal target position (.moved target :: arguments) =
              [signal (.moved position)] := by
            simp [argumentWriters, DeferArgument.writes, DeferArgument.moves]
          refine ⟨0, stores target, rfl, rfl, hparent, ?_, fun c hc ↦ ?_⟩
          · rw [hlast]
            exact List.mem_singleton_self _
          · rw [hlast, List.mem_singleton] at hc
            exact hc.symm
      | false =>
          rw [List.any_cons, hmoves, Bool.false_or] at hmoved
          have hparent' : ((storeElement stream {signal .completion} signal position stores
              argument).2 s).parentNotificationEvent = some n :=
            (parentNotificationEvent_storeElement position hmoves).trans hparent
          obtain ⟨i, store, hargument, helement, hstore, hmem, hwriters⟩ :=
            @ih _ (position + 1) hparent' hmoved
          rw [Nat.add_right_comm, Nat.add_assoc] at hmem hwriters
          rw [argumentWriters, hmoves, if_neg Bool.false_ne_true]
          refine ⟨i + 1, store, hargument, helement, hstore, List.mem_append_right _ hmem,
            fun c hc ↦ hwriters c ?_⟩
          rwa [mem_childRwEvent_storeElement position hmoves, or_assoc, ← Option.mem_toList,
            ← List.mem_append]

/-- Only open-ended children have an event of their parent: new ones and those
that are moved. -/
theorem mem_notifications_storeElement {position : ℕ} {argument : DeferArgument κ σ β} {n : σ} :
    n ∈ (storeElement stream effects signal position stores argument).1.notifications ↔
      ((∃ store, argument = .openStore store) ∧ n = signal (.notification position)) ∨
        ∃ store, argument = .moved store ∧ (stores store).parentNotificationEvent = some n := by
  cases argument with
  | store store access =>
      simp [storeElement, StoredElement.notifications, StoredElement.arguments,
        notification_toTaskArgument]
  | storeVector vector access =>
      simp only [storeElement, StoredElement.notifications, StoredElement.arguments,
        List.mem_filterMap, reduceCtorEq, exists_false, false_and, or_self, iff_false]
      rintro ⟨argument, hargument, hn⟩
      rw [notification_storeArgs hargument] at hn
      cases hn
  | openStore store =>
      simp [storeElement, StoredElement.notifications, StoredElement.arguments,
        StoredArgument.notification, Store.child, Store.newChild, eq_comm]
  | openView store =>
      simp [storeElement, StoredElement.notifications, StoredElement.arguments,
        StoredArgument.notification]
  | moved store =>
      simp [storeElement, StoredElement.notifications, StoredElement.arguments,
        StoredArgument.notification, eq_comm]
  | other deferredParameter view =>
      simp [storeElement, StoredElement.notifications, StoredElement.arguments,
        StoredArgument.notification]

end Stores

/-! ## The effects of a task -/

section Effects

variable {call : DeferCall κ σ β} {signal : TaskSignal → σ} {elements : List (StoredElement σ β)}
  {c : σ}

omit [DecidableEq κ] in
theorem completion_mem_allEffectsDone :
    signal .completion ∈ call.allEffectsDone signal elements := by
  rw [DeferCall.allEffectsDone]
  split
  · exact Finset.mem_singleton_self _
  · exact subset_mergeAll List.mem_cons_self (Finset.mem_singleton_self _)

omit [DecidableEq κ] in
theorem precondition_subset_allEffectsDone {future : Future σ ValueRef}
    (hfuture : future ∈ call.createFutures signal) :
    future.precondition ⊆ call.allEffectsDone signal elements := by
  intro c hc
  rw [DeferCall.allEffectsDone]
  split
  · rename_i hvoid
    have hnone : call.results = none := by
      simpa using ((Bool.and_eq_true _ _).mp hvoid).2
    rw [DeferCall.createFutures, hnone] at hfuture
    rw [List.mem_singleton.mp hfuture] at hc
    exact hc
  · have hhas : future.hasPrecondition = true := by
      by_contra hnot
      have hempty : future.rawPrecondition = none ∧ future.warPrecondition = none := by
        simpa [Future.hasPrecondition] using hnot
      simp [Future.precondition, hempty, noEvent] at hc
    have hmem : future.precondition ∈
        (call.createFutures signal).flatMap addRealmEventPrecondition :=
      List.mem_flatMap.mpr ⟨future, hfuture, by simp [addRealmEventPrecondition, hhas]⟩
    exact subset_mergeAll (List.mem_cons_of_mem _ (List.mem_append_left _ hmem)) hc

omit [DecidableEq κ] in
theorem stored_subset_allEffectsDone {argument : DeferArgument κ σ β}
    (hargument : argument ∈ call.args) (hdeferred : argument.isDeferred = true) :
    mergeAll (elements.flatMap addRealmEventPostcondition) ⊆
      call.allEffectsDone signal elements := by
  have hany : call.args.any DeferArgument.isDeferred = true :=
    List.any_eq_true.mpr ⟨argument, hargument, hdeferred⟩
  intro c hc
  obtain ⟨event, hevent, hc⟩ := mem_mergeAll.mp hc
  rw [DeferCall.allEffectsDone, hany, Bool.not_true, Bool.false_and, if_neg Bool.false_ne_true]
  exact mem_mergeAll.mpr
    ⟨event, List.mem_cons_of_mem _ (List.mem_append_right _ hevent), hc⟩

omit [DecidableEq κ] [DecidableEq σ] in
theorem mem_precondition_createFutures {future : Future σ ValueRef}
    (hfuture : future ∈ call.createFutures signal) (hc : c ∈ future.precondition) :
    c = signal .completion ∨ ∃ i ∈ call.deferredResults, c = signal (.result i) := by
  rw [DeferCall.createFutures] at hfuture
  cases hresults : call.results with
  | none =>
      rw [hresults] at hfuture
      rw [List.mem_singleton.mp hfuture] at hc
      exact Or.inl (Finset.mem_singleton.mp hc)
  | some results =>
      rw [hresults] at hfuture
      obtain ⟨i, hi, rfl⟩ := List.mem_mapIdx.mp hfuture
      cases hkind : results[i] with
      | concrete =>
          rw [hkind] at hc
          exact Or.inl (Finset.mem_singleton.mp hc)
      | deferred =>
          rw [hkind] at hc
          refine Or.inr ⟨i, ?_, Finset.mem_singleton.mp hc⟩
          simp [DeferCall.deferredResults, hresults, hi, hkind]

omit [DecidableEq κ] in
/-- The effects are made of nothing else. -/
theorem mem_allEffectsDone (hc : c ∈ call.allEffectsDone signal elements) :
    c = signal .completion ∨ (∃ i ∈ call.deferredResults, c = signal (.result i)) ∨
      c ∈ mergeAll (elements.flatMap addRealmEventPostcondition) := by
  rw [DeferCall.allEffectsDone] at hc
  split at hc
  · exact Or.inl (Finset.mem_singleton.mp hc)
  · obtain ⟨event, hevent, hc⟩ := mem_mergeAll.mp hc
    rcases List.mem_cons.mp hevent with rfl | hevent
    · exact Or.inl (Finset.mem_singleton.mp hc)
    rcases List.mem_append.mp hevent with hevent | hevent
    · obtain ⟨future, hfuture, hevent⟩ := List.mem_flatMap.mp hevent
      rw [addRealmEventPrecondition] at hevent
      split at hevent
      · rw [List.mem_singleton.mp hevent] at hc
        exact (mem_precondition_createFutures hfuture hc).imp_right Or.inl
      · exact absurd hevent List.not_mem_nil
    · exact Or.inr (Or.inr (mem_mergeAll.mpr ⟨event, hevent, hc⟩))

omit [DecidableEq κ] in
theorem result_mem_allEffectsDone {i : ℕ} (hi : i ∈ call.deferredResults) :
    signal (.result i) ∈ call.allEffectsDone signal elements := by
  obtain ⟨hlt, hkind⟩ : i < (call.results.getD []).length ∧
      (call.results.getD [])[i]? = some .deferred := by
    simpa [DeferCall.deferredResults] using hi
  have hfuture : DeferCall.createResult signal i .deferred ∈ call.createFutures signal := by
    rw [DeferCall.createFutures]
    cases hresults : call.results with
    | none => simp [hresults] at hlt
    | some results =>
        rw [hresults, Option.getD_some] at hlt hkind
        obtain ⟨_, hkind⟩ := List.getElem?_eq_some_iff.mp hkind
        exact List.mem_mapIdx.mpr ⟨i, hlt, by rw [hkind]⟩
  exact precondition_subset_allEffectsDone hfuture (Finset.mem_singleton_self _)

/-- A store among the stored arguments counts with all that it waits for. -/
theorem precondition_subset_of_child {store : Store σ β}
    (h : .single (.child store) ∈ elements) :
    store.precondition ⊆ mergeAll (elements.flatMap addRealmEventPostcondition) := by
  intro c hc
  have hhas : store.hasPrecondition = true := by
    by_contra hnot
    have hempty : store.warPrecondition = none ∧ store.childRwEvent = none := by
      simpa [Store.hasPrecondition] using hnot
    simp [Store.precondition, hempty, noEvent] at hc
  refine mem_mergeAll.mpr ⟨store.precondition, List.mem_flatMap.mpr ⟨_, h, ?_⟩, hc⟩
  rw [addRealmEventPostcondition, if_pos hhas]
  exact List.mem_singleton_self _

end Effects

end Zuku
