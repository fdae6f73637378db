import Zuku.Future

/-!
# Promises and the values of futures

The functions of `promise.h`, and how futures and views read their values.
Promises, futures and views share heap cells: a cell for a value that a task
will write, or a cell with the future of a task that will return one.
-/

namespace Zuku

open Event

/-- The alternatives of a `Future<T>::Value`: a pointer to another future, to an
optional value or to the value of a store. -/
inductive ValueRef where
  | future (cell : ℕ)
  | optional (cell : ℕ)
  | stored (cell : ℕ)
  deriving DecidableEq, Repr

inductive ReadFault where
  | nullPointer
  | badOptionalAccess
  | badVariantAccess
  | undefinedValue
  | outOfFuel
  | runtimeError (what : String)
  deriving DecidableEq, Repr

/-- The cells that pointers share.  A future without a value holds a null
pointer to another future. -/
structure Heap (ε ν : Type) where
  futures : List (Future ε ValueRef) := []
  optionals : List (Option ν) := []
  stores : List ν := []

/-- A promise holds a pointer to a future or to an optional value. -/
structure Promise (ε : Type) where
  deferredEvent : Option ε := none
  value : Option ValueRef := none

/-- Values are read by reference or moved out. -/
inductive ValueCategory where
  | byReference | byMove
  deriving DecidableEq, Repr

variable {ε ν : Type}

namespace Heap

/-- `CreateEmptyShared`: a new future without a value. -/
def createEmptyShared (heap : Heap ε ν) : ℕ × Heap ε ν :=
  (heap.futures.length, { heap with futures := heap.futures ++ [{}] })

/-- A new optional without a value. -/
def makeOptional (heap : Heap ε ν) : ℕ × Heap ε ν :=
  (heap.optionals.length, { heap with optionals := heap.optionals ++ [none] })

/-- `value()` of an optional, or the unchecked move out of one. -/
def readOptional (heap : Heap ε ν) (category : ValueCategory) (cell : ℕ) : Except ReadFault ν :=
  match heap.optionals[cell]?, category with
  | some (some value), _ => .ok value
  | some none, .byReference => .error .badOptionalAccess
  | some none, .byMove => .error .undefinedValue
  | none, _ => .error .nullPointer

/-- `get_value`, with at most `fuel` futures on the way. -/
def getValue (heap : Heap ε ν) (category : ValueCategory) :
    ℕ → Option ValueRef → Except ReadFault ν
  | _, none => .error .nullPointer
  | _, some (.optional cell) => heap.readOptional category cell
  | _, some (.stored _) => .error .badVariantAccess
  | 0, some (.future _) => .error .outOfFuel
  | fuel + 1, some (.future cell) =>
      match heap.futures[cell]? with
      | some future => getValue heap category fuel future.value
      | none => .error .nullPointer

end Heap

/-- `get_value`.  A way through the futures without a cycle meets each at most once. -/
def Future.getValue (future : Future ε ValueRef) (heap : Heap ε ν) (category : ValueCategory) :
    Except ReadFault ν :=
  heap.getValue category heap.futures.length future.value

/-- `value` of a view. -/
def View.readValue (view : View ε ValueRef) (heap : Heap ε ν) : Except ReadFault ν :=
  match view.value with
  | none | some (.future _) =>
      .error (.runtimeError "cannot get value from View with unresolved Future")
  | some (.stored cell) =>
      match heap.stores[cell]? with
      | some value => .ok value
      | none => .error .nullPointer
  | some (.optional cell) => heap.readOptional .byReference cell

def Future.hasDeferredValue {ε : Type} (future : Future ε ValueRef) : Bool :=
  match future.value with
  | none | some (.future _) => true
  | _ => false

/-- `shared_value`. -/
def Future.sharedValue (future : Future ε ValueRef) : Except ReadFault ValueRef :=
  match future.value with
  | some (.optional cell) => .ok (.optional cell)
  | _ => .error .badVariantAccess

/-! ## Promises -/

namespace Promise

/-- A promise that another future will fulfil. -/
def deferred (deferredEvent : ε) (heap : Heap ε ν) : Promise ε × Heap ε ν :=
  let (cell, heap) := heap.createEmptyShared
  (⟨some deferredEvent, some (.future cell)⟩, heap)

/-- A promise of a value. -/
def concrete (heap : Heap ε ν) : Promise ε × Heap ε ν :=
  let (cell, heap) := heap.makeOptional
  (⟨none, some (.optional cell)⟩, heap)

/-- `emplace` of a value. -/
def emplace (promise : Promise ε) (value : ν) (heap : Heap ε ν) : Except ReadFault (Heap ε ν) :=
  match promise.value with
  | some (.optional cell) =>
      .ok { heap with optionals := heap.optionals.set cell (some value) }
  | _ => .error .badVariantAccess

/-- `emplace` of a pointer to a future redirects the promise only. -/
def emplaceFuture (promise : Promise ε) (deferred : Option ValueRef) : Promise ε :=
  { promise with value := deferred }

/-- `emplace` of a pointer to an optional redirects the future that the promise
points to. -/
def emplaceOptional (promise : Promise ε) (value : ValueRef) (heap : Heap ε ν) :
    Except ReadFault (Heap ε ν) :=
  match promise.value with
  | some (.future cell) =>
      match heap.futures[cell]? with
      | some future =>
          .ok { heap with futures := heap.futures.set cell { future with value := some value } }
      | none => .error .nullPointer
  | _ => .error .badVariantAccess

/-- `FulfillPromise` with a future: the promise and the heap afterwards, and the
trigger of the deferred event. -/
def fulfill [DecidableEq ε] (promise : Promise ε) (future : Future ε ValueRef) (heap : Heap ε ν) :
    Except ReadFault (Promise ε × Heap ε ν × (ε × Event ε)) :=
  match promise.deferredEvent with
  | none => .error (.runtimeError
      "fulfilling promise with future, but promise has no defer sync event")
  | some deferredEvent =>
      if future.hasPrecondition then
        if future.hasDeferredValue then
          .ok (promise.emplaceFuture future.value, heap, (deferredEvent, future.precondition))
        else do
          let value ← future.sharedValue
          let heap ← promise.emplaceOptional value heap
          pure (promise, heap, (deferredEvent, future.precondition))
      else .error (.runtimeError
        "fulfilling promise with future, but future has no precondition")

end Promise

section Fulfill

variable [DecidableEq ε] {promise : Promise ε} {future : Future ε ValueRef} {heap : Heap ε ν}
  {deferredEvent : ε} {ev : Event ε} {cell : ℕ}

/-- A promise that is fulfilled with a future that is still deferred points to
the cell of that one; the cell of its own future stays as it is. -/
theorem Promise.fulfill_deferred (hdeferred : promise.deferredEvent = some deferredEvent)
    (hraw : future.rawPrecondition = some ev) (hwar : future.warPrecondition = none)
    (hvalue : future.value = some (.future cell)) :
    promise.fulfill future heap =
      .ok ({ promise with value := some (.future cell) }, heap, (deferredEvent, ev)) := by
  have hready : future.hasPrecondition = true := by simp [Future.hasPrecondition, hraw]
  have hhas : future.hasDeferredValue = true := by simp [Future.hasDeferredValue, hvalue]
  have hpre : future.precondition = ev := by simp [Future.precondition, hraw, hwar]
  simp only [Promise.fulfill, hdeferred, hready, hhas, hpre, Promise.emplaceFuture, hvalue,
    if_true]

/-- A promise that is fulfilled with a future of a value redirects the cell of
its own future to the value. -/
theorem Promise.fulfill_concrete (hdeferred : promise.deferredEvent = some deferredEvent)
    (hraw : future.rawPrecondition = some ev) (hwar : future.warPrecondition = none)
    (hvalue : future.value = some (.optional cell)) {own : ℕ} {old : Future ε ValueRef}
    (hown : promise.value = some (.future own)) (hold : heap.futures[own]? = some old) :
    promise.fulfill future heap = .ok (promise,
      { heap with futures := heap.futures.set own { old with value := some (.optional cell) } },
      (deferredEvent, ev)) := by
  have hready : future.hasPrecondition = true := by simp [Future.hasPrecondition, hraw]
  have hhas : future.hasDeferredValue = false := by simp [Future.hasDeferredValue, hvalue]
  have hpre : future.precondition = ev := by simp [Future.precondition, hraw, hwar]
  have hshared : future.sharedValue = .ok (.optional cell) := by
    simp [Future.sharedValue, hvalue]
  have hemplace : promise.emplaceOptional (.optional cell) heap = .ok { heap with
      futures := heap.futures.set own { old with value := some (.optional cell) } } := by
    simp [Promise.emplaceOptional, hown, hold]
  simp only [Promise.fulfill, hdeferred, hready, hhas, hpre, hshared, if_true]
  rw [if_neg Bool.false_ne_true]
  change (promise.emplaceOptional (.optional cell) heap).bind _ = _
  rw [hemplace]
  rfl

end Fulfill

/-- `CreateFuture` for a task that returns a future. -/
def createDeferredFuture (promise : Promise ε) : Future ε ValueRef where
  rawPrecondition := promise.deferredEvent.map fun ev ↦ {ev}
  value := promise.value

/-- `CreateFuture` for a task that returns a value. -/
def createConcreteFuture (promise : Promise ε) (ev : Event ε) : Future ε ValueRef where
  rawPrecondition := some ev
  value := promise.value

end Zuku
