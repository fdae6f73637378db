import Zuku.CreatedArray
import Zuku.InstanceCache
import Zuku.RenamedTasks

/-!
# Moving arrays between memories

The three overloads of `ShardedArray::MoveToMemory`, and programs that get
arrays from caches, move them, use them in tasks and free them into caches.  A
move enqueues a copy between the tiles of two stores, after everything that uses
either of them, and gives the destination the id of the source.
-/

namespace Zuku

open Checked Event

/-- The coordinates of `inner` are coordinates of `outer`. -/
def RealmShape.within (inner outer : RealmShape) : Bool :=
  decide (inner.rank = outer.rank) && decide (List.Forall₂
    (fun a b : ℤ × ℤ ↦ b.1 ≤ a.1 ∧ a.2 ≤ b.2) inner.bounds outer.bounds)

/-- An instance can be copied into one that has room for its bounds, with fields
of the same size. -/
def ArrayTile.fits (src dst : ArrayTile) : Bool :=
  decide (supportedTypeSizeOf src.shape.type = supportedTypeSizeOf dst.shape.type) &&
    src.shape.bounds.within dst.shape.bounds

/-- The elements inside the bounds, and those that were there outside of them. -/
def copyElements {α : Type} (bounds : RealmShape) (src dst : List ℤ → α) (point : List ℤ) : α :=
  if bounds.Contains point then src point else dst point

variable {κ ι α σ ε : Type}

/-- What a copy does to the values of the two stores. -/
def copyStep (bounds : RealmShape) (src dst : ℕ) (l : σ) (seen : ℕ → Option (List ℤ → α)) :
    σ × (ℕ → Option (List ℤ → α)) :=
  (l, fun store ↦
    if store = dst then (seen src).bind fun a ↦ (seen dst).map (copyElements bounds a) else none)

/-- The copy between two stores as a task that updates both. -/
def copyCall [Inhabited σ] (bounds : RealmShape) (src dst : ℕ)
    (precondition : Option (Event (Completion ε))) : Call ℕ (List ℤ → α) σ ε where
  context := { after := precondition }
  args := if src = dst then [.reference src] else [.reference src, .reference dst]
  init := default
  body := [copyStep bounds src dst]

/-- The answer of the factory of a cache: an array, which is ready after an
event if it has a tile. -/
structure MadeArray (ε : Type) where
  array : CreatedArray
  createEvent : Event (Completion ε)

def MadeArray.store (made : MadeArray ε) : Store (Completion ε) CreatedArray :=
  if made.array.hasTile then Store.deferredCreate made.createEvent made.array
  else Store.create made.array

/-- The stores of a process and what was handed to Realm to use them, the caches,
and the stores that the variables of the program hold. -/
structure ManagedArrays (κ ι α σ ε : Type) where
  deferred : Deferred ℕ ε CreatedArray := ⟨fun _ ↦ {}, []⟩
  issued : List (Call ℕ (List ℤ → α) σ ε) := []
  numStores : ℕ := 0
  caches : ι → InstanceCache ShardedShape ℕ := fun _ ↦ {}
  held : κ → Option ℕ := fun _ ↦ none

namespace ManagedArrays

variable (arrays : ManagedArrays κ ι α σ ε)

def value (store : ℕ) : Option CreatedArray := (arrays.deferred.stores store).value

def reassignId (store : ℕ) (id : UInt64) : ManagedArrays κ ι α σ ε :=
  let reassigned := (arrays.value store).map fun array ↦ { array with meshUniqueId := id }
  { arrays with
    deferred.stores := Function.update arrays.deferred.stores store
      ({ arrays.deferred.stores store with value := reassigned }) }

/-- A store that a cache has handed out.  The factory makes the next one. -/
def adopt (store : ℕ) (made : MadeArray ε) : ManagedArrays κ ι α σ ε :=
  if store = arrays.numStores then
    { arrays with
      deferred.stores := Function.update arrays.deferred.stores store made.store
      numStores := arrays.numStores + 1 }
  else arrays

variable [DecidableEq ε]

/-- A task takes the next completion. -/
def issue (call : Call ℕ (List ℤ → α) σ ε) : ManagedArrays κ ι α σ ε :=
  { arrays with
    deferred := Zuku.defer arrays.deferred call
    issued := arrays.issued ++ [call] }

/-- The copy of `MoveToMemory`, and the events of the two stores. -/
def copyTile [Inhabited σ] (bounds : RealmShape) (src dst : ℕ)
    (precondition : Option (Event (Completion ε))) : ManagedArrays κ ι α σ ε :=
  let stores := arrays.deferred.stores
  let combinedPrecondition := mergeAll
    [(stores src).precondition, (stores dst).precondition, precondition.getD noEvent]
  let postcondition : Event (Completion ε) := {.task arrays.deferred.preconditions.length}
  let stores :=
    Function.update stores src ((stores src).readyAfter postcondition postcondition)
  let stores :=
    Function.update stores dst ((stores dst).readyAfter postcondition postcondition)
  { arrays with
    deferred := ⟨stores, arrays.deferred.preconditions ++ [combinedPrecondition]⟩
    issued := arrays.issued ++ [copyCall bounds src dst precondition] }

/-- `MoveToMemory(src, dst, precondition)`. -/
def moveToMemory [Inhabited σ] (src dst : ℕ) (precondition : Option (Event (Completion ε))) :
    Exec (ManagedArrays κ ι α σ ε) := do
  let srcArray ← optionalValue (arrays.value src)
  let dstArray ← optionalValue (arrays.value dst)
  let arrays ← whenSome srcArray.array arrays fun srcTile ↦ do
    let dstTile ← optionalValue dstArray.array
    if srcTile.fits dstTile then
      pure (arrays.copyTile srcTile.shape.bounds src dst precondition)
    else throw .outOfRange
  pure (arrays.reassignId dst srcArray.meshUniqueId)

variable [DecidableEq ι]

def getFromCache (cache : ι) (shape : ShardedShape) (minCacheSize : Option ℕ)
    (made : MadeArray ε) : Exec (ℕ × ManagedArrays κ ι α σ ε) := do
  let (store, cache') ← (arrays.caches cache).get shape minCacheSize arrays.numStores
  let arrays := { arrays with caches := Function.update arrays.caches cache cache' }
  pure (store, arrays.adopt store made)

def freeIntoCache (cache : ι) (shape : ShardedShape) (store : ℕ) : ManagedArrays κ ι α σ ε :=
  { arrays with
    caches := Function.update arrays.caches cache ((arrays.caches cache).free shape store) }

/-- `MoveToMemory(src, cache, precondition)`: the new array and the state. -/
def moveToCache [Inhabited σ] (src : ℕ) (cache : ι)
    (precondition : Option (Event (Completion ε))) (made : MadeArray ε) :
    Exec (ℕ × ManagedArrays κ ι α σ ε) := do
  let srcArray ← optionalValue (arrays.value src)
  let (newArray, arrays) ← arrays.getFromCache cache srcArray.shape none made
  let arrays ← arrays.moveToMemory src newArray precondition
  pure (newArray, arrays)

/-- `MoveToMemory(src, save_array_cache, new_array_cache, precondition)`. -/
def moveBetweenCaches [Inhabited σ] (src : ℕ) (saveCache newCache : ι)
    (precondition : Option (Event (Completion ε))) (made : MadeArray ε) :
    Exec (ℕ × ManagedArrays κ ι α σ ε) := do
  let (newArray, arrays) ← arrays.moveToCache src newCache precondition made
  let srcArray ← optionalValue (arrays.value src)
  pure (newArray, arrays.freeIntoCache saveCache srcArray.shape src)

end ManagedArrays

/-! ## Programs -/

/-- What a program does with its variables.  The new array of a move is assigned
to `dst`. -/
inductive ArrayCommand (κ ι α σ ε : Type) where
  | get (var : κ) (cache : ι) (shape : ShardedShape) (minCacheSize : Option ℕ)
      (made : MadeArray ε)
  | defer (call : Call κ (List ℤ → α) σ ε)
  | move (src dst : κ) (precondition : Option (Event (Completion ε)))
  | moveToCache (src dst : κ) (cache : ι) (precondition : Option (Event (Completion ε)))
      (made : MadeArray ε)
  | moveBetweenCaches (src dst : κ) (saveCache newCache : ι)
      (precondition : Option (Event (Completion ε))) (made : MadeArray ε)
  | free (var : κ) (cache : ι) (shape : ShardedShape)
  | clear (cache : ι)

namespace ManagedArrays

variable [DecidableEq κ] [DecidableEq ι] [DecidableEq ε] [Inhabited σ]

def assign (arrays : ManagedArrays κ ι α σ ε) (var : κ) (store : ℕ) : ManagedArrays κ ι α σ ε :=
  { arrays with held := Function.update arrays.held var (some store) }

/-- The variable is moved from. -/
def release (arrays : ManagedArrays κ ι α σ ε) (var : κ) : ManagedArrays κ ι α σ ε :=
  { arrays with held := Function.update arrays.held var none }

variable (arrays : ManagedArrays κ ι α σ ε)

def step : ArrayCommand κ ι α σ ε → Exec (ManagedArrays κ ι α σ ε)
  | .get var cache shape minCacheSize made => do
      let (store, arrays) ← arrays.getFromCache cache shape minCacheSize made
      pure (arrays.assign var store)
  | .defer call =>
      if call.stores.all fun var ↦ (arrays.held var).isSome then
        pure (arrays.issue (call.rename fun var ↦ (arrays.held var).getD 0))
      else throw .badOptionalAccess
  | .move src dst precondition => do
      let srcStore ← optionalValue (arrays.held src)
      let dstStore ← optionalValue (arrays.held dst)
      arrays.moveToMemory srcStore dstStore precondition
  | .moveToCache src dst cache precondition made => do
      let srcStore ← optionalValue (arrays.held src)
      let (newArray, arrays) ← arrays.moveToCache srcStore cache precondition made
      pure (arrays.assign dst newArray)
  | .moveBetweenCaches src dst saveCache newCache precondition made => do
      let srcStore ← optionalValue (arrays.held src)
      let (newArray, arrays) ←
        (arrays.release src).moveBetweenCaches srcStore saveCache newCache precondition made
      pure (arrays.assign dst newArray)
  | .free var cache shape => do
      let store ← optionalValue (arrays.held var)
      pure ((arrays.release var).freeIntoCache cache shape store)
  | .clear cache =>
      pure { arrays with
        caches := Function.update arrays.caches cache (arrays.caches cache).clear }

def run : ManagedArrays κ ι α σ ε → List (ArrayCommand κ ι α σ ε) →
    Exec (ManagedArrays κ ι α σ ε)
  | arrays, [] => pure arrays
  | arrays, command :: commands => do
      let arrays ← arrays.step command
      run arrays commands

end ManagedArrays

end Zuku
