import Zuku.Store

/-!
# Deferred tasks

The arguments, preconditions and start of a task as in `task.h`, `task_base.h`
and `defer.h`.  A call of `defer` maps every store argument to a child or a
view, and starts the task after the merged precondition of those.
-/

namespace Zuku

open Event EventPrecondition

/-- What an event of a program of deferred tasks waits for. -/
inductive Completion (ε : Type) where
  | task (id : ℕ)
  | external (e : ε)
  deriving DecidableEq, Repr

inductive Access where
  | read | write
  deriving DecidableEq, Repr

/-- An argument of `defer` by the parameter it is mapped to: `T&`, `const T&`,
`T`, or a vector of stores mapped to references or to constants. -/
inductive Argument (κ : Type) where
  | reference (store : κ)
  | constReference (store : κ)
  | value (store : κ)
  | rwVector (stores : List κ)
  | roVector (stores : List κ)
  deriving Repr

/-- The stores an argument uses, and how. -/
def Argument.uses {κ : Type} : Argument κ → List (κ × Access)
  | .reference store => [(store, .write)]
  | .constReference store => [(store, .read)]
  | .value store => [(store, .read)]
  | .rwVector stores => stores.map fun store ↦ (store, .write)
  | .roVector stores => stores.map fun store ↦ (store, .read)

/-- What a task keeps of a store. -/
inductive StoredArgument (ε β : Type) where
  | child (store : Store ε β)
  | view (view : View ε β)

/-- The parts of a context that the start of a task depends on.  A stream order
comes with the event at which the task returns control. -/
structure DeferContext (ε : Type) where
  after : Option (Event ε) := none
  streamOrdered : Option (Event ε) := none

variable {ε β κ : Type} [DecidableEq ε] [DecidableEq κ]

namespace StoredArgument

def hasPrecondition : StoredArgument ε β → Bool
  | .child store => store.hasPrecondition
  | .view v => v.hasPrecondition

def streamPrecondition : StoredArgument ε β → Event ε
  | .child store => store.streamPrecondition
  | .view v => v.streamPrecondition

def effectsPrecondition : StoredArgument ε β → Event ε
  | .child store => store.effectsPrecondition
  | .view v => v.effectsPrecondition

end StoredArgument

/-- `ToTaskArgument` of one store: a child for a reference, else a view. -/
def toTaskArgument (store : Store ε β) (stream effects : Event ε) :
    Access → StoredArgument ε β × Store ε β
  | .write => (.child (store.childAfter stream effects).1, (store.childAfter stream effects).2)
  | .read => (.view (store.viewAfter stream effects).1, (store.viewAfter stream effects).2)

/-- Map the stores in the order of the arguments. -/
def storeArgsAndSetPostcondition (stream effects : Event ε) :
    (κ → Store ε β) → List (κ × Access) → List (StoredArgument ε β) × (κ → Store ε β)
  | stores, [] => ([], stores)
  | stores, (store, access) :: uses =>
      let (argument, store') := toTaskArgument (stores store) stream effects access
      let (arguments, stores) :=
        storeArgsAndSetPostcondition stream effects (Function.update stores store store') uses
      (argument :: arguments, stores)

/-- With a stream order the stream follows the return of control. -/
def getStreamOrderedEvent (context : DeferContext ε) (effects : Event ε) : Event ε :=
  context.streamOrdered.getD effects

/-- The events of the arguments that have a precondition. -/
def addTaskDependencies (context : DeferContext ε) (arguments : List (StoredArgument ε β)) :
    Finset (Event ε) :=
  ((arguments.filter StoredArgument.hasPrecondition).map fun argument ↦
    if context.streamOrdered.isSome then argument.streamPrecondition
    else argument.effectsPrecondition).toFinset

def mergePreconditions (individualPreconditions : Finset (Event ε)) : Option (Event ε) :=
  if individualPreconditions = ∅ then none else some (individualPreconditions.biUnion id)

/-- The event after which a task starts, from the context and its data. -/
def startPrecondition (context : DeferContext ε) (data : Option (Event ε)) : Event ε :=
  match context.after, data with
  | some after, some precondition => mergeEvents after precondition
  | some after, none => after
  | none, some precondition => precondition
  | none, none => noEvent

/-- A call of `defer` with the body of the task: steps over the values of its
stores, of which it sees those among its arguments and sets those it was given
by reference. -/
structure Call (κ ν σ ε : Type) where
  context : DeferContext (Completion ε) := {}
  args : List (Argument κ)
  init : σ
  body : List (σ → (κ → Option ν) → σ × (κ → Option ν))

namespace Call

variable {ν σ : Type} (call : Call κ ν σ ε)

/-- The stores of all arguments, in order. -/
def uses : List (κ × Access) := call.args.flatMap Argument.uses

def stores : List κ := call.uses.map Prod.fst

def written : List κ := (call.uses.filter fun use ↦ decide (use.2 = .write)).map Prod.fst

/-- One step of the body on the values of all stores. -/
def runStep (f : σ → (κ → Option ν) → σ × (κ → Option ν)) (l : σ) (memory : κ → ν) :
    σ × (κ → ν) :=
  let (l, set) := f l fun store ↦ if store ∈ call.stores then some (memory store) else none
  (l, fun store ↦ if store ∈ call.written then (set store).getD (memory store) else memory store)

end Call

/-! ## Programs -/

/-- The stores of a program and the preconditions of its tasks so far. -/
structure Deferred (κ ε β : Type) where
  stores : κ → Store (Completion ε) β
  preconditions : List (Event (Completion ε)) := []

variable {ν σ : Type}

/-- `_defer`: the task gets the next completion. -/
def defer (deferred : Deferred κ ε β) (call : Call κ ν σ ε) : Deferred κ ε β :=
  let completion : Event (Completion ε) := {.task deferred.preconditions.length}
  let (arguments, stores) := storeArgsAndSetPostcondition
    (getStreamOrderedEvent call.context completion) completion deferred.stores call.uses
  let data := mergePreconditions (addTaskDependencies call.context arguments)
  ⟨stores, deferred.preconditions ++ [startPrecondition call.context data]⟩

def deferAll (deferred : Deferred κ ε β) (program : List (Call κ ν σ ε)) : Deferred κ ε β :=
  program.foldl defer deferred

/-! ## Schedules -/

/-- The values of the stores, the tasks that have started with the number of
their steps and their local state, and the completions that have triggered. -/
structure World (κ ν σ ε : Type) where
  memory : κ → ν
  progress : ℕ → Option (ℕ × σ) := fun _ ↦ none
  triggered : Event (Completion ε) := ∅

inductive Action (ε : Type) where
  | start (task : ℕ)
  | advance (task : ℕ)
  | finish (task : ℕ)
  | external (e : ε)
  deriving Repr

namespace World

/-- A task starts once its whole precondition has triggered. -/
def start (program : List (Call κ ν σ ε)) (preconditions : List (Event (Completion ε)))
    (world : World κ ν σ ε) (task : ℕ) : Option (World κ ν σ ε) :=
  match program[task]?, preconditions[task]?, world.progress task with
  | some call, some precondition, none =>
      if precondition ⊆ world.triggered then
        some { world with progress := Function.update world.progress task (some (0, call.init)) }
      else none
  | _, _, _ => none

def advance (program : List (Call κ ν σ ε)) (world : World κ ν σ ε) (task : ℕ) :
    Option (World κ ν σ ε) := do
  let call ← program[task]?
  let (n, l) ← world.progress task
  let f ← call.body[n]?
  let (l, memory) := call.runStep f l world.memory
  pure { world with
    memory := memory
    progress := Function.update world.progress task (some (n + 1, l)) }

/-- A task completes after the last step of its body. -/
def finish (program : List (Call κ ν σ ε)) (world : World κ ν σ ε) (task : ℕ) :
    Option (World κ ν σ ε) := do
  let call ← program[task]?
  let (n, _) ← world.progress task
  if n = call.body.length then
    some { world with triggered := insert (.task task) world.triggered }
  else none

def step (program : List (Call κ ν σ ε)) (preconditions : List (Event (Completion ε)))
    (world : World κ ν σ ε) : Action ε → Option (World κ ν σ ε)
  | .start task => world.start program preconditions task
  | .advance task => world.advance program task
  | .finish task => world.finish program task
  | .external e => some { world with triggered := insert (.external e) world.triggered }

def run (program : List (Call κ ν σ ε)) (preconditions : List (Event (Completion ε))) :
    World κ ν σ ε → List (Action ε) → Option (World κ ν σ ε)
  | world, [] => some world
  | world, action :: actions => do
      let world ← world.step program preconditions action
      run program preconditions world actions

/-! ## What a step does -/

section Step

variable {program : List (Call κ ν σ ε)} {preconditions : List (Event (Completion ε))}
  {world world' : World κ ν σ ε}

omit [DecidableEq κ] in
theorem start_cases {task : ℕ} (h : world.start program preconditions task = some world') :
    ∃ call precondition, program[task]? = some call ∧
      preconditions[task]? = some precondition ∧ world.progress task = none ∧
      precondition ⊆ world.triggered ∧
      world' = { world with
        progress := Function.update world.progress task (some (0, call.init)) } := by
  rw [start] at h
  split at h
  · rename_i call precondition hcall hprecondition hnone
    split at h
    · exact ⟨call, precondition, hcall, hprecondition, hnone, ‹_›, (Option.some.inj h).symm⟩
    · cases h
  · cases h

omit [DecidableEq ε] in
theorem advance_cases {task : ℕ} (h : world.advance program task = some world') :
    ∃ call n l f, program[task]? = some call ∧ world.progress task = some (n, l) ∧
      call.body[n]? = some f ∧
      world' = { world with
        memory := (call.runStep f l world.memory).2
        progress := Function.update world.progress task
          (some (n + 1, (call.runStep f l world.memory).1)) } := by
  simp only [advance, Option.bind_eq_bind, Option.bind_eq_some_iff, Prod.exists] at h
  obtain ⟨call, hcall, n, l, hprogress, f, hf, hworld⟩ := h
  exact ⟨call, n, l, f, hcall, hprogress, hf, (Option.some.inj hworld).symm⟩

omit [DecidableEq κ] in
theorem finish_cases {task : ℕ} (h : world.finish program task = some world') :
    ∃ call l, program[task]? = some call ∧
      world.progress task = some (call.body.length, l) ∧
      world' = { world with triggered := insert (.task task) world.triggered } := by
  simp only [finish, Option.bind_eq_bind, Option.bind_eq_some_iff, Prod.exists] at h
  obtain ⟨call, hcall, n, l, hprogress, hworld⟩ := h
  split at hworld
  · rename_i hlength
    exact ⟨call, l, hcall, hlength ▸ hprogress, (Option.some.inj hworld).symm⟩
  · cases hworld

end Step

end World

end Zuku
