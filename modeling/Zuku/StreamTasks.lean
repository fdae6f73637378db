import Zuku.SequentialTasks

/-!
# Stream-ordered tasks

A stream-ordered task returns control before its work is done: its body puts
kernels on the stream of a device and records an event there (`Stream::Record`,
`Task::dispatch_void`), and `Task::Invoke` then triggers the control event.  A
stream executes what was put on it in order.
-/

namespace Zuku

open Event

/-- The events of a program with stream-ordered tasks that are not completions
of tasks. -/
inductive Released (ε : Type) where
  | control (task : ℕ)
  | outside (e : ε)
  deriving DecidableEq, Repr

/-- How the body of a task is run: without a stream order, or with the
`CpuStream` or the `GpuStream` that the task was given. -/
inductive Dispatch where
  | plain
  | cpuStream
  | gpuStream (stream : ℕ)
  deriving DecidableEq, Repr

def Dispatch.streamOrdered : Dispatch → Bool
  | .plain => false
  | _ => true

/-- A call of `defer`.  The body is a list of kernels; on a CPU they are plain
steps. -/
structure StreamCall (κ ν σ ε : Type) where
  after : Option (Event (Completion (Released ε))) := none
  dispatch : Dispatch
  args : List (Argument κ)
  init : σ
  body : List (σ → (κ → Option ν) → σ × (κ → Option ν))

variable {κ ν σ ε : Type} [DecidableEq κ]

namespace StreamCall

variable (call : StreamCall κ ν σ ε)

/-- `stream_ordered` comes with a control event made for this task. -/
def toCall (task : ℕ) : Call κ ν σ (Released ε) where
  context := {
    after := call.after
    streamOrdered :=
      if call.dispatch.streamOrdered then some {.external (.control task)} else none }
  args := call.args
  init := call.init
  body := call.body

def uses : List (κ × Access) := call.args.flatMap Argument.uses

/-- The kernels of a task, and the event that is recorded after them.  Without a
stream the last entry is the return of the body. -/
def entries : ℕ := call.body.length + 1

end StreamCall

/-- The calls of a program with their control events. -/
def toCalls (program : List (StreamCall κ ν σ ε)) : List (Call κ ν σ (Released ε)) :=
  program.mapIdx fun task call ↦ call.toCall task

/-! ## Schedules -/

/-- How many entries of a task have been launched and executed, and its local
state. -/
structure Progress (σ : Type) where
  launched : ℕ := 0
  executed : ℕ := 0
  state : σ

/-- The values of the stores, the tasks that have started, what is on the
streams, and the completions that have triggered. -/
structure StreamState (κ ν σ ε : Type) where
  memory : κ → ν
  progress : ℕ → Option (Progress σ) := fun _ ↦ none
  queues : ℕ → List ℕ := fun _ ↦ []
  triggered : Event (Completion (Released ε)) := ∅

inductive StreamAction (ε : Type) where
  | start (task : ℕ)
  | launch (task : ℕ)
  | execute (stream : ℕ)
  | returnControl (task : ℕ)
  | finish (task : ℕ)
  | outside (e : ε)
  deriving Repr

namespace StreamState

variable [DecidableEq ε]

/-- A task starts once its whole precondition has triggered. -/
def start (program : List (StreamCall κ ν σ ε))
    (preconditions : List (Event (Completion (Released ε)))) (state : StreamState κ ν σ ε)
    (task : ℕ) : Option (StreamState κ ν σ ε) := do
  let call ← program[task]?
  let precondition ← preconditions[task]?
  if state.progress task = none ∧ precondition ⊆ state.triggered then
    some { state with
      progress := Function.update state.progress task (some { state := call.init }) }
  else none

/-- The next entry of a task: a kernel, or the event after all kernels, which
does nothing to the stores. -/
def perform (call : Call κ ν σ (Released ε)) (task : ℕ) (p : Progress σ)
    (state : StreamState κ ν σ ε) : StreamState κ ν σ ε :=
  match call.body[p.executed]? with
  | some f => { state with
      memory := (call.runStep f p.state state.memory).2
      progress := Function.update state.progress task (some { p with
        executed := p.executed + 1
        state := (call.runStep f p.state state.memory).1 }) }
  | none => { state with
      progress := Function.update state.progress task (some { p with
        executed := p.executed + 1 }) }

/-- The body of a task goes on: it puts its next entry on its stream or, if it
has none, does it itself. -/
def launch (program : List (StreamCall κ ν σ ε)) (state : StreamState κ ν σ ε) (task : ℕ) :
    Option (StreamState κ ν σ ε) := do
  let call ← program[task]?
  let p ← state.progress task
  if p.launched < call.entries then
    match call.dispatch with
    | .gpuStream stream => some { state with
        progress := Function.update state.progress task (some { p with
          launched := p.launched + 1 })
        queues := Function.update state.queues stream (state.queues stream ++ [task]) }
    | _ => some (state.perform (call.toCall task) task { p with launched := p.launched + 1 })
  else none

/-- A stream executes its oldest entry. -/
def execute (program : List (StreamCall κ ν σ ε)) (state : StreamState κ ν σ ε) (stream : ℕ) :
    Option (StreamState κ ν σ ε) :=
  match state.queues stream with
  | [] => none
  | task :: queue => do
      let call ← program[task]?
      let p ← state.progress task
      some (perform (call.toCall task) task p
        { state with queues := Function.update state.queues stream queue })

/-- The body of a stream-ordered task has returned. -/
def returnControl (program : List (StreamCall κ ν σ ε)) (state : StreamState κ ν σ ε)
    (task : ℕ) : Option (StreamState κ ν σ ε) := do
  let call ← program[task]?
  let p ← state.progress task
  if call.dispatch.streamOrdered ∧ p.launched = call.entries then
    some { state with triggered := insert (.external (.control task)) state.triggered }
  else none

/-- A task completes when its body has returned and all its entries have been
executed. -/
def finish (program : List (StreamCall κ ν σ ε)) (state : StreamState κ ν σ ε) (task : ℕ) :
    Option (StreamState κ ν σ ε) := do
  let call ← program[task]?
  let p ← state.progress task
  if p.executed = call.entries ∧ (call.dispatch.streamOrdered →
      .external (.control task) ∈ state.triggered) then
    some { state with triggered := insert (.task task) state.triggered }
  else none

def step (program : List (StreamCall κ ν σ ε))
    (preconditions : List (Event (Completion (Released ε)))) (state : StreamState κ ν σ ε) :
    StreamAction ε → Option (StreamState κ ν σ ε)
  | .start task => state.start program preconditions task
  | .launch task => state.launch program task
  | .execute stream => state.execute program stream
  | .returnControl task => state.returnControl program task
  | .finish task => state.finish program task
  | .outside e =>
      some { state with triggered := insert (.external (.outside e)) state.triggered }

def run (program : List (StreamCall κ ν σ ε))
    (preconditions : List (Event (Completion (Released ε)))) :
    StreamState κ ν σ ε → List (StreamAction ε) → Option (StreamState κ ν σ ε)
  | state, [] => some state
  | state, action :: actions => do
      let state ← state.step program preconditions action
      run program preconditions state actions

end StreamState

end Zuku
