import Zuku.ReshardHandover
import Zuku.SequentialTasks
import Zuku.GatherShards
import Zuku.Library.PhasedJobs

/-!
# Control replication

Every processor runs the program of a single controller.  Of the tasks across a
list of devices a processor starts the one for its own tiles, and of a reshard it
makes the calls for them.  The tasks and the copies of all processors then run
concurrently, each after the precondition that its processor has worked out
alone.
-/

namespace Zuku

open Event EventPrecondition Checked

variable {κ α σ ε : Type}

/-- `across(devices).if_on(p).defer` of a task on the tiles of `p`, or `Reshard`. -/
inductive Command (κ α σ ε : Type) where
  | across (devices : DeviceList) (call : Processor → Call κ (List ℤ → α) σ ε)
  | reshard (src dst : κ)

/-- What a command comes to on one processor. -/
inductive Launch (κ ε : Type) where
  | skipped
  | task (precondition : Event (ArraySignal ε))
  | reshard (src dst : κ) (state : ReshardState ε)

/-- The events of a context among those of the arrays. -/
def DeferContext.ofTasks [DecidableEq ε] (context : DeferContext (Completion ε)) :
    DeferContext (ArraySignal (Completion ε)) where
  after := context.after.map (Finset.image ArraySignal.external)
  streamOrdered := context.streamOrdered.map (Finset.image ArraySignal.external)

/-! ## Tasks on arrays -/

namespace Arrays

variable [DecidableEq κ] [DecidableEq ε]

/-- `ToTaskArgument` of one store; the task is registered as its writer or reader. -/
def toTaskArgument (arrays : Arrays κ ε) (stream effects : Event (ArraySignal ε)) (store : κ) :
    Access → StoredArgument (ArraySignal ε) ShardedArray × Arrays κ ε
  | .write =>
      let (argument, store') := Zuku.toTaskArgument (arrays.stores store) stream effects .write
      (argument, arrays.write store store' effects)
  | .read =>
      let (argument, store') := Zuku.toTaskArgument (arrays.stores store) stream effects .read
      (argument, arrays.read store store' effects)

def storeArgsAndSetPostcondition (stream effects : Event (ArraySignal ε)) :
    Arrays κ ε → List (κ × Access) →
      List (StoredArgument (ArraySignal ε) ShardedArray) × Arrays κ ε
  | arrays, [] => ([], arrays)
  | arrays, (store, access) :: uses =>
      let (argument, arrays) := arrays.toTaskArgument stream effects store access
      let (arguments, arrays) := storeArgsAndSetPostcondition stream effects arrays uses
      (argument :: arguments, arrays)

/-- `_defer`: the precondition of the task, which it does not complete before. -/
def defer (arrays : Arrays κ ε) (context : DeferContext (ArraySignal ε))
    (uses : List (κ × Access)) (completion : Event (ArraySignal ε)) :
    Event (ArraySignal ε) × Arrays κ ε :=
  let (arguments, arrays) := storeArgsAndSetPostcondition
    (getStreamOrderedEvent context completion) completion arrays uses
  let precondition :=
    startPrecondition context (mergePreconditions (addTaskDependencies context arguments))
  (precondition,
    { arrays with runtime.orders := arrays.runtime.orders ++ [(completion, precondition)] })

theorem stores_toTaskArgument (arrays : Arrays κ ε) (stream effects : Event (ArraySignal ε))
    (store : κ) (access : Access) :
    (arrays.toTaskArgument stream effects store access).2.stores =
      Function.update arrays.stores store
        (Zuku.toTaskArgument (arrays.stores store) stream effects access).2 := by
  cases access <;> rfl

/-- The registration does not matter to the arguments and the stores. -/
theorem storeArgsAndSetPostcondition_eq (arrays : Arrays κ ε)
    (stream effects : Event (ArraySignal ε)) (uses : List (κ × Access)) :
    (arrays.storeArgsAndSetPostcondition stream effects uses).1 =
        (Zuku.storeArgsAndSetPostcondition stream effects arrays.stores uses).1 ∧
      (arrays.storeArgsAndSetPostcondition stream effects uses).2.stores =
        (Zuku.storeArgsAndSetPostcondition stream effects arrays.stores uses).2 := by
  induction uses generalizing arrays with
  | nil => exact ⟨rfl, rfl⟩
  | cons use uses ih =>
      obtain ⟨store, access⟩ := use
      have hargument : (arrays.toTaskArgument stream effects store access).1 =
          (Zuku.toTaskArgument (arrays.stores store) stream effects access).1 := by
        cases access <;> rfl
      obtain ⟨harguments, hrest⟩ := ih (arrays.toTaskArgument stream effects store access).2
      rw [stores_toTaskArgument] at harguments hrest
      rw [Arrays.storeArgsAndSetPostcondition, Zuku.storeArgsAndSetPostcondition]
      exact ⟨List.cons_eq_cons.mpr ⟨hargument, harguments⟩, hrest⟩

end Arrays

/-! ## The program on every processor -/

variable [DecidableEq κ] [DecidableEq ε]

/-- One processor launches the command at a position of the program. -/
def Command.launch [RealmBuild] (p : Processor) (answers : ManagerAnswers (Completion ε))
    (position : ℕ) (arrays : Arrays κ (Completion ε)) :
    Command κ α σ ε → Exec (Launch κ (Completion ε) × Arrays κ (Completion ε))
  | .across devices call =>
      if devices.contains p.globalId then
        let (precondition, arrays) := arrays.defer (call p).context.ofTasks (call p).uses
          {.external (.task position)}
        pure (.task precondition, arrays)
      else pure (.skipped, arrays)
  | .reshard src dst => do
      let (state, arrays) ← arrays.reshard p answers src dst
      pure (.reshard src dst state, arrays)

/-- A program with its arrays, which every processor creates, and what the
reshard manager makes of the calls of every processor. -/
structure ReplicatedProgram (κ α σ ε : Type) where
  machine : Machine
  array : κ → ShardedArray
  createEvent : ℕ → κ → Option (Event (ArraySignal (Completion ε)))
  answers : ℕ → ManagerAnswers (Completion ε)
  commands : List (Command κ α σ ε)

/-- The runs of all processors: their arrays before every command, and what the
command comes to. -/
structure ReplicatedRun [RealmBuild] (program : ReplicatedProgram κ α σ ε) where
  arrays : ℕ → ℕ → Arrays κ (Completion ε)
  launch : ℕ → ℕ → Launch κ (Completion ε)
  start : ∀ id < program.machine.numProcessors,
    arrays id 0 = Arrays.init program.array (program.createEvent id)
  step : ∀ id < program.machine.numProcessors, ∀ (i : ℕ) command,
    program.commands[i]? = some command →
      command.launch (program.machine.processor id) (program.answers id) i (arrays id i) =
        .ok (launch id i, arrays id (i + 1))

/-! ## The copies -/

structure StoreKey (κ : Type) where
  srcId : κ
  dstId : κ
  srcShardId : ℕ
  dstShardId : ℕ
  deriving DecidableEq, Repr

/-- Inside a broadcast tree both arrays of the key are the destination. -/
def ReshardCall.keyBetween (src dst : κ) (call : ReshardCall) : StoreKey κ :=
  ⟨if call.withinTarget then dst else src, dst, call.srcShardId, call.dstShardId⟩

namespace Launch

variable {ε : Type}

/-- The calls on the side of the source, in the order in which they are made. -/
def sends : Launch κ ε → List (StoreKey κ × IssuedCall ε)
  | .reshard src dst state =>
      (state.forwards ++ state.sends).map fun copy ↦ (copy.call.keyBetween src dst, copy)
  | _ => []

/-- The calls on the side of the destination. -/
def receives : Launch κ ε → List (StoreKey κ × IssuedCall ε)
  | .reshard src dst state => state.receives.map fun copy ↦ (copy.call.keyBetween src dst, copy)
  | _ => []

end Launch

/-- The `n`-th call with a key on one side is for the copy with that name. -/
def NumbersCopies {ε : Type} (name : StoreKey κ × ℕ → ℕ)
    (log : List (StoreKey κ × IssuedCall ε)) : Prop :=
  ∀ (n : ℕ) entry, log[n]? = some entry →
    entry.2.copy = .copy (name (entry.1, ((log.take n).map Prod.fst).count entry.1))

/-- A copy by the call that receives it. -/
structure CopyRecord (κ ε : Type) where
  position : ℕ
  receiver : ℕ
  src : κ
  dst : κ
  issued : IssuedCall ε

/-- A completion on any of the processors. -/
inductive GlobalSignal (ε : Type) where
  | task (id position : ℕ)
  | copy (c : ℕ)
  | userEvent (id n : ℕ)
  | external (e : ε)
  deriving DecidableEq, Repr

/-- What a completion is that the arrays of a processor deal with. -/
def GlobalSignal.ofLocal {ε : Type} (id : ℕ) : ArraySignal (Completion ε) → GlobalSignal ε
  | .copy c => .copy c
  | .userEvent n => .userEvent id n
  | .external (.task position) => .task id position
  | .external (.external e) => .external e

/-- A task on one of the processors, or a copy. -/
inductive ReplicatedJob where
  | task (id position : ℕ)
  | copy (c : ℕ)
  deriving DecidableEq, Repr

def ReplicatedJob.completion {ε : Type} : ReplicatedJob → GlobalSignal ε
  | .task id position => .task id position
  | .copy c => .copy c

/-- An element of the tile of an array on a processor. -/
structure Element (κ : Type) where
  array : κ
  processor : ℕ
  point : List ℤ

/-- The tiles of a processor. -/
def tilesOf (memory : Element κ → α) (id : ℕ) (array : κ) (point : List ℤ) : α :=
  memory ⟨array, id, point⟩

/-- The pieces in which the copies are done. -/
structure Pieces where
  pieces : ℕ → List (Set (List ℤ))
  cover : ∀ c point, ∃ piece ∈ pieces c, point ∈ piece

open PhasedJobs (Job)

/-- The task of a call, which sees the tiles of its processor. -/
def Call.toTileJob {ε : Type} (call : Call κ (List ℤ → α) σ ε) (id : ℕ) :
    Job (Element κ) α σ where
  reads := {x | x.array ∈ call.stores ∧ x.processor = id}
  writes := {x | x.array ∈ call.written ∧ x.processor = id}
  init := call.init
  steps := call.body.map fun f l memory ↦
    let (l, set) := f l fun array ↦
      if array ∈ call.stores then some (tilesOf memory id array) else none
    (l, fun x ↦ if x.array ∈ call.written ∧ x.processor = id then
      (set x.array).map fun tile ↦ tile x.point else none)
  frame := by
    intro step hstep l memory x hx
    obtain ⟨f, -, rfl⟩ := List.mem_map.mp hstep
    exact if_neg hx
  congr := by
    intro step hstep l memory memory' h
    obtain ⟨f, -, rfl⟩ := List.mem_map.mp hstep
    have hseen (array : κ) (harray : array ∈ call.stores) :
        tilesOf memory id array = tilesOf memory' id array :=
      funext fun point ↦ h ⟨array, id, point⟩ ⟨harray, rfl⟩
    simp only [call.seen_congr hseen]

namespace CopyRecord

variable {ε : Type} (record : CopyRecord κ ε) (array : κ → ShardedArray)

/-- The array that the copy reads. -/
def source : κ := (record.issued.call.keyBetween record.src record.dst).srcId

/-- The processor that the copy reads on. -/
def sender : ℕ :=
  record.issued.call.sender (array record.src).sharding (array record.dst).sharding

def Covers (point : List ℤ) : Prop := record.issued.call.bounds.Contains point

open Classical in
/-- A copy moves its pieces one after another. -/
noncomputable def toJob (pieces : List (Set (List ℤ))) (init : σ) : Job (Element κ) α σ where
  reads := {x | x.array = record.source ∧ x.processor = record.sender array ∧
    record.Covers x.point}
  writes := {x | x.array = record.dst ∧ x.processor = record.receiver ∧ record.Covers x.point}
  init := init
  steps := pieces.map fun piece l memory ↦ (l, fun x ↦
    if (x.array = record.dst ∧ x.processor = record.receiver ∧ record.Covers x.point) ∧
      x.point ∈ piece then some (memory ⟨record.source, record.sender array, x.point⟩) else none)
  frame := by
    intro step hstep l memory x hx
    obtain ⟨piece, -, rfl⟩ := List.mem_map.mp hstep
    exact if_neg fun hwritten ↦ hx hwritten.1
  congr := by
    intro step hstep l memory memory' h
    obtain ⟨piece, -, rfl⟩ := List.mem_map.mp hstep
    refine Prod.ext rfl (funext fun x ↦ ?_)
    simp only
    split
    · rename_i hx
      exact congrArg some (h ⟨record.source, record.sender array, x.point⟩ ⟨rfl, rfl, hx.1.2.2⟩)
    · rfl

end CopyRecord

/-- A job that does nothing. -/
def idleTileJob (init : σ) : Job (Element κ) α σ where
  reads := ∅
  writes := ∅
  init := init
  steps := []
  frame := by simp
  congr := by simp

/-! ## The jobs of a run -/

namespace ReplicatedRun

variable [RealmBuild] {program : ReplicatedProgram κ α σ ε} (run : ReplicatedRun program)

/-- All calls of a processor on one side. -/
def log (side : Launch κ (Completion ε) → List (StoreKey κ × IssuedCall (Completion ε)))
    (id : ℕ) : List (StoreKey κ × IssuedCall (Completion ε)) :=
  (List.range program.commands.length).flatMap fun i ↦ side (run.launch id i)

/-- The manager matches the sends and the receives with a key in order: the
`n`-th send and the `n`-th receive are for the same copy.  A rendezvous does so
unless the names of instances overtake each other. -/
structure MatchesInOrder (name : StoreKey κ × ℕ → ℕ) : Prop where
  injective : Function.Injective name
  sends : ∀ id < program.machine.numProcessors, NumbersCopies name (run.log Launch.sends id)
  receives : ∀ id < program.machine.numProcessors,
    NumbersCopies name (run.log Launch.receives id)

/-- The copies into the tiles of all processors. -/
def copies : List (CopyRecord κ (Completion ε)) :=
  (List.range program.commands.length).flatMap fun i ↦
    (List.range program.machine.numProcessors).flatMap fun id ↦
      match run.launch id i with
      | .reshard src dst state => state.receives.map fun issued ↦ ⟨i, id, src, dst, issued⟩
      | _ => []

def copyOf (c : ℕ) : Option (CopyRecord κ (Completion ε)) :=
  run.copies.find? fun record ↦ decide (record.issued.copy = .copy c)

/-- The tasks and copies of all processors. -/
noncomputable def job [Inhabited σ] (pieces : Pieces) :
    ReplicatedJob → Job (Element κ) α σ
  | .task id position =>
      match program.commands[position]? with
      | some (.across devices call) =>
          if id < program.machine.numProcessors ∧ devices.contains id then
            (call (program.machine.processor id)).toTileJob id
          else idleTileJob default
      | _ => idleTileJob default
  | .copy c =>
      match run.copyOf c with
      | some record => record.toJob program.array (pieces.pieces c) default
      | none => idleTileJob default

/-- What a job waits for: a copy for the preconditions of the calls on both sides. -/
def waits : ReplicatedJob → Set (GlobalSignal ε)
  | .task id position =>
      match run.launch id position with
      | .task precondition => GlobalSignal.ofLocal id '' precondition
      | _ => ∅
  | .copy c => {g | ∃ id < program.machine.numProcessors, ∃ i < program.commands.length,
      ∃ entry ∈ (run.launch id i).sends ++ (run.launch id i).receives,
        entry.2.copy = .copy c ∧ g ∈ GlobalSignal.ofLocal id '' entry.2.precondition}

/-- The completions that can have triggered together, by what every processor
knows of its events. -/
def Possible (triggered : Set (GlobalSignal ε)) : Prop :=
  ∀ id < program.machine.numProcessors,
    EventImplication.World (run.arrays id program.commands.length).runtime.orders
      {a | GlobalSignal.ofLocal id a ∈ triggered}

end ReplicatedRun

end Zuku
