import Zuku.TaskOrder
import Zuku.Library.DeferredJobs

/-!
# Deferred tasks are sequentially consistent

Every schedule of a program of deferred tasks runs conflicting tasks in program
order, and so gives every task the values of the sequential program.
-/

namespace Zuku

open DeferredJobs

variable {ε κ ν σ : Type} [DecidableEq κ]

/-! ## Tasks as jobs -/

namespace Call

variable (call : Call κ ν σ ε)

theorem runStep_of_not_mem (f : σ → (κ → Option ν) → σ × (κ → Option ν)) (l : σ)
    (memory : κ → ν) {s : κ} (hs : s ∉ call.written) :
    (call.runStep f l memory).2 s = memory s := if_neg hs

/-- The body sees only the stores of the call. -/
theorem seen_congr {memory memory' : κ → ν} (h : ∀ s ∈ call.stores, memory s = memory' s) :
    (fun s ↦ if s ∈ call.stores then some (memory s) else none) =
      fun s ↦ if s ∈ call.stores then some (memory' s) else none := by
  funext s
  split
  · rw [h s ‹_›]
  · rfl

/-- The task of a call as a job on the values of the stores. -/
def toJob : Job κ ν σ where
  uses := {s | s ∈ call.stores}
  writes := {s | s ∈ call.written}
  init := call.init
  steps := call.body.map call.runStep
  writes_subset _ hs := mem_stores_of_mem_written hs
  frame := by
    intro step hstep l memory s hs
    obtain ⟨f, -, rfl⟩ := List.mem_map.mp hstep
    exact call.runStep_of_not_mem f l memory hs
  congr_local := by
    intro step hstep l memory memory' h
    obtain ⟨f, -, rfl⟩ := List.mem_map.mp hstep
    simp only [runStep, call.seen_congr h]
  congr_memory := by
    intro step hstep l memory memory' h s hs
    obtain ⟨f, -, rfl⟩ := List.mem_map.mp hstep
    simp only [runStep, call.seen_congr h, h s (mem_stores_of_mem_written hs)]

end Call

/-- A job that does nothing. -/
def idleJob [Inhabited σ] : Job κ ν σ where
  uses := ∅
  writes := ∅
  init := default
  steps := []
  writes_subset := Set.empty_subset _
  frame := by simp
  congr_local := by simp
  congr_memory := by simp

/-- The tasks of a program in order, followed by idle ones. -/
def programJobs [Inhabited σ] (program : List (Call κ ν σ ε)) (task : ℕ) : Job κ ν σ :=
  match program[task]? with
  | some call => call.toJob
  | none => idleJob

section Jobs

variable [Inhabited σ] {program : List (Call κ ν σ ε)} {task : ℕ}

theorem programJobs_of_getElem? {call : Call κ ν σ ε} (h : program[task]? = some call) :
    programJobs program task = call.toJob := by
  rw [programJobs, h]

theorem programJobs_of_le (h : program.length ≤ task) :
    programJobs program task = idleJob := by
  rw [programJobs, List.getElem?_eq_none h]

/-- Jobs conflict only where calls do. -/
theorem exists_of_conflict {i j : ℕ}
    (h : Conflict (programJobs program i) (programJobs program j)) :
    ∃ a b, program[i]? = some a ∧ program[j]? = some b ∧ a.Conflicts b := by
  cases hi : program[i]? with
  | none =>
      rw [programJobs_of_le (List.getElem?_eq_none_iff.mp hi)] at h
      obtain ⟨s, ⟨hs, -⟩ | ⟨hs, -⟩⟩ := h
      · exact absurd hs (Set.notMem_empty s)
      · exact absurd hs (Set.notMem_empty s)
  | some a =>
      cases hj : program[j]? with
      | none =>
          rw [programJobs_of_le (List.getElem?_eq_none_iff.mp hj)] at h
          obtain ⟨s, ⟨-, hs⟩ | ⟨-, hs⟩⟩ := h
          · exact absurd hs (Set.notMem_empty s)
          · exact absurd hs (Set.notMem_empty s)
      | some b =>
          rw [programJobs_of_getElem? hi, programJobs_of_getElem? hj] at h
          exact ⟨a, b, rfl, rfl, h⟩

end Jobs

/-! ## Schedules as steps of jobs -/

namespace World

/-- The state of the jobs in a world. -/
def toState (world : World κ ν σ ε) : State κ ν σ (Completion ε) :=
  ⟨world.memory, world.progress, {c | c ∈ world.triggered}⟩

variable [DecidableEq ε] {program : List (Call κ ν σ ε)}
  {preconditions : List (Event (Completion ε))} {world world' : World κ ν σ ε}

omit [DecidableEq κ] in
theorem toState_insert (c : Completion ε) :
    ({ world with triggered := insert c world.triggered } : World κ ν σ ε).toState =
      { world.toState with triggered := insert c world.toState.triggered } := by
  simp [toState, Set.insert_def]

variable [Inhabited σ]

theorem step_start {task : ℕ} (h : world.start program preconditions task = some world') :
    Step (programJobs program) (Waits preconditions) Completion.task world.toState
      world'.toState := by
  obtain ⟨call, precondition, hcall, hprecondition, hnone, hready, rfl⟩ := start_cases h
  have hwaits : Waits preconditions task ⊆ world.toState.triggered := by
    rintro c ⟨p, hp, hc⟩
    obtain rfl : precondition = p := Option.some.inj (hprecondition.symm.trans hp)
    exact hready hc
  have hidle : world.toState.progress task = none := hnone
  have hstart : Step (programJobs program) (Waits preconditions) Completion.task
      world.toState _ := Step.start hidle hwaits
  rwa [programJobs_of_getElem? hcall] at hstart

omit [DecidableEq ε] in
theorem step_advance {task : ℕ} (h : world.advance program task = some world') :
    Step (programJobs program) (Waits preconditions) Completion.task world.toState
      world'.toState := by
  obtain ⟨call, n, l, f, hcall, hprogress, hf, rfl⟩ := advance_cases h
  have hstep : (programJobs program task).steps[n]? = some (call.runStep f) := by
    rw [programJobs_of_getElem? hcall]
    exact (List.getElem?_map ..).trans (congrArg _ hf)
  have hrunning : world.toState.progress task = some (n, l) := hprogress
  exact Step.advance hrunning hstep

theorem step_finish {task : ℕ} (h : world.finish program task = some world') :
    Step (programJobs program) (Waits preconditions) Completion.task world.toState
      world'.toState := by
  obtain ⟨call, l, hcall, hprogress, rfl⟩ := finish_cases h
  have hdone : world.toState.progress task =
      some ((programJobs program task).steps.length, l) := by
    rw [programJobs_of_getElem? hcall]
    simp [Call.toJob, toState, hprogress]
  rw [toState_insert]
  exact Step.finish hdone

theorem step_step {action : Action ε}
    (h : world.step program preconditions action = some world') :
    Step (programJobs program) (Waits preconditions) Completion.task world.toState
      world'.toState := by
  cases action with
  | start task => exact step_start h
  | advance task => exact step_advance h
  | finish task => exact step_finish h
  | external e =>
      obtain rfl := Option.some.inj h
      rw [toState_insert]
      exact Step.external fun i ↦ by simp

/-- A schedule of tasks is a schedule of their jobs. -/
theorem run_steps {actions : List (Action ε)}
    (h : world.run program preconditions actions = some world') :
    Relation.ReflTransGen (Step (programJobs program) (Waits preconditions) Completion.task)
      world.toState world'.toState := by
  induction actions generalizing world with
  | nil =>
      obtain rfl := Option.some.inj h
      exact .refl
  | cons action actions ih =>
      rw [run, Option.bind_eq_bind, Option.bind_eq_some_iff] at h
      obtain ⟨world₁, hstep, hrun⟩ := h
      exact .head (step_step hstep) (ih hrun)

end World

/-! ## Sequential consistency -/

section Consistency

variable [DecidableEq ε] [Inhabited σ]

/-- The values of the stores before a task when the tasks run one by one. -/
def valuesBefore (program : List (Call κ ν σ ε)) (memory : κ → ν) (task : ℕ) : κ → ν :=
  memoryBefore (programJobs program) memory task

/-- The local state of a task and the values of the stores after some steps of
its body when the tasks run one by one. -/
def sequentialState (program : List (Call κ ν σ ε)) (memory : κ → ν) (task steps : ℕ) :
    σ × (κ → ν) :=
  sequential (programJobs program) memory task steps

/-- In this world conflicting tasks have run in program order, and every task
has seen what it sees when the tasks run one by one. -/
structure SequentiallyConsistent (program : List (Call κ ν σ ε)) (memory : κ → ν)
    (world : World κ ν σ ε) : Prop where
  program_order : ∀ (i j : ℕ) a b, i < j → program[i]? = some a → program[j]? = some b →
    a.Conflicts b → world.progress j ≠ none → .task i ∈ world.triggered
  locals : ∀ i n l, world.progress i = some (n, l) →
    l = (sequentialState program memory i n).1
  values : ∀ (i : ℕ) call n l, program[i]? = some call → world.progress i = some (n, l) →
    .task i ∉ world.triggered →
    ∀ s ∈ call.stores, world.memory s = (sequentialState program memory i n).2 s
  final : (∀ i < program.length, .task i ∈ world.triggered) →
    world.memory = valuesBefore program memory program.length

/-- Every schedule of deferred tasks over distinct stores is sequentially
consistent, whatever the stores waited for before. -/
theorem run_sequentiallyConsistent {β : Type} (stores : κ → Store (Completion ε) β)
    (program : List (Call κ ν σ ε)) (hnodup : ∀ call ∈ program, call.stores.Nodup)
    (hstream : ∀ call ∈ program, call.context.streamOrdered = none) (memory : κ → ν)
    (actions : List (Action ε)) {world : World κ ν σ ε}
    (hrun : World.run program (deferAll ⟨stores, []⟩ program).preconditions { memory := memory }
      actions = some world) :
    SequentiallyConsistent program memory world := by
  have htracked := tracked_deferAll stores program hnodup hstream
  have horder (i j : ℕ) (hij : i < j)
      (hconflict : Conflict (programJobs program i) (programJobs program j)) :
      Before (Waits (deferAll ⟨stores, []⟩ program).preconditions) Completion.task i j := by
    obtain ⟨a, b, hi, hj, hcalls⟩ := exists_of_conflict hconflict
    exact htracked.ordered i j a b hij hi hj hcalls
  have hinjective : Function.Injective (Completion.task : ℕ → Completion ε) :=
    fun _ _ h ↦ Completion.task.inj h
  have hinit : Serial (programJobs program)
      (Waits (deferAll ⟨stores, []⟩ program).preconditions) Completion.task memory
      ({ memory := memory } : World κ ν σ ε).toState := serial_init (by simp)
  have hserial := hinit.run hinjective horder (World.run_steps hrun)
  refine ⟨?_, hserial.locals, ?_, ?_⟩
  · intro i j a b hij hi hj hconflict hstarted
    exact hserial.done_of_before (htracked.ordered i j a b hij hi hj hconflict) hstarted
  · intro i call n l hcall hprogress hrunning s hs
    apply hserial.memory_of_running horder hprogress hrunning
    rw [programJobs_of_getElem? hcall]
    exact hs
  · intro hdone
    apply hserial.memory_of_done hdone
    intro i hi
    rw [programJobs_of_le hi]
    rfl

end Consistency

/-- Store 0 is set to 7, store 1 to one more than store 0, and store 0 to 9. -/
def overwriteProgram : List (Call ℕ ℕ ℕ ℕ) :=
  [⟨{}, [.reference 0], 0, [fun l _ ↦ (l, fun _ ↦ some 7)]⟩,
    ⟨{}, [.constReference 0, .reference 1], 0,
      [fun _ seen ↦ ((seen 0).getD 0, fun _ ↦ none), fun l _ ↦ (l, fun _ ↦ some (l + 1))]⟩,
    ⟨{}, [.reference 0], 0, [fun l _ ↦ (l, fun _ ↦ some 9)]⟩]

def overwriteActions : List (Action ℕ) :=
  [.start 0, .advance 0, .finish 0, .start 1, .advance 1, .advance 1, .finish 1, .start 2,
    .advance 2, .finish 2]

theorem run_overwriteProgram_sequentiallyConsistent :
    ∃ world, World.run overwriteProgram
        (deferAll ⟨fun _ ↦ Store.create (), []⟩ overwriteProgram).preconditions
        { memory := fun _ ↦ 0 } overwriteActions = some world ∧
      SequentiallyConsistent overwriteProgram (fun _ ↦ 0) world := by
  have hsome : (World.run overwriteProgram
      (deferAll ⟨fun _ ↦ Store.create (), []⟩ overwriteProgram).preconditions
      { memory := fun _ ↦ 0 } overwriteActions).isSome := by decide
  obtain ⟨world, hrun⟩ := Option.isSome_iff_exists.mp hsome
  exact ⟨world, hrun, run_sequentiallyConsistent (fun _ ↦ Store.create ()) overwriteProgram
    (by decide) (by decide) (fun _ ↦ 0) overwriteActions hrun⟩

end Zuku
