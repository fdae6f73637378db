import Zuku.Library.ListLookup

/-!
# Shutting down

`Stop` waits until no operation is pending, has all ranks agree that their last
local event has triggered, sleeps for a second and shuts Realm down.  The tasks
that the last local event waits for may release stores and views in between.
-/

namespace Zuku

/-- A task calls `deferred_release` a number of times, each time with an event
that waits for some tasks.  A task that defers another one is two tasks, one
after the other; events that do not come from tasks may trigger at any time and
are left out. -/
structure ReleasingTask where
  waits : Finset ℕ
  releases : List (Finset ℕ)

/-- The tasks of a program.  A task waits for tasks before it, and `stop` is called
after the tasks in `stopAfter`. -/
structure ReleasingProgram where
  tasks : List ReleasingTask
  waits_lt : ∀ (i : ℕ) (task : ReleasingTask), tasks[i]? = some task → ∀ j ∈ task.waits, j < i
  stopAfter : Finset ℕ

/-- The calls that a task has not finished.  In a call the operation is counted
before the release task is spawned. -/
inductive TaskState where
  | waiting (task : ReleasingTask)
  | running (releases : List (Finset ℕ))
  | counted (waitOn : Finset ℕ) (releases : List (Finset ℕ))
  | done

inductive StopPhase where
  | notCalled | waitForPendingOps | collectiveSpawn | agreeWait | sleep | shutdown
  deriving DecidableEq, Repr

/-- `pending` is `sPendingEvents`.  The release tasks have been spawned; those in
`deleted` have deleted what they release and do not count any more after that. -/
structure ShutdownState where
  tasks : List TaskState
  pending : ℤ := 0
  releaseTasks : List (Finset ℕ) := []
  deleted : ℕ := 0
  phase : StopPhase := .notCalled

namespace ShutdownState

def TasksDone (s : ShutdownState) (event : Finset ℕ) : Prop := ∀ j ∈ event, s.tasks[j]? = some .done

/-- The steps of `Stop`.  The last local event waits for all tasks. -/
inductive StopStep (program : ReleasingProgram) (s : ShutdownState) :
    StopPhase → StopPhase → Prop where
  | call : s.TasksDone program.stopAfter → StopStep program s .notCalled .waitForPendingOps
  | poll : 0 < s.pending → StopStep program s .waitForPendingOps .waitForPendingOps
  | noPendingOps : s.pending ≤ 0 → StopStep program s .waitForPendingOps .collectiveSpawn
  | collectiveSpawn : StopStep program s .collectiveSpawn .agreeWait
  | agree : (∀ task ∈ s.tasks, task = .done) → StopStep program s .agreeWait .sleep
  | sleep : StopStep program s .sleep .shutdown

inductive Step (program : ReleasingProgram) : ShutdownState → ShutdownState → Prop where
  | start {s : ShutdownState} {i : ℕ} {task : ReleasingTask} :
      s.tasks[i]? = some (.waiting task) → s.TasksDone task.waits →
      Step program s { s with tasks := s.tasks.set i (.running task.releases) }
  | incPendingOp {s : ShutdownState} {i : ℕ} {waitOn : Finset ℕ} {releases : List (Finset ℕ)} :
      s.tasks[i]? = some (.running (waitOn :: releases)) →
      Step program s
        { s with tasks := s.tasks.set i (.counted waitOn releases), pending := s.pending + 1 }
  | spawn {s : ShutdownState} {i : ℕ} {waitOn : Finset ℕ} {releases : List (Finset ℕ)} :
      s.tasks[i]? = some (.counted waitOn releases) →
      Step program s
        { s with
          tasks := s.tasks.set i (.running releases)
          releaseTasks := s.releaseTasks ++ [waitOn] }
  | finish {s : ShutdownState} {i : ℕ} : s.tasks[i]? = some (.running []) →
      Step program s { s with tasks := s.tasks.set i .done }
  | delete {s : ShutdownState} {n : ℕ} {waitOn : Finset ℕ} :
      s.releaseTasks[n]? = some waitOn → s.TasksDone waitOn →
      Step program s
        { s with releaseTasks := s.releaseTasks.eraseIdx n, deleted := s.deleted + 1 }
  | decPendingOp {s : ShutdownState} {n : ℕ} : s.deleted = n + 1 →
      Step program s { s with deleted := n, pending := s.pending - 1 }
  | stop {s : ShutdownState} {phase : StopPhase} : StopStep program s s.phase phase →
      Step program s { s with phase := phase }

/-- No operation is pending and no release task is outstanding. -/
structure Clean (s : ShutdownState) : Prop where
  pending : s.pending = 0
  releaseTasks : s.releaseTasks = []
  deleted : s.deleted = 0

end ShutdownState

def ReleasingProgram.init (program : ReleasingProgram) : ShutdownState :=
  { tasks := program.tasks.map .waiting }

/-- The calls of `deferred_release` that a task has not counted yet. -/
def TaskState.callsLeft : TaskState → ℕ
  | .waiting task => task.releases.length
  | .running releases => releases.length
  | .counted _ releases => releases.length
  | .done => 0

namespace ShutdownState

def NoCallsLeft (s : ShutdownState) : Prop := ∀ task ∈ s.tasks, task.callsLeft = 0

/-- A step that meets the condition: when `Stop` finds no operation pending, no task
has a call left. -/
def KeepingStep (program : ReleasingProgram) (s s' : ShutdownState) : Prop :=
  Step program s s' ∧
    (s.phase = .waitForPendingOps → s'.phase = .collectiveSpawn → s.NoCallsLeft)

end ShutdownState

open ShutdownState Relation

def ReleasingProgram.Reachable (program : ReleasingProgram) (s : ShutdownState) : Prop :=
  ReflTransGen (Step program) program.init s

/-! ## Runs that meet the condition -/

def TaskState.isCounted : TaskState → Bool
  | .counted _ _ => true
  | .waiting _ | .running _ | .done => false

/-- `WaitForPendingOps` has returned. -/
def StopPhase.afterWait : StopPhase → Bool
  | .notCalled | .waitForPendingOps => false
  | .collectiveSpawn | .agreeWait | .sleep | .shutdown => true

def TaskState.work : TaskState → ℕ
  | .waiting task => 2 * task.releases.length + 2
  | .running releases => 2 * releases.length + 1
  | .counted _ releases => 2 * releases.length + 2
  | .done => 0

namespace ShutdownState

/-- The pending operations are those that are being spawned, those that have been
spawned and those that have not been discounted. -/
def Balanced (s : ShutdownState) : Prop :=
  s.pending = s.tasks.countP TaskState.isCounted + s.releaseTasks.length + s.deleted

/-- Nothing is pending any more once `WaitForPendingOps` has returned. -/
structure QuietInv (s : ShutdownState) : Prop where
  balanced : s.Balanced
  quiet : s.phase.afterWait = true → s.pending = 0 ∧ s.NoCallsLeft

variable {program : ReleasingProgram} {s s' : ShutdownState}

theorem Balanced.of_pending_eq_zero (h : s.Balanced) (hpending : s.pending = 0) :
    s.Clean ∧ s.tasks.countP TaskState.isCounted = 0 := by
  rw [Balanced] at h
  have hlength : s.releaseTasks.length = 0 := by omega
  exact ⟨⟨hpending, List.length_eq_zero_iff.mp hlength, by omega⟩, by omega⟩

theorem Balanced.step (h : s.Balanced) (hstep : Step program s s') : s'.Balanced := by
  rw [Balanced] at h ⊢
  cases hstep with
  | @start i task htask _ =>
      have hcount := ListLookup.countP_set_add (y := .running task.releases) htask
        TaskState.isCounted
      simp only [TaskState.isCounted, Bool.false_eq_true, if_false] at hcount
      dsimp only
      omega
  | @incPendingOp i waitOn releases htask =>
      have hcount := ListLookup.countP_set_add (y := .counted waitOn releases) htask
        TaskState.isCounted
      simp only [TaskState.isCounted, Bool.false_eq_true, if_false, if_true] at hcount
      dsimp only
      omega
  | @spawn i waitOn releases htask =>
      have hcount := ListLookup.countP_set_add (y := .running releases) htask TaskState.isCounted
      simp only [TaskState.isCounted, Bool.false_eq_true, if_false, if_true] at hcount
      dsimp only
      rw [List.length_append, List.length_singleton]
      omega
  | finish htask =>
      have hcount := ListLookup.countP_set_add (y := .done) htask TaskState.isCounted
      simp only [TaskState.isCounted, Bool.false_eq_true, if_false] at hcount
      dsimp only
      omega
  | delete hrelease _ =>
      obtain ⟨hlt, -⟩ := List.getElem?_eq_some_iff.mp hrelease
      have hlength := List.length_eraseIdx_of_lt hlt
      dsimp only
      omega
  | decPendingOp hdeleted =>
      dsimp only
      omega
  | stop _ => exact h

/-- A task that goes on without a new call leaves no more calls than before. -/
theorem NoCallsLeft.set (h : s.NoCallsLeft) {i : ℕ} {old new : TaskState}
    (hold : s.tasks[i]? = some old) (hnew : new.callsLeft = old.callsLeft) :
    ∀ task ∈ s.tasks.set i new, task.callsLeft = 0 := by
  intro task htask
  rcases List.mem_or_eq_of_mem_set htask with htask | rfl
  · exact h task htask
  · rw [hnew]
    exact h old (List.mem_of_getElem? hold)

theorem StopStep.afterWait {phase phase' : StopPhase} (hstop : StopStep program s phase phase')
    (h : phase'.afterWait = true) :
    phase.afterWait = true ∨
      (phase = .waitForPendingOps ∧ phase' = .collectiveSpawn ∧ s.pending ≤ 0) := by
  cases hstop with
  | call _ => cases h
  | poll _ => cases h
  | noPendingOps hpending => exact Or.inr ⟨rfl, rfl, hpending⟩
  | collectiveSpawn => exact Or.inl rfl
  | agree _ => exact Or.inl rfl
  | sleep => exact Or.inl rfl

theorem QuietInv.step (h : QuietInv s) (hstep : KeepingStep program s s') : QuietInv s' := by
  obtain ⟨hstep, hkeeps⟩ := hstep
  refine ⟨h.balanced.step hstep, fun hafter ↦ ?_⟩
  cases hstep with
  | start htask _ =>
      obtain ⟨hpending, hcalls⟩ := h.quiet hafter
      exact ⟨hpending, hcalls.set htask rfl⟩
  | incPendingOp htask =>
      obtain ⟨-, hcalls⟩ := h.quiet hafter
      exact absurd (hcalls _ (List.mem_of_getElem? htask)) (Nat.succ_ne_zero _)
  | spawn htask =>
      -- the operation that is being spawned is still pending
      obtain ⟨hpending, -⟩ := h.quiet hafter
      obtain ⟨-, hcounted⟩ := h.balanced.of_pending_eq_zero hpending
      exact absurd (List.countP_eq_zero.mp hcounted _ (List.mem_of_getElem? htask)) (by simp
        [TaskState.isCounted])
  | finish htask =>
      obtain ⟨hpending, hcalls⟩ := h.quiet hafter
      exact ⟨hpending, hcalls.set htask rfl⟩
  | delete hrelease _ =>
      obtain ⟨hpending, -⟩ := h.quiet hafter
      obtain ⟨hclean, -⟩ := h.balanced.of_pending_eq_zero hpending
      rw [hclean.releaseTasks] at hrelease
      cases hrelease
  | decPendingOp hdeleted =>
      obtain ⟨hpending, -⟩ := h.quiet hafter
      obtain ⟨hclean, -⟩ := h.balanced.of_pending_eq_zero hpending
      rw [hclean.deleted] at hdeleted
      cases hdeleted
  | stop hstop =>
      rcases hstop.afterWait hafter with hbefore | ⟨hwait, hspawn, hpending⟩
      · exact h.quiet hbefore
      · have hbalanced := h.balanced
        rw [Balanced] at hbalanced
        have hzero : s.pending = 0 := by omega
        exact ⟨hzero, hkeeps hwait hspawn⟩

theorem balanced_init (program : ReleasingProgram) : program.init.Balanced := by
  have hcount : program.init.tasks.countP TaskState.isCounted = 0 := by
    rw [List.countP_eq_zero]
    intro task htask
    obtain ⟨_, -, rfl⟩ := List.mem_map.mp htask
    exact Bool.false_ne_true
  rw [Balanced, hcount]
  rfl

/-- Realm is shut down with nothing pending in every run that meets the condition. -/
theorem clean_of_keeping (hrun : ReflTransGen (KeepingStep program) program.init s)
    (hphase : s.phase = .shutdown) : s.Clean := by
  have hinv : QuietInv s := by
    clear hphase
    induction hrun with
    | refl => exact ⟨balanced_init program, fun h ↦ by cases h⟩
    | tail _ hstep ih => exact ih.step hstep
  have hquiet := hinv.quiet (by rw [hphase]; rfl)
  exact (hinv.balanced.of_pending_eq_zero hquiet.1).1

theorem Step.pending_le (hstep : Step program s s') (hwait : s.phase = .waitForPendingOps)
    (hspawn : s'.phase = .collectiveSpawn) : s.pending ≤ 0 := by
  cases hstep with
  | stop hstop =>
      obtain rfl := hspawn
      rw [hwait] at hstop
      cases hstop with
      | noPendingOps hpending => exact hpending
  | _ =>
      rw [hspawn] at hwait
      cases hwait

/-! ## Running the tasks to their end -/

def Ordered (s : ShutdownState) : Prop :=
  ∀ (i : ℕ) (task : ReleasingTask), s.tasks[i]? = some (.waiting task) → ∀ j ∈ task.waits, j < i

def work (s : ShutdownState) : ℕ := (s.tasks.map TaskState.work).sum

/-- The operations that are pending and those that will be if no release task runs. -/
def expected (s : ShutdownState) : ℤ := s.pending + (s.tasks.map TaskState.callsLeft).sum

theorem Ordered.set (h : s.Ordered) {i : ℕ} {new : TaskState}
    (hnew : ∀ task, new ≠ .waiting task) {s' : ShutdownState}
    (htasks : s'.tasks = s.tasks.set i new) : s'.Ordered := by
  intro j task hj
  rw [htasks] at hj
  rcases ListLookup.eq_or_getElem?_of_set hj with ⟨-, heq⟩ | ⟨-, hj⟩
  · exact absurd heq.symm (hnew task)
  · exact h j task hj

theorem Ordered.step (h : s.Ordered) (hstep : Step program s s') : s'.Ordered := by
  cases hstep with
  | start htask _ => exact h.set (by simp) rfl
  | incPendingOp htask => exact h.set (by simp) rfl
  | spawn htask => exact h.set (by simp) rfl
  | finish htask => exact h.set (by simp) rfl
  | delete _ _ => exact h
  | decPendingOp _ => exact h
  | stop _ => exact h

/-- A step of a task that lowers its work and leaves the calls that it counts. -/
theorem advance {i : ℕ} {old new : TaskState} (hold : s.tasks[i]? = some old)
    (htasks : s'.tasks = s.tasks.set i new) (hwork : new.work < old.work)
    (hcalls : s'.pending + new.callsLeft = s.pending + old.callsLeft) :
    s'.work < s.work ∧ s'.expected = s.expected := by
  have hsum := ListLookup.sum_map_set_add (y := new) hold TaskState.work
  have hsum' := ListLookup.sum_map_set_add (y := new) hold TaskState.callsLeft
  rw [work, work, expected, expected, htasks]
  constructor
  · omega
  · omega

theorem exists_first (hnot : ¬∀ task ∈ s.tasks, task = .done) :
    ∃ (i : ℕ) (task : TaskState), s.tasks[i]? = some task ∧ task ≠ .done ∧
      ∀ j < i, s.tasks[j]? = some .done := by
  classical
  have hex : ∃ (i : ℕ) (task : TaskState), s.tasks[i]? = some task ∧ task ≠ .done := by
    by_contra hall
    apply hnot
    intro task htask
    obtain ⟨i, hi⟩ := List.mem_iff_getElem?.mp htask
    by_contra hne
    exact hall ⟨i, task, hi, hne⟩
  obtain ⟨task, hi, hne⟩ := Nat.find_spec hex
  refine ⟨Nat.find hex, task, hi, hne, fun j hj ↦ ?_⟩
  obtain ⟨hlt, -⟩ := List.getElem?_eq_some_iff.mp hi
  have hget := List.getElem?_eq_getElem (hj.trans hlt)
  rw [hget]
  by_contra hdone
  exact Nat.find_min hex hj ⟨_, hget, fun heq ↦ hdone (congrArg some heq)⟩

theorem Ordered.exists_step (program : ReleasingProgram) (h : s.Ordered)
    (hnot : ¬∀ task ∈ s.tasks, task = .done) :
    ∃ s', Step program s s' ∧ s'.phase = s.phase ∧ s'.work < s.work ∧
      s'.expected = s.expected := by
  obtain ⟨i, task, hi, hne, hdone⟩ := exists_first hnot
  cases task with
  | waiting task =>
      have hwaits : s.TasksDone task.waits := fun j hj ↦ hdone j (h i task hi j hj)
      exact ⟨_, .start hi hwaits, rfl, advance hi rfl (by simp [TaskState.work]) rfl⟩
  | running releases =>
      cases releases with
      | nil => exact ⟨_, .finish hi, rfl, advance hi rfl (by simp [TaskState.work]) rfl⟩
      | cons waitOn releases =>
          refine ⟨_, .incPendingOp hi, rfl, advance hi rfl ?_ ?_⟩
          · simp only [TaskState.work, List.length_cons]
            omega
          · simp only [TaskState.callsLeft, List.length_cons]
            omega
  | counted waitOn releases =>
      exact ⟨_, .spawn hi, rfl, advance hi rfl (by simp [TaskState.work]) rfl⟩
  | done => exact absurd rfl hne

/-- All tasks can be run to their end while no release task runs. -/
theorem Ordered.exists_tasksDone (program : ReleasingProgram) (h : s.Ordered) :
    ∃ s', ReflTransGen (Step program) s s' ∧ (∀ task ∈ s'.tasks, task = .done) ∧
      s'.phase = s.phase ∧ s'.pending = s.expected := by
  induction hn : s.work using Nat.strong_induction_on generalizing s with
  | _ n ih =>
      by_cases hdone : ∀ task ∈ s.tasks, task = .done
      · refine ⟨s, .refl, hdone, rfl, ?_⟩
        have hsum : (s.tasks.map TaskState.callsLeft).sum = 0 := by
          rw [List.sum_eq_zero_iff]
          intro n hn
          obtain ⟨task, htask, rfl⟩ := List.mem_map.mp hn
          rw [hdone task htask]
          rfl
        rw [expected, hsum]
        omega
      · obtain ⟨s₁, hstep, hphase, hwork, hexpected⟩ := h.exists_step program hdone
        obtain ⟨s₂, hrun, hdone₂, hphase₂, hpending₂⟩ :=
          ih s₁.work (hn ▸ hwork) (h.step hstep) rfl
        exact ⟨s₂, .head hstep hrun, hdone₂, hphase₂.trans hphase, hpending₂.trans hexpected⟩

/-- A program whose `Stop` can find nothing pending while calls are left can be shut
down with release tasks outstanding. -/
theorem exists_shutdown (program : ReleasingProgram) (h : s.Ordered)
    (hphase : s.phase = .waitForPendingOps) (hpending : s.pending ≤ 0) :
    ∃ s', ReflTransGen (Step program) s s' ∧ s'.phase = .shutdown ∧ s'.pending = s.expected := by
  have hleave : ReflTransGen (Step program) s { s with phase := .agreeWait } := by
    refine .head (b := { s with phase := .collectiveSpawn }) (.stop ?_) (.single (.stop ?_))
    · rw [hphase]
      exact .noPendingOps hpending
    · exact .collectiveSpawn
  obtain ⟨s₁, hrun, hdone, hphase₁, hpending₁⟩ :=
    Ordered.exists_tasksDone program (show Ordered { s with phase := .agreeWait } from h)
  have hstop : ReflTransGen (Step program) s₁ { s₁ with phase := .shutdown } := by
    refine .head (b := { s₁ with phase := .sleep }) (.stop ?_) (.single (.stop .sleep))
    rw [hphase₁]
    exact .agree hdone
  exact ⟨_, (hleave.trans hrun).trans hstop, rfl, hpending₁⟩

end ShutdownState

namespace ReleasingProgram

theorem ordered_init (program : ReleasingProgram) : program.init.Ordered := by
  intro i task hi j hj
  rw [init, List.getElem?_map, Option.map_eq_some_iff] at hi
  obtain ⟨task', htask', heq⟩ := hi
  obtain rfl := TaskState.waiting.inj heq
  exact program.waits_lt i task' htask' j hj

theorem ordered_of_reachable {program : ReleasingProgram} {s : ShutdownState}
    (h : program.Reachable s) : s.Ordered := by
  induction h with
  | refl => exact program.ordered_init
  | tail _ hstep ih => exact ih.step hstep

theorem balanced_of_reachable {program : ReleasingProgram} {s : ShutdownState}
    (h : program.Reachable s) : s.Balanced := by
  induction h with
  | refl => exact balanced_init program
  | tail _ hstep ih => exact ih.step hstep

theorem keeping_of_reachable {program : ReleasingProgram} {s : ShutdownState}
    (hcalls : ∀ t, program.Reachable t → t.phase = .waitForPendingOps → t.pending ≤ 0 →
      t.NoCallsLeft) (h : program.Reachable s) :
    ReflTransGen (KeepingStep program) program.init s := by
  induction h with
  | refl => exact .refl
  | @tail t u ht hstep ih =>
      refine ih.tail ⟨hstep, fun hwait hspawn ↦ ?_⟩
      exact hcalls t ht hwait (hstep.pending_le hwait hspawn)

/-- Realm is shut down with nothing pending in every run in which no task has a call
left when `Stop` finds nothing pending.  All runs of a program shut down so if and
only if all of them meet the condition. -/
theorem clean_shutdown (program : ReleasingProgram) :
    (∀ s, ReflTransGen (KeepingStep program) program.init s → s.phase = .shutdown → s.Clean) ∧
      ((∀ s, program.Reachable s → s.phase = .shutdown → s.Clean) ↔
        ∀ s, program.Reachable s → s.phase = .waitForPendingOps → s.pending = 0 →
          s.NoCallsLeft) := by
  refine ⟨fun s ↦ clean_of_keeping, ?_, ?_⟩
  · intro hclean s hs hphase hpending task htask
    obtain ⟨s', hrun, hshutdown, hpending'⟩ :=
      exists_shutdown program (ordered_of_reachable hs) hphase hpending.le
    have hzero := (hclean s' (hs.trans hrun) hshutdown).pending
    rw [hpending', expected, hpending] at hzero
    have hsum : (s.tasks.map TaskState.callsLeft).sum = 0 := by omega
    exact List.sum_eq_zero_iff.mp hsum _ (List.mem_map_of_mem htask)
  · intro hcalls s hs hphase
    refine clean_of_keeping (keeping_of_reachable ?_ hs) hphase
    intro t ht hwait hpending
    have hbalanced := balanced_of_reachable ht
    rw [ShutdownState.Balanced] at hbalanced
    exact hcalls t ht hwait (by omega)

def oneRelease : ReleasingProgram where
  tasks := [⟨∅, [∅]⟩]
  waits_lt i task hi j hj := by
    obtain rfl := List.mem_singleton.mp (List.mem_of_getElem? hi)
    cases Finset.notMem_empty j hj
  stopAfter := ∅

/-- `Stop` finds nothing pending before the task has started. -/
theorem not_clean_shutdown_oneRelease :
    ¬ ∀ (program : ReleasingProgram) (s : ShutdownState), program.Reachable s →
      s.phase = .shutdown → s.Clean := by
  intro h
  have hcall : oneRelease.Reachable { oneRelease.init with phase := .waitForPendingOps } := by
    refine .single (.stop (.call ?_))
    intro j hj
    cases Finset.notMem_empty j hj
  obtain ⟨s, hrun, hshutdown, hpending⟩ := exists_shutdown oneRelease
    (ordered_of_reachable hcall) rfl le_rfl
  have hzero := (h oneRelease s (hcall.trans hrun) hshutdown).pending
  rw [hpending] at hzero
  exact absurd hzero (by decide)

end ReleasingProgram

end Zuku
