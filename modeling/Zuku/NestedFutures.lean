import Zuku.Promise
import Zuku.Library.ListLookup
import Zuku.Library.StepRuns
import Zuku.Library.TriggeredEvents

/-!
# Nested futures

A chain of tasks of which each returns the future of the next one, and the last
one a value.  The future of the first task is the one that the user holds, and
its views are made at any time while the chain runs.
-/

namespace Zuku

open Event EventPrecondition ListLookup TriggeredEvents

/-- The end of a task, the deferred event of its promise, and the readers of the
views of the user. -/
inductive ChainSignal where
  | task (i : ℕ)
  | deferred (i : ℕ)
  | reader (view : ℕ)
  deriving DecidableEq, Repr

/-- The promise of a deferred task, and the future that the call of `defer`
returns. -/
structure ChainTask where
  promise : Promise ChainSignal
  future : Future ChainSignal ValueRef

/-- A chain while it runs.  A task is deferred by the one before, so the tasks
start in order. -/
structure Chain (ν : Type) where
  heap : Heap ChainSignal ν
  tasks : List ChainTask
  started : ℕ := 0
  returned : Finset ℕ := ∅
  views : List (View ChainSignal ValueRef) := []
  triggers : List (ChainSignal × Event ChainSignal) := []
  done : Event ChainSignal := ∅

/-- A task starts, its body returns, its completion triggers; the user makes a
view of the future or of a view. -/
inductive ChainAction where
  | start
  | finish (i : ℕ)
  | complete (i : ℕ)
  | view
  | subview (view : ℕ)
  deriving DecidableEq, Repr

variable {ν : Type}

/-- `defer` of task `i` of a chain with `depth` tasks that return futures. -/
def deferChainTask (depth i : ℕ) (heap : Heap ChainSignal ν) : ChainTask × Heap ChainSignal ν :=
  if i < depth then
    let (promise, heap) := Promise.deferred (.deferred i) heap
    (⟨promise, createDeferredFuture promise⟩, heap)
  else
    let (promise, heap) := Promise.concrete heap
    (⟨promise, createConcreteFuture promise {.task i}⟩, heap)

namespace Chain

def init (depth : ℕ) : Chain ν :=
  let (task, heap) := deferChainTask depth 0 {}
  { heap := heap, tasks := [task] }

variable (depth : ℕ) (value : ν)

/-- The body of a task defers the next task, if it returns a future. -/
def start (chain : Chain ν) : Option (Chain ν) :=
  if chain.started < chain.tasks.length then
    if chain.started < depth then
      let (task, heap) := deferChainTask depth (chain.started + 1) chain.heap
      some { chain with
        heap := heap, tasks := chain.tasks ++ [task], started := chain.started + 1 }
    else some { chain with started := chain.started + 1 }
  else none

/-- The body of a task returns, and its promise is fulfilled. -/
def finish (chain : Chain ν) (i : ℕ) : Option (Chain ν) := do
  let task ← chain.tasks[i]?
  if i < chain.started ∧ i ∉ chain.returned then
    if i < depth then do
      let next ← chain.tasks[i + 1]?
      let (promise, heap, trigger) ← (task.promise.fulfill next.future chain.heap).toOption
      pure { chain with
        heap := heap
        tasks := chain.tasks.set i { task with promise := promise }
        returned := insert i chain.returned
        triggers := chain.triggers ++ [trigger] }
    else do
      let heap ← (task.promise.emplace value chain.heap).toOption
      pure { chain with heap := heap, returned := insert i chain.returned }
  else none

def complete (chain : Chain ν) (i : ℕ) : Option (Chain ν) :=
  if i ∈ chain.returned then some { chain with done := insert (.task i) chain.done } else none

/-- `view()` on the future of the user. -/
def viewFuture (chain : Chain ν) : Option (Chain ν) := do
  let task ← chain.tasks[0]?
  let (view, future) := task.future.view (.reader chain.views.length)
  pure { chain with
    tasks := chain.tasks.set 0 { task with future := future }
    views := chain.views ++ [view] }

/-- `view()` on a view. -/
def viewView (chain : Chain ν) (i : ℕ) : Option (Chain ν) := do
  let view ← chain.views[i]?
  let (subview, owner) := view.subview (.reader chain.views.length)
  pure { chain with views := chain.views.set i owner ++ [subview] }

def step (chain : Chain ν) : ChainAction → Option (Chain ν)
  | .start => chain.start depth
  | .finish i => chain.finish depth value i
  | .complete i => chain.complete i
  | .view => chain.viewFuture
  | .subview i => chain.viewView i

def run : Chain ν → List ChainAction → Option (Chain ν)
  | chain, [] => some chain
  | chain, action :: actions => do
      let chain ← chain.step depth value action
      run chain actions

/-- The future of the user is ready by the event it was created with. -/
def Ready (chain : Chain ν) : Prop :=
  ∃ task ∈ chain.tasks[0]?,
    FiresAll chain.triggers chain.done (task.future.rawPrecondition.getD noEvent)

/-- Once the future of the user is ready, it gives the value of the last task. -/
def FutureResolves (chain : Chain ν) : Prop :=
  chain.Ready → ∃ task ∈ chain.tasks[0]?, ∀ category,
    task.future.getValue chain.heap category = .ok value

/-- A view whose precondition has triggered gives the same value as the future. -/
def ViewsAgree (chain : Chain ν) : Prop :=
  ∀ view ∈ chain.views, FiresAll chain.triggers chain.done view.effectsPrecondition →
    ∃ task ∈ chain.tasks[0]?, ∃ v, view.readValue chain.heap = .ok v ∧
      ∀ category, task.future.getValue chain.heap category = .ok v

end Chain

/-! ## The invariant -/

/-- The event of a future that has no readers. -/
def chainEvent (depth i : ℕ) : Event ChainSignal :=
  if i < depth then {.deferred i} else {.task i}

/-- Where the value of the future of a task is. -/
def chainRef (depth i : ℕ) : ValueRef := if i < depth then .future i else .optional 0

/-- What holds of a chain between two steps. -/
structure ChainInv (depth : ℕ) (value : ν) (chain : Chain ν) : Prop where
  started_le : chain.started ≤ depth + 1
  length_tasks : chain.tasks.length = min (chain.started + 1) (depth + 1)
  length_futures : chain.heap.futures.length = min chain.tasks.length depth
  length_optionals : chain.heap.optionals.length = chain.tasks.length - depth
  returned : ∀ i ∈ chain.returned, i < chain.started
  /-- The futures keep what they were created with. -/
  future : ∀ (i : ℕ) task, chain.tasks[i]? = some task →
    task.future.rawPrecondition = some (chainEvent depth i) ∧
      task.future.value = some (chainRef depth i) ∧
      (i ≠ 0 → task.future.warPrecondition = none)
  /-- A promise points to the cell of its future until it has been fulfilled. -/
  promise : ∀ (i : ℕ) task, chain.tasks[i]? = some task → i ∉ chain.returned →
    task.promise.value = some (chainRef depth i) ∧
      (i < depth → task.promise.deferredEvent = some (.deferred i))
  /-- Only the promise of the last but one task has redirected its future. -/
  cell : ∀ (i : ℕ) future, chain.heap.futures[i]? = some future →
    future.value = if i + 1 = depth ∧ i ∈ chain.returned then some (.optional 0) else none
  optional : ∀ v, chain.heap.optionals[0]? = some v →
    v = if depth ∈ chain.returned then some value else none
  triggers : ∀ a ev, (a, ev) ∈ chain.triggers ↔
    ∃ i, i < depth ∧ i ∈ chain.returned ∧ a = .deferred i ∧ ev = chainEvent depth (i + 1)
  done : ∀ a ∈ chain.done, ∃ i ∈ chain.returned, a = .task i
  views : ∀ view ∈ chain.views, view.effectsPrecondition = chainEvent depth 0 ∧
    view.value = some (chainRef depth 0)

/-! ## Steps -/

section Steps

variable {depth : ℕ} {value : ν} {chain chain' : Chain ν}

theorem deferChainTask_of_lt {i : ℕ} (hi : i < depth) (heap : Heap ChainSignal ν) :
    deferChainTask depth i heap =
      (⟨⟨some (.deferred i), some (.future heap.futures.length)⟩,
        { rawPrecondition := some {.deferred i}, value := some (.future heap.futures.length) }⟩,
        { heap with futures := heap.futures ++ [{}] }) := by
  rw [deferChainTask, if_pos hi]
  rfl

theorem deferChainTask_of_not_lt {i : ℕ} (hi : ¬i < depth) (heap : Heap ChainSignal ν) :
    deferChainTask depth i heap =
      (⟨⟨none, some (.optional heap.optionals.length)⟩,
        { rawPrecondition := some {.task i}, value := some (.optional heap.optionals.length) }⟩,
        { heap with optionals := heap.optionals ++ [none] }) := by
  rw [deferChainTask, if_neg hi]
  rfl

theorem ChainInv.not_returned (h : ChainInv depth value chain) {i : ℕ} (hi : chain.started ≤ i) :
    i ∉ chain.returned :=
  fun hmem ↦ absurd (h.returned i hmem) (Nat.not_lt_of_le hi)

/-- The next task of a chain, whose number is `chain.started + 1`. -/
theorem ChainInv.push (h : ChainInv depth value chain) (hstarted : chain.started < depth)
    {task : ChainTask} {heap : Heap ChainSignal ν}
    (hpromise : task.promise.value = some (chainRef depth (chain.started + 1)) ∧
      (chain.started + 1 < depth →
        task.promise.deferredEvent = some (.deferred (chain.started + 1))))
    (hfuture : task.future.rawPrecondition = some (chainEvent depth (chain.started + 1)) ∧
      task.future.value = some (chainRef depth (chain.started + 1)) ∧
      task.future.warPrecondition = none)
    (hfutures : heap.futures.length = min (chain.started + 2) depth)
    (hoptionals : heap.optionals.length = chain.started + 2 - depth)
    (hcell : ∀ (i : ℕ) future, heap.futures[i]? = some future →
      chain.heap.futures[i]? = some future ∨ chain.started ≤ i ∧ future.value = none)
    (hoptional : ∀ v, heap.optionals[0]? = some v → chain.heap.optionals[0]? = some v ∨ v = none) :
    ChainInv depth value { chain with
      heap := heap, tasks := chain.tasks ++ [task], started := chain.started + 1 } := by
  have hn : chain.tasks.length = chain.started + 1 := by
    rw [h.length_tasks]
    omega
  have hlength : (chain.tasks ++ [task]).length = chain.started + 2 := by
    rw [List.length_append, hn, List.length_singleton]
  constructor
  · change chain.started + 1 ≤ depth + 1
    omega
  · change (chain.tasks ++ [task]).length = min (chain.started + 1 + 1) (depth + 1)
    omega
  · exact hfutures.trans (by rw [hlength])
  · exact hoptionals.trans (by rw [hlength])
  · intro i hi
    exact (h.returned i hi).trans (Nat.lt_succ_self _)
  · intro i t ht
    rcases eq_or_getElem?_of_push ht with ⟨rfl, rfl⟩ | ht
    · rw [hn]
      exact ⟨hfuture.1, hfuture.2.1, fun _ ↦ hfuture.2.2⟩
    · exact h.future i t ht
  · intro i t ht hi
    rcases eq_or_getElem?_of_push ht with ⟨rfl, rfl⟩ | ht
    · rw [hn]
      exact hpromise
    · exact h.promise i t ht hi
  · intro i future hi
    rcases hcell i future hi with hi | ⟨hle, hnone⟩
    · exact h.cell i future hi
    · rw [hnone, if_neg fun hmem ↦ h.not_returned hle hmem.2]
  · intro v hv
    rcases hoptional v hv with hv | rfl
    · exact h.optional v hv
    · exact (if_neg (h.not_returned hstarted.le)).symm
  · exact h.triggers
  · exact h.done
  · exact h.views

theorem ChainInv.start (h : ChainInv depth value chain) (hstep : chain.start depth = some chain') :
    ChainInv depth value chain' := by
  obtain ⟨hlt, hstep⟩ := Option.ite_none_right_eq_some.mp hstep
  have hlength := h.length_tasks
  have hfutures := h.length_futures
  have hoptionals := h.length_optionals
  split_ifs at hstep with hdepth
  · rcases Nat.lt_or_ge (chain.started + 1) depth with hnext | hnext
    · have hcell : chain.heap.futures.length = chain.started + 1 := by omega
      rw [deferChainTask_of_lt hnext, hcell] at hstep
      obtain rfl := Option.some.inj hstep
      apply h.push hdepth
      · exact ⟨by rw [chainRef, if_pos hnext], fun _ ↦ rfl⟩
      · exact ⟨by rw [chainEvent, if_pos hnext], by rw [chainRef, if_pos hnext], rfl⟩
      · rw [List.length_append, hcell, List.length_singleton]
        omega
      · exact hoptionals.trans (by omega)
      · intro i future hi
        rcases eq_or_getElem?_of_push hi with ⟨rfl, rfl⟩ | hi
        · exact Or.inr ⟨by omega, rfl⟩
        · exact Or.inl hi
      · exact fun v hv ↦ Or.inl hv
    · have hcell : chain.heap.optionals.length = 0 := by omega
      rw [deferChainTask_of_not_lt hnext.not_gt, hcell] at hstep
      obtain rfl := Option.some.inj hstep
      apply h.push hdepth
      · exact ⟨by rw [chainRef, if_neg hnext.not_gt], fun hlt ↦ absurd hlt hnext.not_gt⟩
      · exact ⟨by rw [chainEvent, if_neg hnext.not_gt], by rw [chainRef, if_neg hnext.not_gt], rfl⟩
      · exact hfutures.trans (by omega)
      · rw [List.length_append, hcell, List.length_singleton]
        omega
      · exact fun i future hi ↦ Or.inl hi
      · intro v hv
        rcases eq_or_getElem?_of_push hv with ⟨-, rfl⟩ | hv
        · exact Or.inr rfl
        · exact Or.inl hv
  · obtain rfl := Option.some.inj hstep
    exact
      { h with
        started_le := by
          change chain.started + 1 ≤ depth + 1
          omega
        length_tasks := by
          change chain.tasks.length = min (chain.started + 1 + 1) (depth + 1)
          omega
        returned := fun i hi ↦ (h.returned i hi).trans (Nat.lt_succ_self _) }

/-- The future of the next task, which a task returns. -/
theorem ChainInv.exists_next (h : ChainInv depth value chain) {i : ℕ} (hi : i < chain.started)
    (hdepth : i < depth) : ∃ next, chain.tasks[i + 1]? = some next := by
  refine ⟨_, List.getElem?_eq_getElem (i := i + 1) ?_⟩
  rw [h.length_tasks]
  omega

/-- The promise of a task is fulfilled with the future of the next one. -/
theorem ChainInv.finish_of_lt (h : ChainInv depth value chain) {i : ℕ} {task : ChainTask}
    (htask : chain.tasks[i]? = some task) (hstarted : i < chain.started)
    (hreturned : i ∉ chain.returned) (hdepth : i < depth) :
    ∃ promise heap, chain.finish depth value i = some { chain with
        heap := heap
        tasks := chain.tasks.set i { task with promise := promise }
        returned := insert i chain.returned
        triggers := chain.triggers ++ [(.deferred i, chainEvent depth (i + 1))] } ∧
      heap.optionals = chain.heap.optionals ∧
      heap.futures.length = chain.heap.futures.length ∧
      ∀ (k : ℕ) future, heap.futures[k]? = some future → future.value =
        if k + 1 = depth ∧ k ∈ insert i chain.returned then some (.optional 0) else none := by
  obtain ⟨next, hnext⟩ := h.exists_next hstarted hdepth
  obtain ⟨hown, hdeferred⟩ := h.promise i task htask hreturned
  obtain ⟨hraw, hvalue, hwar⟩ := h.future (i + 1) next hnext
  rw [chainRef, if_pos hdepth] at hown
  have hunfold : chain.finish depth value i =
      (task.promise.fulfill next.future chain.heap).toOption.bind fun result ↦
        some { chain with
          heap := result.2.1
          tasks := chain.tasks.set i { task with promise := result.1 }
          returned := insert i chain.returned
          triggers := chain.triggers ++ [result.2.2] } := by
    rw [Chain.finish, htask, Option.bind_eq_bind, Option.bind_some, if_pos ⟨hstarted, hreturned⟩,
      if_pos hdepth, hnext]
    rfl
  rcases Nat.lt_or_ge (i + 1) depth with hlt | hge
  · rw [chainRef, if_pos hlt] at hvalue
    rw [Promise.fulfill_deferred (hdeferred hdepth) hraw (hwar (Nat.succ_ne_zero i)) hvalue,
      Except.toOption, Option.bind_some] at hunfold
    refine ⟨_, _, hunfold, rfl, rfl, fun k future hk ↦ ?_⟩
    rw [h.cell k future hk]
    have hne : k + 1 = depth → k ≠ i := by omega
    by_cases hk : k + 1 = depth
    · simp [hk, hne hk]
    · simp [hk]
  · rw [chainRef, if_neg hge.not_gt] at hvalue
    have hlt : i < chain.heap.futures.length := by
      rw [h.length_futures, h.length_tasks]
      omega
    rw [Promise.fulfill_concrete (hdeferred hdepth) hraw (hwar (Nat.succ_ne_zero i)) hvalue hown
      (List.getElem?_eq_getElem hlt), Except.toOption, Option.bind_some] at hunfold
    refine ⟨_, _, hunfold, rfl, List.length_set, fun k future hk ↦ ?_⟩
    have hi : i + 1 = depth := by omega
    rcases eq_or_getElem?_of_set hk with ⟨rfl, rfl⟩ | ⟨hne, hk⟩
    · rw [if_pos ⟨hi, Finset.mem_insert_self _ _⟩]
    · rw [h.cell k future hk]
      simp [hne]

/-- A task that returns a future has returned. -/
theorem ChainInv.afterFinish (h : ChainInv depth value chain) {i : ℕ} {task : ChainTask}
    (htask : chain.tasks[i]? = some task) (hstarted : i < chain.started) (hdepth : i < depth)
    {promise : Promise ChainSignal} {heap : Heap ChainSignal ν}
    (hoptionals : heap.optionals = chain.heap.optionals)
    (hfutures : heap.futures.length = chain.heap.futures.length)
    (hcell : ∀ (k : ℕ) future, heap.futures[k]? = some future → future.value =
      if k + 1 = depth ∧ k ∈ insert i chain.returned then some (.optional 0) else none) :
    ChainInv depth value { chain with
      heap := heap
      tasks := chain.tasks.set i { task with promise := promise }
      returned := insert i chain.returned
      triggers := chain.triggers ++ [(.deferred i, chainEvent depth (i + 1))] } := by
  have hlength : (chain.tasks.set i { task with promise := promise }).length =
      chain.tasks.length := List.length_set
  constructor
  · exact h.started_le
  · exact hlength.trans h.length_tasks
  · change heap.futures.length = min (List.length _) depth
    rw [hfutures, hlength, h.length_futures]
  · change heap.optionals.length = List.length _ - depth
    rw [hoptionals, hlength, h.length_optionals]
  · intro k hk
    rcases Finset.mem_insert.mp hk with rfl | hk
    · exact hstarted
    · exact h.returned k hk
  · intro k t ht
    rcases eq_or_getElem?_of_set ht with ⟨rfl, rfl⟩ | ⟨-, ht⟩
    · exact h.future k task htask
    · exact h.future k t ht
  · intro k t ht hk
    rw [Finset.mem_insert, not_or] at hk
    rcases eq_or_getElem?_of_set ht with ⟨rfl, rfl⟩ | ⟨-, ht⟩
    · exact absurd rfl hk.1
    · exact h.promise k t ht hk.2
  · exact hcell
  · intro v hv
    change heap.optionals[0]? = some v at hv
    rw [hoptionals] at hv
    simp only [h.optional v hv, Finset.mem_insert, hdepth.ne', false_or]
  · intro a ev
    rw [List.mem_append, h.triggers, List.mem_singleton, Prod.mk.injEq]
    constructor
    · rintro (⟨k, hk, hmem, rfl, rfl⟩ | ⟨rfl, rfl⟩)
      · exact ⟨k, hk, Finset.mem_insert_of_mem hmem, rfl, rfl⟩
      · exact ⟨i, hdepth, Finset.mem_insert_self _ _, rfl, rfl⟩
    · rintro ⟨k, hk, hmem, rfl, rfl⟩
      rcases Finset.mem_insert.mp hmem with rfl | hmem
      · exact Or.inr ⟨rfl, rfl⟩
      · exact Or.inl ⟨k, hk, hmem, rfl, rfl⟩
  · intro a ha
    obtain ⟨k, hk, rfl⟩ := h.done a ha
    exact ⟨k, Finset.mem_insert_of_mem hk, rfl⟩
  · exact h.views

/-- The last task writes its value. -/
theorem ChainInv.finish_last (h : ChainInv depth value chain) {task : ChainTask}
    (htask : chain.tasks[depth]? = some task) (hstarted : depth < chain.started)
    (hreturned : depth ∉ chain.returned) :
    chain.finish depth value depth = some { chain with
      heap := { chain.heap with optionals := chain.heap.optionals.set 0 (some value) }
      returned := insert depth chain.returned } := by
  obtain ⟨hown, -⟩ := h.promise depth task htask hreturned
  rw [chainRef, if_neg (Nat.lt_irrefl depth)] at hown
  rw [Chain.finish, htask, Option.bind_eq_bind, Option.bind_some, if_pos ⟨hstarted, hreturned⟩,
    if_neg (Nat.lt_irrefl depth), Promise.emplace, hown]
  rfl

theorem ChainInv.afterFinish_last (h : ChainInv depth value chain)
    (hstarted : depth < chain.started) :
    ChainInv depth value { chain with
      heap := { chain.heap with optionals := chain.heap.optionals.set 0 (some value) }
      returned := insert depth chain.returned } := by
  constructor
  · exact h.started_le
  · exact h.length_tasks
  · exact h.length_futures
  · exact List.length_set.trans h.length_optionals
  · intro k hk
    rcases Finset.mem_insert.mp hk with rfl | hk
    · exact hstarted
    · exact h.returned k hk
  · exact h.future
  · intro k t ht hk
    rw [Finset.mem_insert, not_or] at hk
    exact h.promise k t ht hk.2
  · intro k future hk
    rw [h.cell k future hk]
    have hne : k + 1 = depth → k ≠ depth := by omega
    by_cases hk : k + 1 = depth
    · simp [hk, hne hk]
    · simp [hk]
  · intro v hv
    rcases eq_or_getElem?_of_set hv with ⟨-, rfl⟩ | ⟨hne, -⟩
    · rw [if_pos (Finset.mem_insert_self _ _)]
    · exact absurd rfl hne
  · intro a ev
    rw [h.triggers]
    refine exists_congr fun k ↦ and_congr_right fun hk ↦ ?_
    rw [Finset.mem_insert, or_iff_right hk.ne]
  · intro a ha
    obtain ⟨k, hk, rfl⟩ := h.done a ha
    exact ⟨k, Finset.mem_insert_of_mem hk, rfl⟩
  · exact h.views

theorem ChainInv.finish (h : ChainInv depth value chain) {i : ℕ}
    (hstep : chain.finish depth value i = some chain') : ChainInv depth value chain' := by
  obtain ⟨task, htask, hrest⟩ := Option.bind_eq_some_iff.mp hstep
  obtain ⟨⟨hstarted, hreturned⟩, -⟩ := Option.ite_none_right_eq_some.mp hrest
  rcases Nat.lt_or_ge i depth with hdepth | hdepth
  · obtain ⟨promise, heap, heq, hoptionals, hfutures, hcell⟩ :=
      h.finish_of_lt htask hstarted hreturned hdepth
    obtain rfl := Option.some.inj (heq.symm.trans hstep)
    exact h.afterFinish htask hstarted hdepth hoptionals hfutures hcell
  · obtain rfl : i = depth := by
      have := h.started_le
      omega
    obtain rfl := Option.some.inj ((h.finish_last htask hstarted hreturned).symm.trans hstep)
    exact h.afterFinish_last hstarted

theorem ChainInv.complete (h : ChainInv depth value chain) {i : ℕ}
    (hstep : chain.complete i = some chain') : ChainInv depth value chain' := by
  obtain ⟨hreturned, hstep⟩ := Option.ite_none_right_eq_some.mp hstep
  obtain rfl := Option.some.inj hstep
  refine { h with done := fun a ha ↦ ?_ }
  rcases Finset.mem_insert.mp ha with rfl | ha
  · exact ⟨i, hreturned, rfl⟩
  · exact h.done a ha

/-- Views get the event and the pointer that the future was created with. -/
theorem ChainInv.viewFuture (h : ChainInv depth value chain)
    (hstep : chain.viewFuture = some chain') : ChainInv depth value chain' := by
  obtain ⟨task, htask, hstep⟩ := Option.bind_eq_some_iff.mp hstep
  obtain rfl := Option.some.inj hstep
  obtain ⟨hraw, hvalue, -⟩ := h.future 0 task htask
  refine { h with
    length_tasks := List.length_set.trans h.length_tasks
    length_futures := ?_, length_optionals := ?_, future := ?_, promise := ?_, views := ?_ }
  · exact h.length_futures.trans (by rw [List.length_set])
  · exact h.length_optionals.trans (by rw [List.length_set])
  · intro k t ht
    rcases eq_or_getElem?_of_set ht with ⟨rfl, rfl⟩ | ⟨-, ht⟩
    · exact ⟨hraw, hvalue, fun hne ↦ absurd rfl hne⟩
    · exact h.future k t ht
  · intro k t ht hk
    rcases eq_or_getElem?_of_set ht with ⟨rfl, rfl⟩ | ⟨-, ht⟩
    · exact h.promise 0 task htask hk
    · exact h.promise k t ht hk
  · intro view hview
    rcases List.mem_append.mp hview with hview | hview
    · exact h.views view hview
    · obtain rfl := List.mem_singleton.mp hview
      exact ⟨by simp [View.effectsPrecondition, hraw], hvalue⟩

theorem ChainInv.viewView (h : ChainInv depth value chain) {i : ℕ}
    (hstep : chain.viewView i = some chain') : ChainInv depth value chain' := by
  obtain ⟨view, hview, hstep⟩ := Option.bind_eq_some_iff.mp hstep
  obtain rfl := Option.some.inj hstep
  have hown := h.views view (List.mem_of_getElem? hview)
  refine { h with views := fun v hv ↦ ?_ }
  rcases List.mem_append.mp hv with hv | hv
  · rcases List.mem_or_eq_of_mem_set hv with hv | rfl
    · exact h.views v hv
    · exact hown
  · obtain rfl := List.mem_singleton.mp hv
    exact hown

theorem ChainInv.step (h : ChainInv depth value chain) {action : ChainAction}
    (hstep : chain.step depth value action = some chain') : ChainInv depth value chain' := by
  cases action with
  | start => exact h.start hstep
  | finish i => exact h.finish hstep
  | complete i => exact h.complete hstep
  | view => exact h.viewFuture hstep
  | subview i => exact h.viewView hstep

theorem ChainInv.run (h : ChainInv depth value chain) {actions : List ChainAction}
    (hrun : chain.run depth value actions = some chain') : ChainInv depth value chain' :=
  StepRuns.run_invariant (fun chain action chain' ↦ chain.step depth value action = some chain')
    (fun chain actions chain' ↦ chain.run depth value actions = some chain')
    (fun _ _ ↦ Option.some.inj) (fun _ _ _ _ ↦ Option.bind_eq_some_iff.mp)
    (fun _ _ _ h hstep ↦ h.step hstep) h hrun

theorem chainInv_init (depth : ℕ) (value : ν) : ChainInv depth value (Chain.init depth) := by
  have hstate : ∃ task heap, (Chain.init depth : Chain ν) = { heap := heap, tasks := [task] } ∧
      task.promise.value = some (chainRef depth 0) ∧
      (0 < depth → task.promise.deferredEvent = some (.deferred 0)) ∧
      task.future.rawPrecondition = some (chainEvent depth 0) ∧
      task.future.value = some (chainRef depth 0) ∧
      heap.futures.length = min 1 depth ∧ heap.optionals.length = 1 - depth ∧
      (∀ (i : ℕ) future, heap.futures[i]? = some future → future.value = none) ∧
      ∀ v, heap.optionals[0]? = some v → v = none := by
    rcases Nat.eq_zero_or_pos depth with rfl | hdepth
    · refine ⟨_, _, rfl, rfl, fun hlt ↦ absurd hlt (Nat.lt_irrefl 0), rfl, rfl, rfl, rfl, ?_, ?_⟩
      · intro i future hi
        change ([] : List (Future ChainSignal ValueRef))[i]? = some future at hi
        exact absurd hi (by simp)
      · exact fun v hv ↦ (Option.some.inj hv).symm
    · rw [Chain.init, deferChainTask_of_lt hdepth]
      refine ⟨_, _, rfl, ?_, fun _ ↦ rfl, ?_, ?_, ?_, ?_, fun i future hi ↦ ?_, ?_⟩
      · rw [chainRef, if_pos hdepth]
        rfl
      · rw [chainEvent, if_pos hdepth]
      · rw [chainRef, if_pos hdepth]
        rfl
      · change 1 = min 1 depth
        omega
      · change 0 = 1 - depth
        omega
      · have hmem := List.mem_of_getElem? hi
        obtain rfl := List.mem_singleton.mp hmem
        rfl
      · exact fun v hv ↦ absurd hv (by simp)
  obtain ⟨task, heap, hinit, hown, hdeferred, hraw, hvalue, hfutures, hoptionals, hcell,
    hoptional⟩ := hstate
  have hroot {i : ℕ} {t : ChainTask} (ht : [task][i]? = some t) : i = 0 ∧ t = task := by
    obtain ⟨hlt, rfl⟩ := List.getElem?_eq_some_iff.mp ht
    obtain rfl : i = 0 := Nat.lt_one_iff.mp hlt
    exact ⟨rfl, rfl⟩
  rw [hinit]
  constructor
  · exact Nat.zero_le _
  · change 1 = min (0 + 1) (depth + 1)
    omega
  · exact hfutures
  · exact hoptionals
  · exact fun i hi ↦ absurd hi (Finset.notMem_empty i)
  · intro i t ht
    obtain ⟨rfl, rfl⟩ := hroot ht
    exact ⟨hraw, hvalue, fun hne ↦ absurd rfl hne⟩
  · intro i t ht _
    obtain ⟨rfl, rfl⟩ := hroot ht
    exact ⟨hown, hdeferred⟩
  · intro i future hi
    simp [hcell i future hi]
  · intro v hv
    simp [hoptional v hv]
  · intro a ev
    simp
  · exact fun a ha ↦ absurd ha (Finset.notMem_empty a)
  · exact fun view hview ↦ absurd hview List.not_mem_nil

end Steps

end Zuku
