import Zuku.NestedFutures

/-!
# The values of nested futures

A promise that is fulfilled with a deferred future keeps the pointer to itself:
the user's future stays without a value when the chain is longer than two tasks.
A view never follows the pointer to a future.
-/

namespace Zuku

open Event EventPrecondition TriggeredEvents

variable {ν : Type} {depth : ℕ} {value : ν} {chain : Chain ν}

/-! ## What has happened when a future is ready -/

section Ready

theorem ChainInv.returned_of_task (h : ChainInv depth value chain) {i : ℕ}
    (hfires : Fires chain.triggers chain.done (.task i)) : i ∈ chain.returned := by
  cases hfires with
  | done hmem =>
      obtain ⟨j, hj, heq⟩ := h.done _ hmem
      obtain rfl := ChainSignal.task.inj heq
      exact hj
  | trigger hmem _ =>
      obtain ⟨j, -, -, heq, -⟩ := (h.triggers _ _).mp hmem
      cases heq

theorem ChainInv.fires_deferred (h : ChainInv depth value chain) {i : ℕ} :
    Fires chain.triggers chain.done (.deferred i) ↔ i < depth ∧ i ∈ chain.returned ∧
      FiresAll chain.triggers chain.done (chainEvent depth (i + 1)) := by
  have hdone : .deferred i ∉ chain.done := by
    intro hmem
    obtain ⟨j, -, heq⟩ := h.done _ hmem
    cases heq
  rw [fires_iff_exists hdone]
  constructor
  · rintro ⟨ev, hev, hall⟩
    obtain ⟨j, hj, hreturned, heq, rfl⟩ := (h.triggers _ _).mp hev
    obtain rfl := ChainSignal.deferred.inj heq
    exact ⟨hj, hreturned, hall⟩
  · rintro ⟨hi, hreturned, hall⟩
    exact ⟨_, (h.triggers _ _).mpr ⟨i, hi, hreturned, rfl, rfl⟩, hall⟩

theorem ChainInv.firesAll_of_ready (h : ChainInv depth value chain) (hready : chain.Ready) :
    FiresAll chain.triggers chain.done (chainEvent depth 0) := by
  obtain ⟨task, htask, hall⟩ := hready
  rwa [(h.future 0 task htask).1] at hall

theorem ChainInv.exists_first (h : ChainInv depth value chain) :
    ∃ task, chain.tasks[0]? = some task := by
  refine ⟨_, List.getElem?_eq_getElem (i := 0) ?_⟩
  rw [h.length_tasks]
  omega

/-- With the first future of a chain of at most two tasks the last task has
returned, and before it the one that passed its future on. -/
theorem ChainInv.returned_of_firesAll (h : ChainInv depth value chain) (hdepth : depth ≤ 1)
    (hall : FiresAll chain.triggers chain.done (chainEvent depth 0)) :
    0 ∈ chain.returned ∧ depth ∈ chain.returned := by
  obtain rfl | rfl : depth = 0 ∨ depth = 1 := by omega
  · have hreturned := h.returned_of_task (hall (.task 0) (Finset.mem_singleton_self _))
    exact ⟨hreturned, hreturned⟩
  · obtain ⟨-, hreturned, hnext⟩ :=
      h.fires_deferred.mp (hall (.deferred 0) (Finset.mem_singleton_self _))
    exact ⟨hreturned, h.returned_of_task (hnext (.task 1) (Finset.mem_singleton_self _))⟩

end Ready

/-! ## The value -/

section Value

/-- The value can be read once the last task has returned. -/
theorem ChainInv.readOptional (h : ChainInv depth value chain) (hreturned : depth ∈ chain.returned)
    (category : ValueCategory) : chain.heap.readOptional category 0 = .ok value := by
  have hstarted := h.returned depth hreturned
  have hlt : 0 < chain.heap.optionals.length := by
    rw [h.length_optionals, h.length_tasks]
    omega
  obtain ⟨v, hv⟩ : ∃ v, chain.heap.optionals[0]? = some v := ⟨_, List.getElem?_eq_getElem hlt⟩
  obtain rfl := (h.optional v hv).trans (if_pos hreturned)
  unfold Heap.readOptional
  rw [hv]

/-- The cell of the first future. -/
theorem ChainInv.exists_cell (h : ChainInv depth value chain) (hdepth : 0 < depth) :
    ∃ n future, chain.heap.futures.length = n + 1 ∧ chain.heap.futures[0]? = some future := by
  have hlength := h.length_futures
  rw [h.length_tasks] at hlength
  exact ⟨chain.heap.futures.length - 1, _, by omega, List.getElem?_eq_getElem (i := 0) (by omega)⟩

/-- What `get_value` gives for the future of the user. -/
theorem ChainInv.getValue_eq (h : ChainInv depth value chain) {task : ChainTask}
    (htask : chain.tasks[0]? = some task) (category : ValueCategory) :
    task.future.getValue chain.heap category =
      if depth = 0 ∨ depth = 1 ∧ 0 ∈ chain.returned then chain.heap.readOptional category 0
      else .error .nullPointer := by
  rw [Future.getValue, (h.future 0 task htask).2.1]
  rcases Nat.eq_zero_or_pos depth with rfl | hdepth
  · rw [if_pos (Or.inl rfl), chainRef, if_neg (Nat.lt_irrefl 0), Heap.getValue]
  · obtain ⟨n, future, hlength, hcell⟩ := h.exists_cell hdepth
    rw [chainRef, if_pos hdepth, hlength, Heap.getValue, hcell]
    simp only [h.cell 0 future hcell, hdepth.ne', false_or, Nat.zero_add, eq_comm (a := 1)]
    split
    case isTrue => rw [Heap.getValue]
    case isFalse => rw [Heap.getValue]

/-- What `value` gives for a view of the user. -/
theorem ChainInv.readValue_eq (h : ChainInv depth value chain) {view : View ChainSignal ValueRef}
    (hview : view ∈ chain.views) : view.readValue chain.heap =
      if depth = 0 then chain.heap.readOptional .byReference 0
      else .error (.runtimeError "cannot get value from View with unresolved Future") := by
  rw [View.readValue, (h.views view hview).2, chainRef]
  rcases Nat.eq_zero_or_pos depth with rfl | hdepth
  · rfl
  · rw [if_pos hdepth, if_neg hdepth.ne']

theorem ChainInv.futureResolves (h : ChainInv depth value chain) (hdepth : depth ≤ 1) :
    chain.FutureResolves value := by
  intro hready
  obtain ⟨hfirst, hlast⟩ := h.returned_of_firesAll hdepth (h.firesAll_of_ready hready)
  obtain ⟨task, htask⟩ := h.exists_first
  refine ⟨task, htask, fun category ↦ ?_⟩
  have hshort : depth = 0 ∨ depth = 1 ∧ 0 ∈ chain.returned :=
    (Nat.le_one_iff_eq_zero_or_eq_one.mp hdepth).imp_right fun hone ↦ ⟨hone, hfirst⟩
  rw [h.getValue_eq htask, if_pos hshort, h.readOptional hlast]

theorem ChainInv.viewsAgree (h : ChainInv 0 value chain) : chain.ViewsAgree := by
  intro view hview hall
  rw [(h.views view hview).1] at hall
  obtain ⟨-, hlast⟩ := h.returned_of_firesAll (Nat.zero_le 1) hall
  obtain ⟨task, htask⟩ := h.exists_first
  refine ⟨task, htask, value, ?_, fun category ↦ ?_⟩
  · rw [h.readValue_eq hview, if_pos rfl, h.readOptional hlast]
  · rw [h.getValue_eq htask, if_pos (Or.inl rfl), h.readOptional hlast]

end Value

/-! ## Complete runs -/

section Complete

/-- The chain can get to another state. -/
def Chain.Reaches (depth : ℕ) (value : ν) (chain chain' : Chain ν) : Prop :=
  ∃ actions, chain.run depth value actions = some chain'

variable {chain' chain'' : Chain ν}

theorem Chain.Reaches.refl (depth : ℕ) (value : ν) (chain : Chain ν) :
    Chain.Reaches depth value chain chain := ⟨[], rfl⟩

theorem Chain.Reaches.head {action : ChainAction}
    (hstep : chain.step depth value action = some chain')
    (h : Chain.Reaches depth value chain' chain'') : Chain.Reaches depth value chain chain'' := by
  obtain ⟨actions, hrun⟩ := h
  refine ⟨action :: actions, ?_⟩
  rw [Chain.run, hstep]
  exact hrun

theorem ChainInv.exists_start (h : ChainInv depth value chain) (hle : chain.started ≤ depth) :
    ∃ chain', chain.step depth value .start = some chain' ∧ chain'.started = chain.started + 1 ∧
      chain'.returned = chain.returned ∧ chain'.views = chain.views := by
  have hlt : chain.started < chain.tasks.length := by
    rw [h.length_tasks]
    omega
  rw [Chain.step, Chain.start, if_pos hlt]
  split_ifs
  · exact ⟨_, rfl, rfl, rfl, rfl⟩
  · exact ⟨_, rfl, rfl, rfl, rfl⟩

theorem ChainInv.exists_finish (h : ChainInv depth value chain) {i : ℕ}
    (hstarted : i < chain.started) (hreturned : i ∉ chain.returned) :
    ∃ chain', chain.step depth value (.finish i) = some chain' ∧
      chain'.started = chain.started ∧ chain'.returned = insert i chain.returned ∧
      chain'.done = chain.done ∧ chain'.views = chain.views := by
  have hle := h.started_le
  have hlt : i < chain.tasks.length := by
    rw [h.length_tasks]
    omega
  obtain ⟨task, htask⟩ : ∃ task, chain.tasks[i]? = some task := ⟨_, List.getElem?_eq_getElem hlt⟩
  rcases Nat.lt_or_ge i depth with hdepth | hdepth
  · obtain ⟨promise, heap, heq, -⟩ := h.finish_of_lt htask hstarted hreturned hdepth
    exact ⟨_, heq, rfl, rfl, rfl, rfl⟩
  · obtain rfl : i = depth := by omega
    exact ⟨_, h.finish_last htask hstarted hreturned, rfl, rfl, rfl, rfl⟩

/-- The user's future is ready once all tasks have returned and the last one has
completed. -/
theorem ChainInv.ready (h : ChainInv depth value chain) (hdone : .task depth ∈ chain.done)
    (hreturned : ∀ i < depth, i ∈ chain.returned) : chain.Ready := by
  have hall (k : ℕ) : ∀ i, i + k = depth →
      FiresAll chain.triggers chain.done (chainEvent depth i) := by
    induction k with
    | zero =>
        rintro i rfl
        rw [chainEvent, if_neg (by omega)]
        exact fun a ha ↦ Finset.mem_singleton.mp ha ▸ .done hdone
    | succ k ih =>
        intro i hi
        have hlt : i < depth := by omega
        rw [chainEvent, if_pos hlt]
        intro a ha
        rw [Finset.mem_singleton.mp ha]
        exact h.fires_deferred.mpr ⟨hlt, hreturned i hlt, ih (i + 1) (by omega)⟩
  obtain ⟨task, htask⟩ := h.exists_first
  refine ⟨task, htask, ?_⟩
  rw [(h.future 0 task htask).1]
  exact hall depth 0 (Nat.zero_add depth)

/-- The bodies return from the last but one down to the first. -/
theorem ChainInv.exists_ready_of_started (h : ChainInv depth value chain)
    (hstarted : chain.started = depth + 1) (hdone : .task depth ∈ chain.done) {k : ℕ}
    (hk : k ≤ depth) (hreturned : ∀ i < depth, k ≤ i ↔ i ∈ chain.returned) :
    ∃ chain', Chain.Reaches depth value chain chain' ∧ chain'.Ready ∧
      chain'.views = chain.views := by
  induction k generalizing chain with
  | zero =>
      refine ⟨chain, .refl depth value chain, h.ready hdone fun i hi ↦ ?_, rfl⟩
      exact (hreturned i hi).mp (Nat.zero_le i)
  | succ k ih =>
      have hk' : k ∉ chain.returned := by
        rw [← hreturned k hk]
        omega
      obtain ⟨next, hstep, hstarted', hreturned', hdone', hviews⟩ :=
        h.exists_finish (i := k) (by omega) hk'
      obtain ⟨last, hreach, hready, hlast⟩ := ih (h.step hstep) (hstarted'.trans hstarted)
        (hdone' ▸ hdone) (by omega) fun i hi ↦ by
          rw [hreturned', Finset.mem_insert, ← hreturned i hi]
          omega
      exact ⟨last, hreach.head hstep, hready, hlast.trans hviews⟩

/-- All tasks start and the last one completes. -/
theorem ChainInv.exists_ready (h : ChainInv depth value chain) (hnone : chain.returned = ∅) {k : ℕ}
    (hk : chain.started + k = depth + 1) :
    ∃ chain', Chain.Reaches depth value chain chain' ∧ chain'.Ready ∧
      chain'.views = chain.views := by
  induction k generalizing chain with
  | zero =>
      have hlast : depth ∉ chain.returned := by simp [hnone]
      obtain ⟨next, hstep, hstarted, hreturned, -, hviews⟩ :=
        h.exists_finish (i := depth) (by omega) hlast
      have hmem : depth ∈ next.returned := hreturned ▸ Finset.mem_insert_self _ _
      have hcomplete : next.step depth value (.complete depth) = some
          { next with done := insert (.task depth) next.done } := if_pos hmem
      have hreturned' : ∀ i < depth, depth ≤ i ↔ i ∈ next.returned := by
        intro i hi
        rw [hreturned, hnone, Finset.mem_insert, or_iff_left (Finset.notMem_empty i)]
        omega
      obtain ⟨last, hreach, hready, hlast⟩ :=
        ((h.step hstep).step hcomplete).exists_ready_of_started (hstarted.trans hk)
          (Finset.mem_insert_self _ _) le_rfl hreturned'
      exact ⟨last, (hreach.head hcomplete).head hstep, hready, hlast.trans hviews⟩
  | succ k ih =>
      obtain ⟨next, hstep, hstarted, hreturned, hviews⟩ := h.exists_start (by omega)
      obtain ⟨last, hreach, hready, hlast⟩ :=
        ih (h.step hstep) (hreturned.trans hnone) (by omega)
      exact ⟨last, hreach.head hstep, hready, hlast.trans hviews⟩

end Complete

/-- In every run of a chain the future of the user has the value of the last task
when it is ready, exactly for chains in which at most one task returns a future. -/
theorem nested_futures_resolve_iff (depth : ℕ) (value : ν) :
    (∀ actions chain, (Chain.init depth).run depth value actions = some chain →
      chain.FutureResolves value) ↔ depth ≤ 1 := by
  constructor
  · intro hall
    by_contra hdeep
    have h := chainInv_init depth value
    obtain ⟨chain, ⟨actions, hrun⟩, hready, -⟩ :=
      h.exists_ready (k := depth + 1) rfl (Nat.zero_add _)
    have hchain := h.run hrun
    obtain ⟨task, htask, hvalue⟩ := hall actions chain hrun hready
    have hnull := hchain.getValue_eq htask .byReference
    rw [hvalue, if_neg (by omega)] at hnull
    cases hnull
  · intro hdepth actions chain hrun
    exact ((chainInv_init depth value).run hrun).futureResolves hdepth

/-- Three tasks start, and their bodies return from the last to the first. -/
def threeTasks : List ChainAction :=
  [.start, .start, .start, .finish 2, .complete 2, .finish 1, .finish 0]

/-- Two tasks that return futures: the promise of the first is redirected, and
the user follows a null pointer. -/
theorem not_nested_futures_resolve_two :
    ¬ ∀ (depth value : ℕ) (actions : List ChainAction) (chain : Chain ℕ),
      (Chain.init depth).run depth value actions = some chain → chain.FutureResolves value := by
  intro h
  have hfacts : ((Chain.init 2).run 2 7 threeTasks).any (fun chain : Chain ℕ ↦
      decide (.task 2 ∈ chain.done ∧ 0 ∈ chain.returned ∧ 1 ∈ chain.returned)) = true := by decide
  obtain ⟨chain, hrun, hfacts⟩ := (Option.any_eq_true _ _).mp hfacts
  obtain ⟨hdone, hzero, hone⟩ := of_decide_eq_true hfacts
  have hchain := (chainInv_init 2 7).run hrun
  have hready : chain.Ready := hchain.ready hdone fun i hi ↦ by
    interval_cases i
    · exact hzero
    · exact hone
  obtain ⟨task, htask, hvalue⟩ := h 2 7 threeTasks chain hrun hready
  have hnull := hchain.getValue_eq htask .byReference
  rw [hvalue, if_neg (by simp)] at hnull
  cases hnull

/-- In every run of a chain each view gives the value of the future when it is
ready, exactly for futures of a task that returns a value. -/
theorem views_agree_iff (depth : ℕ) (value : ν) :
    (∀ actions chain, (Chain.init depth).run depth value actions = some chain →
      chain.ViewsAgree) ↔ depth = 0 := by
  constructor
  · intro hall
    by_contra hdeep
    -- a view that is made before any task starts
    obtain ⟨task, htask⟩ := (chainInv_init depth value).exists_first
    have hview : (Chain.init depth : Chain ν).step depth value .view = some
        { (Chain.init depth : Chain ν) with
          tasks := (Chain.init depth : Chain ν).tasks.set 0
            { task with future := (task.future.view (.reader 0)).2 }
          views := [(task.future.view (.reader 0)).1] } := by
      rw [Chain.step, Chain.viewFuture, htask]
      rfl
    have h := (chainInv_init depth value).step hview
    obtain ⟨chain, ⟨actions, hrun⟩, hready, hviews⟩ :=
      h.exists_ready (k := depth + 1) rfl (Nat.zero_add _)
    have hchain := h.run hrun
    have hmem : (task.future.view (.reader 0)).1 ∈ chain.views := hviews ▸ List.mem_cons_self
    have hevent := (hchain.views _ hmem).1
    obtain ⟨-, -, v, hread, -⟩ := hall (.view :: actions) chain
      (by rw [Chain.run, hview]; exact hrun) _ hmem (hevent ▸ hchain.firesAll_of_ready hready)
    rw [hchain.readValue_eq hmem, if_neg hdeep] at hread
    cases hread
  · rintro rfl actions chain hrun
    exact ((chainInv_init 0 value).run hrun).viewsAgree

/-- Two tasks run, and a view is made before. -/
def viewedTasks : List ChainAction := [.view, .start, .start, .finish 1, .complete 1, .finish 0]

/-- A task that returns a future: the future gives its value, a view of it throws. -/
theorem not_views_agree_one :
    ¬ ∀ (depth value : ℕ) (actions : List ChainAction) (chain : Chain ℕ),
      (Chain.init depth).run depth value actions = some chain → chain.ViewsAgree := by
  intro h
  have hfacts : ((Chain.init 1).run 1 7 viewedTasks).any (fun chain : Chain ℕ ↦
      decide (.task 1 ∈ chain.done ∧ 0 ∈ chain.returned ∧ chain.views.isEmpty = false)) = true := by
    decide
  obtain ⟨chain, hrun, hfacts⟩ := (Option.any_eq_true _ _).mp hfacts
  obtain ⟨hdone, hreturned, hviews⟩ := of_decide_eq_true hfacts
  have hchain := (chainInv_init 1 7).run hrun
  obtain ⟨view, hview⟩ := List.exists_mem_of_ne_nil _ (List.isEmpty_eq_false_iff.mp hviews)
  have hready := hchain.firesAll_of_ready (hchain.ready hdone fun i hi ↦ by
    rwa [Nat.lt_one_iff.mp hi])
  obtain ⟨-, -, v, hread, -⟩ := h 1 7 viewedTasks chain hrun view hview
    ((hchain.views view hview).1 ▸ hready)
  rw [hchain.readValue_eq hview] at hread
  cases hread

end Zuku
