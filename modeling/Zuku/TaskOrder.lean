import Zuku.StoreUses

/-!
# What a task waits for

The stores remember every writer and, since the last writer, every reader.  So
a task waits for every earlier task with which it shares a store that one of
them writes: for writers and recent readers at once, and for older readers
through the writer after them.
-/

namespace Zuku

open Event EventPrecondition

variable {ε β κ ν σ : Type}

/-! ## Mapping one store -/

section ToTaskArgument

variable [DecidableEq ε] (store : Store ε β) (stream effects : Event ε)

@[simp] theorem effectsPrecondition_write :
    (toTaskArgument store stream effects .write).1.effectsPrecondition =
      effectsOf store.warPrecondition ∪ effectsOf store.childRwEvent :=
  (store.newChild none).effectsPrecondition_eq

@[simp] theorem effectsPrecondition_read :
    (toTaskArgument store stream effects .read).1.effectsPrecondition =
      effectsOf store.childRwEvent := rfl

@[simp] theorem childRwEvent_write :
    effectsOf (toTaskArgument store stream effects .write).2.childRwEvent =
      effects ∪ effectsOf store.childRwEvent :=
  store.effectsOf_childRwEvent_readyAfter stream effects

@[simp] theorem childRwEvent_read :
    (toTaskArgument store stream effects .read).2.childRwEvent = store.childRwEvent := rfl

@[simp] theorem warPrecondition_read :
    effectsOf (toTaskArgument store stream effects .read).2.warPrecondition =
      effectsOf store.warPrecondition ∪ effects :=
  store.effectsOf_warPrecondition_addReader stream effects

/-- Mapping a store keeps its writers. -/
theorem subset_childRwEvent (access : Access) :
    effectsOf store.childRwEvent ⊆
      effectsOf (toTaskArgument store stream effects access).2.childRwEvent := by
  cases access with
  | read => rw [childRwEvent_read]
  | write =>
      rw [childRwEvent_write]
      exact Finset.subset_union_right

/-- Every argument waits for the writers of its store. -/
theorem subset_effectsPrecondition (access : Access) :
    effectsOf store.childRwEvent ⊆
      (toTaskArgument store stream effects access).1.effectsPrecondition := by
  cases access with
  | read => rw [effectsPrecondition_read]
  | write =>
      rw [effectsPrecondition_write]
      exact Finset.subset_union_right

end ToTaskArgument

/-! ## Mapping all stores -/

section StoreArgs

variable [DecidableEq ε] [DecidableEq κ] {stream effects : Event ε} {stores : κ → Store ε β}
  {uses : List (κ × Access)}

theorem storeArgs_of_not_mem {s : κ} (hs : s ∉ uses.map Prod.fst) :
    (storeArgsAndSetPostcondition stream effects stores uses).2 s = stores s := by
  induction uses generalizing stores with
  | nil => rfl
  | cons use uses ih =>
      rw [List.map_cons, List.mem_cons, not_or] at hs
      rw [storeArgsAndSetPostcondition]
      exact (ih hs.2).trans (Function.update_of_ne hs.1 _ _)

theorem storeArgs_of_mem (hnodup : (uses.map Prod.fst).Nodup) {s : κ} {access : Access}
    (hs : (s, access) ∈ uses) :
    (storeArgsAndSetPostcondition stream effects stores uses).2 s =
      (toTaskArgument (stores s) stream effects access).2 := by
  induction uses generalizing stores with
  | nil => exact absurd hs List.not_mem_nil
  | cons use uses ih =>
      rw [List.map_cons, List.nodup_cons] at hnodup
      rw [storeArgsAndSetPostcondition]
      rcases List.mem_cons.mp hs with rfl | hs
      · exact (storeArgs_of_not_mem hnodup.1).trans (Function.update_self _ _ _)
      · have hne : s ≠ use.1 := by
          rintro rfl
          exact hnodup.1 (List.mem_map.mpr ⟨_, hs, rfl⟩)
        rw [ih hnodup.2 hs, Function.update_of_ne hne]

theorem toTaskArgument_mem_storeArgs (hnodup : (uses.map Prod.fst).Nodup) {s : κ}
    {access : Access} (hs : (s, access) ∈ uses) :
    (toTaskArgument (stores s) stream effects access).1 ∈
      (storeArgsAndSetPostcondition stream effects stores uses).1 := by
  induction uses generalizing stores with
  | nil => exact absurd hs List.not_mem_nil
  | cons use uses ih =>
      rw [List.map_cons, List.nodup_cons] at hnodup
      rw [storeArgsAndSetPostcondition]
      rcases List.mem_cons.mp hs with rfl | hs
      · exact List.mem_cons_self
      · have hne : s ≠ use.1 := by
          rintro rfl
          exact hnodup.1 (List.mem_map.mpr ⟨_, hs, rfl⟩)
        apply List.mem_cons_of_mem
        rw [← Function.update_of_ne hne (toTaskArgument (stores use.1) stream effects use.2).2
          stores]
        exact ih hnodup.2 hs

end StoreArgs

/-! ## The precondition of a task -/

section StartPrecondition

variable [DecidableEq ε]

theorem dependency_of_not_hasPrecondition {streamOrdered : Bool} {argument : StoredArgument ε β}
    (h : argument.hasPrecondition = false) : argument.dependency streamOrdered = ∅ := by
  cases argument with
  | child store =>
      have hnone : store.warPrecondition = none ∧ store.childRwEvent = none := by
        simpa [StoredArgument.hasPrecondition, Store.hasPrecondition] using h
      cases streamOrdered <;>
        simp [StoredArgument.dependency, StoredArgument.streamPrecondition,
          StoredArgument.effectsPrecondition, Store.streamPrecondition, hnone, noEvent]
  | view v =>
      have hnone : v.precondition = none := by
        simpa [StoredArgument.hasPrecondition, View.hasPrecondition] using h
      cases streamOrdered <;>
        simp [StoredArgument.dependency, StoredArgument.streamPrecondition,
          StoredArgument.effectsPrecondition, View.streamPrecondition, View.effectsPrecondition,
          hnone, noEvent]

theorem mem_biUnion_addTaskDependencies {context : DeferContext ε}
    {arguments : List (StoredArgument ε β)} {c : ε} :
    c ∈ (addTaskDependencies context arguments).biUnion id ↔
      ∃ argument ∈ arguments, c ∈ argument.dependency context.streamOrdered.isSome := by
  simp only [addTaskDependencies, Finset.mem_biUnion, List.mem_toFinset, List.mem_map,
    List.mem_filter, id_eq]
  constructor
  · rintro ⟨-, ⟨argument, ⟨hargument, -⟩, rfl⟩, hc⟩
    exact ⟨argument, hargument, hc⟩
  · rintro ⟨argument, hargument, hc⟩
    have hhas : argument.hasPrecondition = true := by
      by_contra hno
      rw [dependency_of_not_hasPrecondition (by simpa using hno)] at hc
      exact absurd hc (Finset.notMem_empty c)
    exact ⟨_, ⟨argument, ⟨hargument, hhas⟩, rfl⟩, hc⟩

/-- A task starts after the event of its context and the events of its
arguments. -/
theorem mem_startPrecondition_iff {context : DeferContext ε}
    {arguments : List (StoredArgument ε β)} {c : ε} :
    c ∈ startPrecondition context
        (mergePreconditions (addTaskDependencies context arguments)) ↔
      (∃ after ∈ context.after, c ∈ after) ∨
        ∃ argument ∈ arguments, c ∈ argument.dependency context.streamOrdered.isSome := by
  rw [← mem_biUnion_addTaskDependencies, mergePreconditions]
  split
  · rename_i hempty
    cases hafter : context.after <;> simp [startPrecondition, hafter, hempty, noEvent]
  · cases hafter : context.after <;> simp [startPrecondition, hafter, mergeEvents]

theorem mem_startPrecondition {context : DeferContext ε} (hstream : context.streamOrdered = none)
    {arguments : List (StoredArgument ε β)} {argument : StoredArgument ε β}
    (hargument : argument ∈ arguments) {c : ε} (hc : c ∈ argument.effectsPrecondition) :
    c ∈ startPrecondition context (mergePreconditions (addTaskDependencies context arguments)) := by
  apply mem_startPrecondition_iff.mpr
  exact Or.inr ⟨argument, hargument, by rw [hstream]; exact hc⟩

end StartPrecondition

/-! ## What a program has recorded -/

namespace Call

variable {call : Call κ ν σ ε} {s : κ}

theorem mem_written_iff : s ∈ call.written ↔ (s, .write) ∈ call.uses := by
  simp [written]

theorem mem_stores_iff : s ∈ call.stores ↔ ∃ access, (s, access) ∈ call.uses := by
  simp [stores]

theorem mem_stores_of_mem_written (hs : s ∈ call.written) : s ∈ call.stores :=
  mem_stores_iff.mpr ⟨_, mem_written_iff.mp hs⟩

/-- Two calls use the same store and one of them writes it. -/
def Conflicts (a b : Call κ ν σ ε) : Prop :=
  ∃ s, (s ∈ a.written ∧ s ∈ b.stores) ∨ (s ∈ a.stores ∧ s ∈ b.written)

end Call

/-- The task with this number waits for the completion. -/
def Waits (preconditions : List (Event (Completion ε))) (task : ℕ) : Set (Completion ε) :=
  {c | ∃ precondition, preconditions[task]? = some precondition ∧ c ∈ precondition}

/-- Task `j` waits for task `i`, at once or through other tasks. -/
def RunsBefore (preconditions : List (Event (Completion ε))) (i j : ℕ) : Prop :=
  Relation.TransGen (fun i j ↦ Completion.task i ∈ Waits preconditions j) i j

theorem waits_push_subset (preconditions : List (Event (Completion ε)))
    (precondition : Event (Completion ε)) (task : ℕ) :
    Waits preconditions task ⊆ Waits (preconditions ++ [precondition]) task := by
  rintro c ⟨p, hp, hc⟩
  exact ⟨p, by rw [List.getElem?_append_left (List.getElem?_eq_some_iff.mp hp).1, hp], hc⟩

theorem RunsBefore.push {preconditions : List (Event (Completion ε))} {i j : ℕ}
    (h : RunsBefore preconditions i j) (precondition : Event (Completion ε)) :
    RunsBefore (preconditions ++ [precondition]) i j :=
  Relation.TransGen.mono (fun _ _ hwaits ↦ waits_push_subset _ _ _ hwaits) _ _ h

theorem waits_push_self {preconditions : List (Event (Completion ε))}
    {precondition : Event (Completion ε)} {c : Completion ε} (hc : c ∈ precondition) :
    c ∈ Waits (preconditions ++ [precondition]) preconditions.length :=
  ⟨precondition, by simp, hc⟩

/-- What the stores know of the calls so far, and how their tasks are ordered. -/
structure Tracked (program : List (Call κ ν σ ε)) (deferred : Deferred κ ε β) : Prop where
  length_eq : deferred.preconditions.length = program.length
  writer : ∀ i call s, program[i]? = some call → s ∈ call.written →
    .task i ∈ effectsOf (deferred.stores s).childRwEvent
  /-- A reader is remembered, or waited for by a writer that is. -/
  reader : ∀ i call s, program[i]? = some call → s ∈ call.stores →
    .task i ∈ effectsOf (deferred.stores s).warPrecondition ∨
      .task i ∈ effectsOf (deferred.stores s).childRwEvent ∨
      ∃ k, .task i ∈ Waits deferred.preconditions k ∧
        .task k ∈ effectsOf (deferred.stores s).childRwEvent
  ordered : ∀ i j a b, i < j → program[i]? = some a → program[j]? = some b → a.Conflicts b →
    RunsBefore deferred.preconditions i j

section Program

variable [DecidableEq ε] [DecidableEq κ] {program : List (Call κ ν σ ε)}
  {deferred : Deferred κ ε β} {call : Call κ ν σ ε}

/-- The precondition of the next task. -/
def nextPrecondition (deferred : Deferred κ ε β) (call : Call κ ν σ ε) :
    Event (Completion ε) :=
  let completion : Event (Completion ε) := {.task deferred.preconditions.length}
  startPrecondition call.context (mergePreconditions (addTaskDependencies call.context
    (storeArgsAndSetPostcondition (getStreamOrderedEvent call.context completion) completion
      deferred.stores call.uses).1))

theorem preconditions_defer :
    (defer deferred call).preconditions =
      deferred.preconditions ++ [nextPrecondition deferred call] := rfl

theorem stores_defer_of_not_mem {s : κ} (hs : s ∉ call.stores) :
    (defer deferred call).stores s = deferred.stores s :=
  storeArgs_of_not_mem hs

/-- A store that the call uses was mapped with the completion of the task. -/
theorem stores_defer_of_mem (deferred : Deferred κ ε β) (hnodup : call.stores.Nodup) {s : κ}
    {access : Access} (hs : (s, access) ∈ call.uses) :
    ∃ stream, (defer deferred call).stores s =
      (toTaskArgument (deferred.stores s) stream {.task deferred.preconditions.length} access).2 :=
  ⟨_, storeArgs_of_mem hnodup hs⟩

theorem mem_nextPrecondition (hnodup : call.stores.Nodup)
    (hstream : call.context.streamOrdered = none) {s : κ} {access : Access}
    (hs : (s, access) ∈ call.uses) {c : Completion ε}
    (hc : ∀ stream effects,
      c ∈ (toTaskArgument (deferred.stores s) stream effects access).1.effectsPrecondition) :
    c ∈ nextPrecondition deferred call :=
  mem_startPrecondition hstream (toTaskArgument_mem_storeArgs hnodup hs) (hc _ _)

/-- A task waits for the writers of every store it uses. -/
theorem mem_nextPrecondition_of_writer (hnodup : call.stores.Nodup)
    (hstream : call.context.streamOrdered = none) {s : κ} (hs : s ∈ call.stores)
    {c : Completion ε} (hc : c ∈ effectsOf (deferred.stores s).childRwEvent) :
    c ∈ nextPrecondition deferred call := by
  obtain ⟨access, hs⟩ := Call.mem_stores_iff.mp hs
  exact mem_nextPrecondition hnodup hstream hs
    fun stream effects ↦ subset_effectsPrecondition _ stream effects access hc

/-- A task waits for the readers of every store it writes. -/
theorem mem_nextPrecondition_of_reader (hnodup : call.stores.Nodup)
    (hstream : call.context.streamOrdered = none) {s : κ} (hs : s ∈ call.written)
    {c : Completion ε} (hc : c ∈ effectsOf (deferred.stores s).warPrecondition) :
    c ∈ nextPrecondition deferred call := by
  apply mem_nextPrecondition hnodup hstream (Call.mem_written_iff.mp hs)
  intro stream effects
  rw [effectsPrecondition_write]
  exact Finset.mem_union_left _ hc

/-- Writers are remembered for ever. -/
theorem childRwEvent_subset_defer (hnodup : call.stores.Nodup) (s : κ) :
    effectsOf (deferred.stores s).childRwEvent ⊆
      effectsOf ((defer deferred call).stores s).childRwEvent := by
  by_cases hs : s ∈ call.stores
  · obtain ⟨access, hs⟩ := Call.mem_stores_iff.mp hs
    obtain ⟨stream, hstore⟩ := stores_defer_of_mem deferred hnodup hs
    rw [hstore]
    exact subset_childRwEvent _ _ _ _
  · rw [stores_defer_of_not_mem hs]

theorem task_mem_childRwEvent_defer (hnodup : call.stores.Nodup) {s : κ}
    (hs : s ∈ call.written) :
    .task deferred.preconditions.length ∈
      effectsOf ((defer deferred call).stores s).childRwEvent := by
  obtain ⟨stream, hstore⟩ := stores_defer_of_mem deferred hnodup
    (Call.mem_written_iff.mp hs)
  rw [hstore, childRwEvent_write]
  exact Finset.mem_union_left _ (Finset.mem_singleton_self _)

/-- Readers are remembered until the next writer. -/
theorem warPrecondition_subset_defer (hnodup : call.stores.Nodup) {s : κ}
    (hs : s ∉ call.written) :
    effectsOf (deferred.stores s).warPrecondition ⊆
      effectsOf ((defer deferred call).stores s).warPrecondition := by
  by_cases hused : s ∈ call.stores
  · obtain ⟨access, hused⟩ := Call.mem_stores_iff.mp hused
    obtain ⟨stream, hstore⟩ := stores_defer_of_mem deferred hnodup hused
    cases access with
    | write => exact absurd (Call.mem_written_iff.mpr hused) hs
    | read =>
        rw [hstore, warPrecondition_read]
        exact Finset.subset_union_left
  · rw [stores_defer_of_not_mem hused]

theorem task_mem_warPrecondition_defer (hnodup : call.stores.Nodup) {s : κ}
    (hs : (s, .read) ∈ call.uses) :
    .task deferred.preconditions.length ∈
      effectsOf ((defer deferred call).stores s).warPrecondition := by
  obtain ⟨stream, hstore⟩ := stores_defer_of_mem deferred hnodup hs
  rw [hstore, warPrecondition_read]
  exact Finset.mem_union_right _ (Finset.mem_singleton_self _)

omit [DecidableEq ε] [DecidableEq κ] in
theorem tracked_nil (stores : κ → Store (Completion ε) β) :
    Tracked ([] : List (Call κ ν σ ε)) ⟨stores, []⟩ where
  length_eq := rfl
  writer i call s hi := absurd hi (by simp)
  reader i call s hi := absurd hi (by simp)
  ordered i j a b _ hi := absurd hi (by simp)

theorem getElem?_push {α : Type} {xs : List α} {x y : α} {i : ℕ} (h : (xs ++ [x])[i]? = some y) :
    xs[i]? = some y ∨ (i = xs.length ∧ x = y) := by
  rcases Nat.lt_trichotomy i xs.length with hlt | rfl | hgt
  · exact Or.inl (by rwa [List.getElem?_append_left hlt] at h)
  · exact Or.inr ⟨rfl, by simpa using h⟩
  · rw [List.getElem?_eq_none (by simpa using hgt)] at h
    exact absurd h (by simp)

/-- The next task waits for the tasks before it with which it conflicts. -/
theorem Tracked.runsBefore_next (h : Tracked program deferred) (hnodup : call.stores.Nodup)
    (hstream : call.context.streamOrdered = none) {i : ℕ} {a : Call κ ν σ ε}
    (hi : program[i]? = some a) (hconflict : a.Conflicts call) :
    RunsBefore (defer deferred call).preconditions i program.length := by
  have hnext {k : ℕ} (hk : .task k ∈ nextPrecondition deferred call) :
      .task k ∈ Waits (defer deferred call).preconditions program.length :=
    h.length_eq ▸ waits_push_self hk
  obtain ⟨s, ⟨hwritten, hused⟩ | ⟨hused, hwritten⟩⟩ := hconflict
  · exact .single (hnext (mem_nextPrecondition_of_writer hnodup hstream hused
      (h.writer i a s hi hwritten)))
  · have hstores := Call.mem_stores_of_mem_written hwritten
    rcases h.reader i a s hi hused with hwar | hrw | ⟨k, hwaits, hrw⟩
    · exact .single (hnext (mem_nextPrecondition_of_reader hnodup hstream hwritten hwar))
    · exact .single (hnext (mem_nextPrecondition_of_writer hnodup hstream hstores hrw))
    · exact .tail (.single (waits_push_subset _ _ _ hwaits))
        (hnext (mem_nextPrecondition_of_writer hnodup hstream hstores hrw))

/-- One call of `defer` keeps what the stores know. -/
theorem Tracked.defer (h : Tracked program deferred) (hnodup : call.stores.Nodup)
    (hstream : call.context.streamOrdered = none) :
    Tracked (program ++ [call]) (defer deferred call) := by
  constructor
  · rw [preconditions_defer, List.length_append, List.length_append, h.length_eq]
    rfl
  · intro i a s hi hs
    rcases getElem?_push hi with hi | ⟨rfl, rfl⟩
    · exact childRwEvent_subset_defer hnodup s (h.writer i a s hi hs)
    · rw [← h.length_eq]
      exact task_mem_childRwEvent_defer hnodup hs
  · intro i a s hi hs
    rcases getElem?_push hi with hi | ⟨rfl, rfl⟩
    · rcases h.reader i a s hi hs with hwar | hrw | ⟨k, hwaits, hrw⟩
      · by_cases hwritten : s ∈ call.written
        · -- the readers are forgotten, but the writer waits for them
          have hmem := mem_nextPrecondition_of_reader hnodup hstream hwritten hwar
          exact Or.inr (Or.inr ⟨_, waits_push_self hmem,
            task_mem_childRwEvent_defer hnodup hwritten⟩)
        · exact Or.inl (warPrecondition_subset_defer hnodup hwritten hwar)
      · exact Or.inr (Or.inl (childRwEvent_subset_defer hnodup s hrw))
      · exact Or.inr (Or.inr ⟨k, waits_push_subset _ _ _ hwaits,
          childRwEvent_subset_defer hnodup s hrw⟩)
    · obtain ⟨access, huse⟩ := Call.mem_stores_iff.mp hs
      rw [← h.length_eq]
      cases access with
      | read => exact Or.inl (task_mem_warPrecondition_defer hnodup huse)
      | write =>
          have hwritten := Call.mem_written_iff.mpr huse
          exact Or.inr (Or.inl (task_mem_childRwEvent_defer hnodup hwritten))
  · intro i j a b hij hi hj hconflict
    rcases getElem?_push hj with hj | ⟨rfl, rfl⟩
    · have hlt := hij.trans (List.getElem?_eq_some_iff.mp hj).1
      rw [List.getElem?_append_left hlt] at hi
      exact (h.ordered i j a b hij hi hj hconflict).push _
    · rw [List.getElem?_append_left hij] at hi
      exact h.runsBefore_next hnodup hstream hi hconflict

/-- After any number of calls, conflicting tasks wait for each other in program
order. -/
theorem tracked_deferAll (stores : κ → Store (Completion ε) β) (program : List (Call κ ν σ ε))
    (hnodup : ∀ call ∈ program, call.stores.Nodup)
    (hstream : ∀ call ∈ program, call.context.streamOrdered = none) :
    Tracked program (deferAll ⟨stores, []⟩ program) := by
  induction program using List.reverseRecOn with
  | nil => exact tracked_nil stores
  | append_singleton program call ih =>
      have hprogram := ih (fun c hc ↦ hnodup c (List.mem_append_left _ hc))
        fun c hc ↦ hstream c (List.mem_append_left _ hc)
      have hcall : call ∈ program ++ [call] := List.mem_append_right _ (List.mem_singleton_self _)
      rw [deferAll, List.foldl_append]
      exact hprogram.defer (hnodup call hcall) (hstream call hcall)

end Program

end Zuku
