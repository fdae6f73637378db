import Zuku.StreamTasks

/-!
# What a stream-ordered task waits for

A store keeps of every use the event of the effects and the event of the
stream.  A stream-ordered task waits for the streams of the uses before it, so
for the return of control of tasks that are stream-ordered themselves, and any
other task waits for their effects.
-/

namespace Zuku

open Event EventPrecondition

variable {ε β κ ν σ : Type}

namespace StreamCall

/-- What a task that is stream-ordered or not waits for at this one. -/
def signal (call : StreamCall κ ν σ ε) (task : ℕ) (streamOrdered : Bool) :
    Completion (Released ε) :=
  if streamOrdered && call.dispatch.streamOrdered then .external (.control task) else .task task

end StreamCall

section Calls

variable {call : StreamCall κ ν σ ε} {task : ℕ}

theorem isSome_streamOrdered_toCall :
    (call.toCall task).context.streamOrdered.isSome = call.dispatch.streamOrdered := by
  rw [StreamCall.toCall]
  cases call.dispatch.streamOrdered <;> rfl

theorem getElem?_toCalls {program : List (StreamCall κ ν σ ε)} {i : ℕ}
    {a : StreamCall κ ν σ ε} (h : program[i]? = some a) :
    (toCalls program)[i]? = some (a.toCall i) := by
  rw [toCalls, List.getElem?_mapIdx, h]
  rfl

theorem exists_of_getElem?_toCalls {program : List (StreamCall κ ν σ ε)} {i : ℕ}
    {a : Call κ ν σ (Released ε)} (h : (toCalls program)[i]? = some a) :
    ∃ call, program[i]? = some call ∧ a = call.toCall i := by
  rw [toCalls, List.getElem?_mapIdx, Option.map_eq_some_iff] at h
  obtain ⟨call, hcall, rfl⟩ := h
  exact ⟨call, hcall, rfl⟩

theorem toCalls_push (program : List (StreamCall κ ν σ ε)) (call : StreamCall κ ν σ ε) :
    toCalls (program ++ [call]) = toCalls program ++ [call.toCall program.length] := by
  rw [toCalls, List.mapIdx_append, List.mapIdx_singleton, Nat.zero_add]
  rfl

end Calls

/-! ## One store -/

section Store

variable [DecidableEq ε] (streamOrdered : Bool) (store : Store ε β) (stream effects : Event ε)

theorem part_childRwEvent_write :
    part streamOrdered (toTaskArgument store stream effects .write).2.childRwEvent =
      (if streamOrdered then stream else effects) ∪ part streamOrdered store.childRwEvent :=
  part_merge streamOrdered store.childRwEvent stream effects

theorem part_childRwEvent_subset (access : Access) :
    part streamOrdered store.childRwEvent ⊆
      part streamOrdered (toTaskArgument store stream effects access).2.childRwEvent := by
  cases access with
  | read => exact subset_rfl
  | write =>
      rw [part_childRwEvent_write]
      exact Finset.subset_union_right

theorem part_warPrecondition_read :
    part streamOrdered (toTaskArgument store stream effects .read).2.warPrecondition =
      part streamOrdered store.warPrecondition ∪ (if streamOrdered then stream else effects) :=
  part_warPrecondition_addReader streamOrdered store stream effects

end Store

/-! ## One call of defer -/

section Defer

variable [DecidableEq ε] [DecidableEq κ] {deferred : Deferred κ (Released ε) β}
  {call : StreamCall κ ν σ ε} {s : κ} {access : Access}

/-- The task waits for what its use of a store waits for. -/
theorem mem_nextPrecondition_of_use {task : ℕ} (hnodup : (call.toCall task).stores.Nodup)
    (hs : (s, access) ∈ (call.toCall task).uses) {c : Completion (Released ε)}
    (hc : c ∈ (deferred.stores s).waitsFor call.dispatch.streamOrdered access) :
    c ∈ nextPrecondition deferred (call.toCall task) := by
  apply mem_startPrecondition_iff.mpr
  refine Or.inr ⟨_, toTaskArgument_mem_storeArgs hnodup hs, ?_⟩
  rw [isSome_streamOrdered_toCall, dependency_toTaskArgument]
  exact hc

/-- The store is left with the completion and the control event of the task. -/
theorem stores_defer_toCall (hnodup : (call.toCall deferred.preconditions.length).stores.Nodup)
    (hs : (s, access) ∈ (call.toCall deferred.preconditions.length).uses) :
    ∃ stream effects, (∀ streamOrdered, call.signal deferred.preconditions.length streamOrdered ∈
        if streamOrdered then stream else effects) ∧
      (defer deferred (call.toCall deferred.preconditions.length)).stores s =
        (toTaskArgument (deferred.stores s) stream effects access).2 := by
  refine ⟨_, _, ?_, storeArgs_of_mem hnodup hs⟩
  rintro (_ | _)
  · exact Finset.mem_singleton_self _
  · rw [StreamCall.signal, StreamCall.toCall, getStreamOrderedEvent]
    cases call.dispatch.streamOrdered <;> exact Finset.mem_singleton_self _

end Defer

/-! ## Programs -/

/-- Task `j` waits for what it has to know of task `i`, with which it conflicts. -/
def Follows (program : List (StreamCall κ ν σ ε))
    (preconditions : List (Event (Completion (Released ε)))) (i j : ℕ) : Prop :=
  i < j ∧ ∃ a b, program[i]? = some a ∧ program[j]? = some b ∧ (a.toCall i).Conflicts (b.toCall j) ∧
    a.signal i b.dispatch.streamOrdered ∈ Waits preconditions j

/-- What the stores know of the calls so far, for the effects and for the streams. -/
structure StreamTracked (program : List (StreamCall κ ν σ ε))
    (deferred : Deferred κ (Released ε) β) : Prop where
  length_eq : deferred.preconditions.length = program.length
  writer : ∀ (i : ℕ) call s, program[i]? = some call → s ∈ (call.toCall i).written →
    ∀ streamOrdered, call.signal i streamOrdered ∈
      part streamOrdered (deferred.stores s).childRwEvent
  /-- A reader is remembered, or waited for by a writer that is. -/
  reader : ∀ (i : ℕ) call s, program[i]? = some call → s ∈ (call.toCall i).stores →
    (∀ streamOrdered, call.signal i streamOrdered ∈
      part streamOrdered (deferred.stores s).warPrecondition) ∨
    (∀ streamOrdered, call.signal i streamOrdered ∈
      part streamOrdered (deferred.stores s).childRwEvent) ∨
    ∃ (k : ℕ) (writer : StreamCall κ ν σ ε), program[k]? = some writer ∧
      s ∈ (writer.toCall k).written ∧ Follows program deferred.preconditions i k
  ordered : ∀ (i j : ℕ) a b, i < j → program[i]? = some a → program[j]? = some b →
    (a.toCall i).Conflicts (b.toCall j) →
    Relation.TransGen (Follows program deferred.preconditions) i j

theorem Follows.push {program : List (StreamCall κ ν σ ε)}
    {preconditions : List (Event (Completion (Released ε)))} {i j : ℕ}
    (h : Follows program preconditions i j) (call : StreamCall κ ν σ ε)
    (precondition : Event (Completion (Released ε))) :
    Follows (program ++ [call]) (preconditions ++ [precondition]) i j := by
  obtain ⟨hij, a, b, hi, hj, hconflict, hwaits⟩ := h
  refine ⟨hij, a, b, ?_, ?_, hconflict, waits_push_subset _ _ _ hwaits⟩
  · rw [List.getElem?_append_left (List.getElem?_eq_some_iff.mp hi).1, hi]
  · rw [List.getElem?_append_left (List.getElem?_eq_some_iff.mp hj).1, hj]

section Program

variable [DecidableEq ε] [DecidableEq κ] {program : List (StreamCall κ ν σ ε)}
  {deferred : Deferred κ (Released ε) β} {call : StreamCall κ ν σ ε} {i : ℕ}
  {a : StreamCall κ ν σ ε} {s : κ}

theorem StreamTracked.follows_next (h : StreamTracked program deferred)
    (hi : program[i]? = some a)
    (hconflict : (a.toCall i).Conflicts (call.toCall program.length))
    (hwaits : a.signal i call.dispatch.streamOrdered ∈
      nextPrecondition deferred (call.toCall program.length)) :
    Follows (program ++ [call]) (defer deferred (call.toCall program.length)).preconditions i
      program.length := by
  have hlt := (List.getElem?_eq_some_iff.mp hi).1
  refine ⟨hlt, a, call, ?_, ?_, hconflict, ?_⟩
  · rw [List.getElem?_append_left hlt, hi]
  · simp
  · rw [preconditions_defer]
    have hself : a.signal i call.dispatch.streamOrdered ∈ Waits (deferred.preconditions ++
        [nextPrecondition deferred (call.toCall program.length)]) deferred.preconditions.length :=
      waits_push_self hwaits
    rwa [h.length_eq] at hself

/-- The next task waits for the writers of the stores it uses. -/
theorem StreamTracked.follows_writer (h : StreamTracked program deferred)
    (hnodup : (call.toCall program.length).stores.Nodup) (hi : program[i]? = some a)
    (hwritten : s ∈ (a.toCall i).written) (hused : s ∈ (call.toCall program.length).stores) :
    Follows (program ++ [call]) (defer deferred (call.toCall program.length)).preconditions i
      program.length := by
  obtain ⟨access, huse⟩ := Call.mem_stores_iff.mp hused
  apply h.follows_next hi ⟨s, Or.inl ⟨hwritten, hused⟩⟩
  apply mem_nextPrecondition_of_use hnodup huse
  have hwriter := h.writer i a s hi hwritten call.dispatch.streamOrdered
  cases access with
  | read => exact hwriter
  | write => exact Finset.mem_union_right _ hwriter

/-- The next task waits for the readers of the stores it writes that are
remembered. -/
theorem StreamTracked.follows_reader (h : StreamTracked program deferred)
    (hnodup : (call.toCall program.length).stores.Nodup) (hi : program[i]? = some a)
    (hused : s ∈ (a.toCall i).stores) (hwritten : s ∈ (call.toCall program.length).written)
    (hreader : a.signal i call.dispatch.streamOrdered ∈
        part call.dispatch.streamOrdered (deferred.stores s).warPrecondition ∨
      a.signal i call.dispatch.streamOrdered ∈
        part call.dispatch.streamOrdered (deferred.stores s).childRwEvent) :
    Follows (program ++ [call]) (defer deferred (call.toCall program.length)).preconditions i
      program.length := by
  apply h.follows_next hi ⟨s, Or.inr ⟨hused, hwritten⟩⟩
  apply mem_nextPrecondition_of_use hnodup (Call.mem_written_iff.mp hwritten)
  exact Finset.mem_union.mpr hreader

/-- The next task comes after every task before it with which it conflicts. -/
theorem StreamTracked.transGen_next (h : StreamTracked program deferred)
    (hnodup : (call.toCall program.length).stores.Nodup) (hi : program[i]? = some a)
    (hconflict : (a.toCall i).Conflicts (call.toCall program.length)) :
    Relation.TransGen (Follows (program ++ [call])
      (defer deferred (call.toCall program.length)).preconditions) i program.length := by
  obtain ⟨s, ⟨hwritten, hused⟩ | ⟨hused, hwritten⟩⟩ := hconflict
  · exact .single (h.follows_writer hnodup hi hwritten hused)
  · rcases h.reader i a s hi hused with hwar | hrw | ⟨k, writer, hk, hwriter, hfollows⟩
    · exact .single (h.follows_reader hnodup hi hused hwritten (Or.inl (hwar _)))
    · exact .single (h.follows_reader hnodup hi hused hwritten (Or.inr (hrw _)))
    · have hstores := Call.mem_stores_of_mem_written hwritten
      exact .tail (.single (hfollows.push call _)) (h.follows_writer hnodup hk hwriter hstores)

/-- Writers are remembered for ever. -/
theorem part_childRwEvent_subset_defer
    (hnodup : (call.toCall deferred.preconditions.length).stores.Nodup) (streamOrdered : Bool)
    (s : κ) :
    part streamOrdered (deferred.stores s).childRwEvent ⊆ part streamOrdered
      ((defer deferred (call.toCall deferred.preconditions.length)).stores s).childRwEvent := by
  by_cases hs : s ∈ (call.toCall deferred.preconditions.length).stores
  · obtain ⟨access, hs⟩ := Call.mem_stores_iff.mp hs
    obtain ⟨stream, effects, -, hstore⟩ := stores_defer_toCall hnodup hs
    rw [hstore]
    exact part_childRwEvent_subset _ _ _ _ _
  · rw [stores_defer_of_not_mem hs]

/-- Readers are remembered until the next writer. -/
theorem part_warPrecondition_subset_defer
    (hnodup : (call.toCall deferred.preconditions.length).stores.Nodup) (streamOrdered : Bool)
    (hs : s ∉ (call.toCall deferred.preconditions.length).written) :
    part streamOrdered (deferred.stores s).warPrecondition ⊆ part streamOrdered
      ((defer deferred (call.toCall deferred.preconditions.length)).stores s).warPrecondition := by
  by_cases hused : s ∈ (call.toCall deferred.preconditions.length).stores
  · obtain ⟨access, hused⟩ := Call.mem_stores_iff.mp hused
    cases access with
    | write => exact absurd (Call.mem_written_iff.mpr hused) hs
    | read =>
        obtain ⟨stream, effects, -, hstore⟩ := stores_defer_toCall hnodup hused
        rw [hstore, part_warPrecondition_read]
        exact Finset.subset_union_left
  · rw [stores_defer_of_not_mem hused]

/-- One call of `defer` keeps what the stores know. -/
theorem StreamTracked.defer (h : StreamTracked program deferred)
    (hnodup : (call.toCall program.length).stores.Nodup) :
    StreamTracked (program ++ [call]) (defer deferred (call.toCall program.length)) := by
  have hlength := h.length_eq
  have hnodup' : (call.toCall deferred.preconditions.length).stores.Nodup := hlength ▸ hnodup
  constructor
  · rw [preconditions_defer, List.length_append, List.length_append, hlength]
    rfl
  · intro i a s hi hs streamOrdered
    rw [← hlength]
    rcases getElem?_push hi with hi | ⟨rfl, rfl⟩
    · exact part_childRwEvent_subset_defer hnodup' _ s (h.writer i a s hi hs streamOrdered)
    · rw [← hlength] at hs ⊢
      obtain ⟨stream, effects, hsignal, hstore⟩ :=
        stores_defer_toCall hnodup' (Call.mem_written_iff.mp hs)
      rw [hstore, part_childRwEvent_write]
      exact Finset.mem_union_left _ (hsignal streamOrdered)
  · intro i a s hi hs
    rcases getElem?_push hi with hi | ⟨rfl, rfl⟩
    · rcases h.reader i a s hi hs with hwar | hrw | ⟨k, writer, hk, hwriter, hfollows⟩
      · by_cases hwritten : s ∈ (call.toCall program.length).written
        · -- the readers are forgotten, but the writer waits for them
          exact Or.inr (Or.inr ⟨program.length, call, by simp, hwritten,
            h.follows_reader hnodup hi hs hwritten (Or.inl (hwar _))⟩)
        · refine Or.inl fun streamOrdered ↦ ?_
          rw [← hlength] at hwritten ⊢
          exact part_warPrecondition_subset_defer hnodup' _ hwritten (hwar streamOrdered)
      · refine Or.inr (Or.inl fun streamOrdered ↦ ?_)
        rw [← hlength]
        exact part_childRwEvent_subset_defer hnodup' _ s (hrw streamOrdered)
      · refine Or.inr (Or.inr ⟨k, writer, ?_, hwriter, hfollows.push call _⟩)
        rw [List.getElem?_append_left (List.getElem?_eq_some_iff.mp hk).1, hk]
    · rw [← hlength] at hs ⊢
      obtain ⟨access, huse⟩ := Call.mem_stores_iff.mp hs
      obtain ⟨stream, effects, hsignal, hstore⟩ := stores_defer_toCall hnodup' huse
      rw [hstore]
      cases access with
      | read =>
          refine Or.inl fun streamOrdered ↦ ?_
          rw [part_warPrecondition_read]
          exact Finset.mem_union_right _ (hsignal streamOrdered)
      | write =>
          refine Or.inr (Or.inl fun streamOrdered ↦ ?_)
          rw [part_childRwEvent_write]
          exact Finset.mem_union_left _ (hsignal streamOrdered)
  · intro i j a b hij hi hj hconflict
    rcases getElem?_push hj with hj | ⟨rfl, rfl⟩
    · have hlt := hij.trans (List.getElem?_eq_some_iff.mp hj).1
      rw [List.getElem?_append_left hlt] at hi
      exact Relation.TransGen.mono (fun _ _ hfollows ↦ hfollows.push call _) _ _
        (h.ordered i j a b hij hi hj hconflict)
    · rw [List.getElem?_append_left hij] at hi
      exact h.transGen_next hnodup hi hconflict

/-- After any number of calls, conflicting tasks follow each other in program
order. -/
theorem streamTracked_deferAll (stores : κ → Store (Completion (Released ε)) β)
    (program : List (StreamCall κ ν σ ε))
    (hnodup : ∀ call ∈ toCalls program, call.stores.Nodup) :
    StreamTracked program (deferAll ⟨stores, []⟩ (toCalls program)) := by
  induction program using List.reverseRecOn with
  | nil =>
      exact ⟨rfl, fun i call s hi ↦ absurd hi (by simp), fun i call s hi ↦ absurd hi (by simp),
        fun i j a b _ hi ↦ absurd hi (by simp)⟩
  | append_singleton program call ih =>
      rw [toCalls_push] at hnodup ⊢
      have hprogram := ih fun c hc ↦ hnodup c (List.mem_append_left _ hc)
      rw [deferAll, List.foldl_append]
      exact hprogram.defer (hnodup _ (List.mem_append_right _ (List.mem_singleton_self _)))

end Program

end Zuku
