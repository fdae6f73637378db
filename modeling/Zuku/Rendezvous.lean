import Zuku.ReshardNames
import Zuku.Library.FifoMatching

/-!
# Operations that wait for their counterpart

An operation of a rendezvous is either served at once or given a user event
that is triggered when its counterpart arrives.  A served operation is recorded
with its user event, if it had to wait for one.
-/

namespace Zuku

open Checked Event

variable {ε ι : Type}

abbrev Served (ε ι : Type) := ReshardOp ε ι × Option ℕ

/-- The event an operation is given: its user event, or the result itself. -/
def returned (result : Event (Signal ε)) : Option ℕ → Event (Signal ε)
  | some id => {.userEvent id}
  | none => result

/-- The operations with the events they were given. -/
def answers (result : ℕ → Event (Signal ε)) (ops : List (Served ε ι)) :
    List (ReshardOp ε ι × Event (Signal ε)) :=
  ops.mapIdx fun k op ↦ (op.1, returned (result k) op.2)

/-- The user events of operations, with the results they are triggered with. -/
def resolved (result : ℕ → Event (Signal ε)) (ops : List (Served ε ι)) :
    List (ℕ × Event (Signal ε)) :=
  (ops.mapIdx fun k op ↦ op.2.map fun id ↦ (id, result k)).reduceOption

/-- The user events that operations were given. -/
def handles (ops : List (Served ε ι)) : List ℕ := ops.filterMap Prod.snd

@[simp] theorem answers_nil (result : ℕ → Event (Signal ε)) :
    answers result ([] : List (Served ε ι)) = [] := rfl

@[simp] theorem resolved_nil (result : ℕ → Event (Signal ε)) :
    resolved result ([] : List (Served ε ι)) = [] := rfl

@[simp] theorem length_answers (result : ℕ → Event (Signal ε)) (ops : List (Served ε ι)) :
    (answers result ops).length = ops.length := by simp [answers]

theorem answers_push (result : ℕ → Event (Signal ε)) (ops : List (Served ε ι))
    (op : Served ε ι) :
    answers result (ops ++ [op]) =
      answers result ops ++ [(op.1, returned (result ops.length) op.2)] := by
  simp [answers, List.mapIdx_append]

theorem resolved_push (result : ℕ → Event (Signal ε)) (ops : List (Served ε ι))
    (op : Served ε ι) :
    resolved result (ops ++ [op]) =
      resolved result ops ++ (op.2.map fun id ↦ (id, result ops.length)).toList := by
  obtain ⟨op, _ | id⟩ := op <;>
    simp [resolved, List.mapIdx_append, List.reduceOption]

theorem handles_push (ops : List (Served ε ι)) (op : Served ε ι) :
    handles (ops ++ [op]) = handles ops ++ op.2.toList := by
  obtain ⟨op, _ | id⟩ := op <;> simp [handles]

theorem mem_resolved {result : ℕ → Event (Signal ε)} {ops : List (Served ε ι)} {k : ℕ}
    {op : ReshardOp ε ι} {id : ℕ} (hop : ops[k]? = some (op, some id)) :
    (id, result k) ∈ resolved result ops := by
  rw [resolved, List.reduceOption_mem_iff]
  apply List.mem_of_getElem? (i := k)
  rw [List.getElem?_mapIdx, hop]
  rfl

theorem map_fst_resolved (result : ℕ → Event (Signal ε)) (ops : List (Served ε ι)) :
    (resolved result ops).map Prod.fst = handles ops := by
  induction ops using List.reverseRecOn with
  | nil => rfl
  | append_singleton ops op ih =>
      rw [resolved_push, handles_push, List.map_append, ih]
      obtain ⟨op, _ | id⟩ := op <;> rfl

theorem answers_congr {result result' : ℕ → Event (Signal ε)} {ops : List (Served ε ι)}
    (hwaiting : ∀ op ∈ ops, op.2.isSome) : answers result ops = answers result' ops := by
  apply List.ext_getElem
  · rw [length_answers, length_answers]
  intro k hk _
  obtain ⟨id, hid⟩ := Option.isSome_iff_exists.mp
    (hwaiting _ (List.getElem_mem (by simpa using hk : k < ops.length)))
  simp [answers, hid, returned]

theorem handles_take_append_drop (ops : List (Served ε ι)) (n : ℕ) :
    handles (ops.take n) ++ handles (ops.drop n) = handles ops := by
  rw [handles, handles, ← List.filterMap_append, List.take_append_drop]
  rfl

theorem mem_handles_of_getElem? {ops : List (Served ε ι)} {k id : ℕ} {op : ReshardOp ε ι}
    (hop : ops[k]? = some (op, some id)) : id ∈ handles ops :=
  List.mem_filterMap.mpr ⟨_, List.mem_of_getElem? hop, rfl⟩

theorem not_mem_handles_take {ops : List (Served ε ι)} (hnodup : (handles ops).Nodup)
    {n k id : ℕ} {op : ReshardOp ε ι} (hop : ops[k]? = some (op, some id)) (hk : n ≤ k) :
    id ∉ handles (ops.take n) := by
  rw [← handles_take_append_drop ops n, List.nodup_append] at hnodup
  have hdrop : (ops.drop n)[k - n]? = some (op, some id) := by
    rwa [List.getElem?_drop, Nat.add_sub_cancel' hk]
  intro htake
  exact hnodup.2.2 id htake id (mem_handles_of_getElem? hdrop) rfl

/-- An operation was given its result, or a user event that is triggered with
the result once, as soon as it is ready. -/
def GivenBy (triggers : List (ℕ × Event (Signal ε))) (event result : Event (Signal ε))
    (ready : Prop) : Prop :=
  (event = result ∧ ready) ∨ ∃ id, event = {.userEvent id} ∧
    (ready → triggers.filter (fun t ↦ decide (t.1 = id)) = [(id, result)]) ∧
    (¬ready → triggers.filter (fun t ↦ decide (t.1 = id)) = [])

theorem filter_fst_eq_singleton {triggers : List (ℕ × Event (Signal ε))}
    (hnodup : (triggers.map Prod.fst).Nodup) {id : ℕ} {event : Event (Signal ε)}
    (hmem : (id, event) ∈ triggers) :
    triggers.filter (fun t ↦ decide (t.1 = id)) = [(id, event)] := by
  induction triggers with
  | nil => simp at hmem
  | cons t triggers ih =>
      simp only [List.map_cons, List.nodup_cons] at hnodup
      rcases List.mem_cons.mp hmem with rfl | hmem
      · rw [List.filter_cons_of_pos (by simp), List.filter_eq_nil_iff.mpr]
        intro s hs hid
        exact hnodup.1 (List.mem_map.mpr ⟨s, hs, of_decide_eq_true hid⟩)
      · have hne : t.1 ≠ id := by
          rintro rfl
          exact hnodup.1 (List.mem_map.mpr ⟨_, hmem, rfl⟩)
        rw [List.filter_cons_of_neg (by simpa using hne), ih hnodup.2 hmem]

theorem filter_fst_eq_nil {triggers : List (ℕ × Event (Signal ε))} {id : ℕ}
    (hnot : id ∉ triggers.map Prod.fst) :
    triggers.filter (fun t ↦ decide (t.1 = id)) = [] := by
  rw [List.filter_eq_nil_iff]
  intro t ht hid
  exact hnot (List.mem_map.mpr ⟨t, ht, of_decide_eq_true hid⟩)

/-! ## The user events of both sides -/

/-- The first `m` sources and the first `n` targets have got their results. -/
structure UserEvents (sourceResult targetResult : ℕ → Event (Signal ε))
    (sources targets : List (Served ε ι)) (m n numUserEvents : ℕ)
    (triggers : List (ℕ × Event (Signal ε))) : Prop where
  nodup : (handles sources ++ handles targets).Nodup
  lt : ∀ id ∈ handles sources ++ handles targets, id < numUserEvents
  source_waiting : ∀ op ∈ sources.drop m, op.2.isSome
  target_waiting : ∀ op ∈ targets.drop n, op.2.isSome
  triggers_perm : triggers.Perm
    (resolved sourceResult (sources.take m) ++ resolved targetResult (targets.take n))

namespace UserEvents

variable {sourceResult targetResult : ℕ → Event (Signal ε)} {sources targets : List (Served ε ι)}
  {m n numUserEvents : ℕ} {triggers : List (ℕ × Event (Signal ε))}

theorem nil : UserEvents sourceResult targetResult ([] : List (Served ε ι)) [] 0 0 0 [] where
  nodup := List.nodup_nil
  lt := by simp [handles]
  source_waiting := by simp
  target_waiting := by simp
  triggers_perm := List.Perm.refl _

theorem swap (h : UserEvents sourceResult targetResult sources targets m n numUserEvents triggers) :
    UserEvents targetResult sourceResult targets sources n m numUserEvents triggers where
  nodup := List.nodup_append_comm.mp h.nodup
  lt id hid := h.lt id (List.mem_append.mpr (List.mem_append.mp hid).symm)
  source_waiting := h.target_waiting
  target_waiting := h.source_waiting
  triggers_perm := h.triggers_perm.trans List.perm_append_comm

/-- A source that waits is given a new user event. -/
theorem source_wait
    (h : UserEvents sourceResult targetResult sources targets m n numUserEvents triggers)
    (hm : m ≤ sources.length) (op : ReshardOp ε ι) :
    UserEvents sourceResult targetResult (sources ++ [(op, some numUserEvents)]) targets m n
      (numUserEvents + 1) triggers where
  nodup := by
    have hfresh : numUserEvents ∉ handles sources ++ handles targets :=
      fun hmem ↦ (h.lt _ hmem).false
    rw [handles_push, List.append_assoc]
    apply List.nodup_middle.mpr
    exact List.nodup_cons.mpr ⟨hfresh, h.nodup⟩
  lt := by
    intro id hid
    rw [handles_push, List.append_assoc, List.mem_append] at hid
    have hlt := h.lt id
    rw [List.mem_append] at hlt
    simp only [Option.toList_some, List.cons_append, List.nil_append, List.mem_cons] at hid
    rcases hid with hid | rfl | hid
    · exact Nat.lt_succ_of_lt (hlt (Or.inl hid))
    · exact Nat.lt_succ_self _
    · exact Nat.lt_succ_of_lt (hlt (Or.inr hid))
  source_waiting := by
    rw [List.drop_append_of_le_length hm]
    intro op' hop'
    rcases List.mem_append.mp hop' with hop' | hop'
    · exact h.source_waiting op' hop'
    · rw [List.mem_singleton.mp hop']
      rfl
  target_waiting := h.target_waiting
  triggers_perm := by
    rw [List.take_append_of_le_length hm]
    exact h.triggers_perm

/-- A source that is served at once is given its result. -/
theorem source_serve
    (h : UserEvents sourceResult targetResult sources targets m n numUserEvents triggers)
    (hm : sources.length ≤ m) {m' : ℕ} (hm' : sources.length < m') (op : ReshardOp ε ι) :
    UserEvents sourceResult targetResult (sources ++ [(op, none)]) targets m' n
      numUserEvents triggers where
  nodup := by simpa [handles_push] using h.nodup
  lt := by simpa [handles_push] using h.lt
  source_waiting := by
    rw [List.drop_eq_nil_of_le (by rw [List.length_append]; exact hm')]
    simp
  target_waiting := h.target_waiting
  triggers_perm := by
    have hperm := h.triggers_perm
    rw [List.take_of_length_le hm] at hperm
    rw [List.take_of_length_le (by rw [List.length_append]; exact hm'), resolved_push]
    simpa using hperm

/-- A result beyond the last source serves no source yet. -/
theorem source_extend
    (h : UserEvents sourceResult targetResult sources targets m n numUserEvents triggers)
    (hm : sources.length ≤ m) {m' : ℕ} (hm' : sources.length ≤ m') :
    UserEvents sourceResult targetResult sources targets m' n numUserEvents triggers where
  nodup := h.nodup
  lt := h.lt
  source_waiting := by
    rw [List.drop_eq_nil_of_le hm']
    simp
  target_waiting := h.target_waiting
  triggers_perm := by
    have hperm := h.triggers_perm
    rw [List.take_of_length_le hm] at hperm
    rwa [List.take_of_length_le hm']

/-- The first waiting source is given its result by a trigger. -/
theorem source_trigger
    (h : UserEvents sourceResult targetResult sources targets m n numUserEvents triggers)
    {op : ReshardOp ε ι} {id : ℕ} (hop : sources[m]? = some (op, some id)) :
    UserEvents sourceResult targetResult sources targets (m + 1) n numUserEvents
      (triggers ++ [(id, sourceResult m)]) where
  nodup := h.nodup
  lt := h.lt
  source_waiting op' hop' := by
    apply h.source_waiting op'
    rw [← List.drop_drop] at hop'
    exact List.drop_subset _ _ hop'
  target_waiting := h.target_waiting
  triggers_perm := by
    have hlength : (sources.take m).length = m :=
      List.length_take_of_le (List.getElem?_eq_some_iff.mp hop).1.le
    rw [List.take_add_one, hop, Option.toList_some, resolved_push, hlength]
    refine (h.triggers_perm.append_right _).trans ?_
    simp only [Option.map_some, Option.toList_some, List.append_assoc]
    exact List.Perm.append_left _ List.perm_append_comm

theorem nodup_triggers
    (h : UserEvents sourceResult targetResult sources targets m n numUserEvents triggers) :
    (triggers.map Prod.fst).Nodup := by
  rw [(h.triggers_perm.map Prod.fst).nodup_iff, List.map_append, map_fst_resolved,
    map_fst_resolved]
  have hsources := handles_take_append_drop sources m ▸ List.sublist_append_left _ _
  have htargets := handles_take_append_drop targets n ▸ List.sublist_append_left _ _
  exact List.Nodup.sublist (hsources.append htargets) h.nodup

theorem mem_handles_of_mem_triggers
    (h : UserEvents sourceResult targetResult sources targets m n numUserEvents triggers)
    {id : ℕ} (hid : id ∈ triggers.map Prod.fst) : id ∈ handles sources ++ handles targets := by
  rw [(h.triggers_perm.map Prod.fst).mem_iff, List.map_append, map_fst_resolved,
    map_fst_resolved] at hid
  rw [← handles_take_append_drop sources m, ← handles_take_append_drop targets n]
  simp only [List.mem_append] at hid ⊢
  tauto

/-- A source is given its result, at once or by one trigger. -/
theorem givenBy_source
    (h : UserEvents sourceResult targetResult sources targets m n numUserEvents triggers)
    {k : ℕ} {op : Served ε ι} (hop : sources[k]? = some op) :
    GivenBy triggers (returned (sourceResult k) op.2) (sourceResult k) (k < m) := by
  obtain ⟨op, _ | id⟩ := op
  · refine Or.inl ⟨rfl, ?_⟩
    by_contra hk
    have hdrop : (sources.drop m)[k - m]? = some (op, none) := by
      rwa [List.getElem?_drop, Nat.add_sub_cancel' (Nat.le_of_not_lt hk)]
    exact absurd (h.source_waiting _ (List.mem_of_getElem? hdrop)) (by simp)
  · refine Or.inr ⟨id, rfl, fun hk ↦ ?_, fun hk ↦ ?_⟩
    · apply filter_fst_eq_singleton h.nodup_triggers
      rw [h.triggers_perm.mem_iff, List.mem_append]
      apply Or.inl
      apply mem_resolved
      rwa [List.getElem?_take_of_lt hk]
    · apply filter_fst_eq_nil
      rw [(h.triggers_perm.map Prod.fst).mem_iff, List.map_append, map_fst_resolved,
        map_fst_resolved, List.mem_append]
      have hnodup := List.nodup_append.mp h.nodup
      rintro (hid | hid)
      · exact not_mem_handles_take hnodup.1 hop (Nat.le_of_not_lt hk) hid
      · apply hnodup.2.2 id (mem_handles_of_getElem? hop) id _ rfl
        rw [← handles_take_append_drop targets n]
        exact List.mem_append_left _ hid

end UserEvents

/-! ## The entry of a key -/

def pendingOf (op : Served ε ι) : PendingOp ε ι :=
  ⟨op.1.precondition, op.2, some op.1.regionInstance⟩

/-- The oldest pending operation is a source that waits with a user event. -/
theorem UserEvents.exists_waiting {sourceResult targetResult : ℕ → Event (Signal ε)}
    {sources targets : List (Served ε ι)} {m n numUserEvents : ℕ}
    {triggers : List (ℕ × Event (Signal ε))}
    (h : UserEvents sourceResult targetResult sources targets m n numUserEvents triggers)
    {pendingOp : PendingOp ε ι} {pending : List (PendingOp ε ι)}
    (hpending : (sources.map pendingOf).drop m = pendingOp :: pending) :
    ∃ op id, sources[m]? = some (op, some id) ∧ pendingOp = pendingOf (op, some id) := by
  rw [← List.map_drop] at hpending
  obtain ⟨⟨op, handle⟩, rest, hrest, rfl, -⟩ := List.map_eq_cons_iff.mp hpending
  obtain ⟨id, rfl⟩ := Option.isSome_iff_exists.mp
    (h.source_waiting (op, handle) (by rw [hrest]; exact List.mem_cons_self))
  refine ⟨op, id, ?_, rfl⟩
  rw [← Nat.add_zero m, ← List.getElem?_drop, hrest]
  rfl

/-- The shape of an entry is that of the first operation it saw. -/
def Recorded (entry : PointToPointReshard ε ι) : Option (ReshardOp ε ι) → Prop
  | none => entry.exists' = false
  | some op => entry.exists' = true ∧ entry.shape = op.shape ∧
      entry.fieldSize = supportedTypeSizeOf op.type

theorem Recorded.recordedShape {entry : PointToPointReshard ε ι} {first : Option (ReshardOp ε ι)}
    (h : Recorded entry first) (op : ReshardOp ε ι) :
    Recorded (recordedShape entry op) (some (first.getD op)) := by
  cases first with
  | none =>
      have hexists : entry.exists' = false := h
      simp [Recorded, Zuku.recordedShape, hexists]
  | some first => simpa [Recorded, Zuku.recordedShape, h.1] using h

section RecordedEntry

variable (entry : PointToPointReshard ε ι) (op : ReshardOp ε ι)

@[simp] theorem recordedShape_pendingSourceReshards :
    (recordedShape entry op).pendingSourceReshards = entry.pendingSourceReshards := by
  rw [recordedShape]
  split <;> rfl

@[simp] theorem recordedShape_pendingDestReshards :
    (recordedShape entry op).pendingDestReshards = entry.pendingDestReshards := by
  rw [recordedShape]
  split <;> rfl

@[simp] theorem recordedShape_ackDoneBarrier :
    (recordedShape entry op).ackDoneBarrier = entry.ackDoneBarrier := by
  rw [recordedShape]
  split <;> rfl

@[simp] theorem recordedShape_targetReadyBarrier :
    (recordedShape entry op).targetReadyBarrier = entry.targetReadyBarrier := by
  rw [recordedShape]
  split <;> rfl

end RecordedEntry

/-! ## Steps of a key -/

section Steps

variable [DecidableEq ε] {spaces : KeySpaces} {state : KeyState ε ι}

theorem getProtocol_eq (byteSize : ℕ) : getProtocol byteSize = .rendezvous := rfl

theorem KeyState.step_source {op : ReshardOp ε ι} {event : Event (Signal ε)}
    {entry : PointToPointReshard ε ι} {rt : Runtime ε ι}
    (hrun : reshardFromLocalSource (state.entries spaces.source) state.runtime spaces.source
      spaces.target op = .ok (event, entry, rt)) :
    state.step spaces (.source op) = .ok { state with
      entries := Function.update state.entries spaces.source entry
      runtime := rt
      sourceOps := state.sourceOps ++ [(op, event)] } := by
  rw [KeyState.step, hrun]
  rfl

theorem KeyState.step_target {op : ReshardOp ε ι} {event : Event (Signal ε)}
    {entry : PointToPointReshard ε ι} {rt : Runtime ε ι}
    (hrun : reshardToLocalTarget (state.entries spaces.target) state.runtime spaces.target
      spaces.source op = .ok (event, entry, rt)) :
    state.step spaces (.target op) = .ok { state with
      entries := Function.update state.entries spaces.target entry
      runtime := rt
      targetOps := state.targetOps ++ [(op, event)] } := by
  rw [KeyState.step, hrun]
  rfl

theorem KeyState.step_deliver_none {i : ℕ} (hi : state.runtime.messages[i]? = none) :
    state.step spaces (.deliver i) = .ok state := by
  rw [KeyState.step, hi]
  rfl

theorem KeyState.step_deliver {i : ℕ} {message : NameMessage ι}
    (hi : state.runtime.messages[i]? = some message)
    {entry : PointToPointReshard ε ι} {rt : Runtime ε ι}
    (hrun : receivePointToPointNames (state.entries message.target)
      { state.runtime with messages := state.runtime.messages.eraseIdx i }
      message.barrier message.regionInstance = .ok (entry, rt)) :
    state.step spaces (.deliver i) = .ok { state with
      entries := Function.update state.entries message.target entry
      runtime := rt
      delivered := state.delivered ++ [message] } := by
  rw [KeyState.step, hi]
  simp only [hrun]
  rfl

end Steps

end Zuku
