import Zuku.RendezvousCross

/-!
# A rendezvous of two address spaces loses and duplicates nothing

For every interleaving of source operations, target operations and deliveries
in which the first operation of either side can name its reshard, copies are
issued and events are triggered once, and as soon as both sides are known.
-/

namespace Zuku

open Checked Event FifoMatching

variable {ε ι : Type}

/-! ## Arrivals on one generation -/

theorem filter_arrivalsOf (barrier : ℕ) (events : List (Event (Signal ε))) (gen : ℕ) :
    (arrivalsOf barrier events).filter (fun a ↦ decide (a.1 = ⟨barrier, gen⟩)) =
      (events[gen]?).toList.map fun event ↦ (⟨barrier, gen⟩, event) := by
  induction events using List.reverseRecOn with
  | nil => rfl
  | append_singleton events event ih =>
      rw [arrivalsOf_push, List.filter_append, ih]
      rcases Nat.lt_trichotomy gen events.length with hlt | rfl | hgt
      · have hne : events.length ≠ gen := hlt.ne'
        simp [List.getElem?_append_left hlt, hne]
      · simp
      · have hne : events.length ≠ gen := hgt.ne
        have hlength : (events ++ [event]).length ≤ gen := by
          rw [List.length_append]
          exact hgt
        rw [List.getElem?_eq_none hlength, List.getElem?_eq_none hgt.le]
        simp [hne]

theorem filter_arrivalsOf_ne {barrier other : ℕ} (hne : barrier ≠ other)
    (events : List (Event (Signal ε))) (gen : ℕ) :
    (arrivalsOf barrier events).filter (fun a ↦ decide (a.1 = ⟨other, gen⟩)) = [] := by
  apply List.filter_eq_nil_iff.mpr
  intro arrival hmem
  obtain ⟨k, hk, rfl⟩ := List.mem_iff_getElem.mp hmem
  simp [arrivalsOf, hne]

variable [DecidableEq ε]

/-- The events that arrive on a generation of a barrier. -/
def arrivedOn (rt : Runtime ε ι) (barrier : Barrier) : List (Event (Signal ε)) :=
  (rt.arrivals.filter fun a ↦ decide (a.1 = barrier)).map Prod.snd

/-! ## Two different barriers -/

section Barriers

variable {spaces : KeySpaces} {first : Option (ReshardOp ε ι)} {sources targets : List (Served ε ι)}
  {ack ready : ℕ} {acked : Bool} {inOrder : Prop} {delivered : List (NameMessage ι)}
  {source target : PointToPointReshard ε ι} {rt : Runtime ε ι} {state : KeyState ε ι}

/-- While the source has no operation, its barrier may be any. -/
theorem CrossInv.renameAck
    (h : CrossInv spaces none [] targets ack ready acked inOrder delivered source target rt)
    (ack' : ℕ) :
    acked = false ∧
    CrossInv spaces none [] targets ack' ready acked inOrder delivered source target rt := by
  obtain rfl := h.acked_eq_false
  refine ⟨rfl, ?_⟩
  constructor
  · exact ⟨h.sourceSide.recorded, h.sourceSide.ackDone, h.sourceSide.isSome_first,
      h.sourceSide.matching⟩
  · exact ⟨h.targetSide.noSource, h.targetSide.pendingDest, h.targetSide.ackDone,
      h.targetSide.targetReady⟩
  · exact ⟨h.userEvents.nodup, h.userEvents.lt, h.userEvents.source_waiting,
      h.userEvents.target_waiting, h.userEvents.triggers_perm⟩
  · exact {
      h.traffic with
      acks_messages := fun hfirst ↦ absurd hfirst (by simp)
      acks_delivered := fun hacked ↦ absurd hacked (by simp) }
  · have harrivals := h.arrivals_perm
    rw [h.sourceSide.copies_nil] at harrivals ⊢
    exact harrivals
  · exact fun hfirst ↦ absurd hfirst (by simp)
  · exact h.ready_lt
  · exact fun hfirst ↦ absurd hfirst (by simp)

/-- While the target has no operation, its barrier may be any. -/
theorem CrossInv.renameReady
    (h : CrossInv spaces first sources [] ack ready acked inOrder delivered source target rt)
    (ready' : ℕ) :
    CrossInv spaces first sources [] ack ready' acked inOrder delivered source target rt where
  sourceSide := h.sourceSide
  targetSide := ⟨h.targetSide.noSource, h.targetSide.pendingDest, h.targetSide.ackDone,
    h.targetSide.targetReady⟩
  userEvents := h.userEvents
  traffic := h.traffic.rename ready'
  arrivals_perm := h.arrivals_perm
  ack_lt := h.ack_lt
  ready_lt hno := absurd rfl hno
  ack_ne_ready _ hno := absurd rfl hno

theorem CrossState.separate (h : CrossState spaces inOrder state) :
    ∃ sources targets ack ready acked, ack ≠ ready ∧
      state.sourceOps = answers copyEvent sources ∧
      state.targetOps = answers (ackEvent ack) targets ∧
      CrossInv spaces (sources.head?.map Prod.fst) sources targets ack ready acked inOrder
        state.delivered (state.entries spaces.source) (state.entries spaces.target)
        state.runtime := by
  obtain ⟨sources, targets, ack, ready, acked, hsources, htargets, hinv⟩ := h
  cases sources with
  | nil =>
      obtain ⟨rfl, hinv'⟩ := hinv.renameAck (ready + 1)
      refine ⟨[], targets, ready + 1, ready, false, Nat.succ_ne_self ready, hsources, ?_, hinv'⟩
      exact htargets.trans (answers_congr hinv.userEvents.target_waiting)
  | cons op sources =>
      cases targets with
      | nil =>
          exact ⟨op :: sources, [], ack, ack + 1, acked, (Nat.succ_ne_self ack).symm, hsources,
            htargets, hinv.renameReady (ack + 1)⟩
      | cons op' targets =>
          exact ⟨op :: sources, op' :: targets, ack, ready, acked,
            hinv.ack_ne_ready rfl (List.cons_ne_nil _ _), hsources, htargets, hinv⟩

end Barriers

section Arrivals

variable {spaces : KeySpaces} {first : Option (ReshardOp ε ι)} {sources targets : List (Served ε ι)}
  {ack ready : ℕ} {acked : Bool} {inOrder : Prop} {delivered : List (NameMessage ι)}
  {source target : PointToPointReshard ε ι} {rt : Runtime ε ι}

/-- On generation `gen` of the ack barrier the copy of this number arrives. -/
theorem CrossInv.arrivedOn_ack
    (h : CrossInv spaces first sources targets ack ready acked inOrder delivered source target rt)
    (hne : ack ≠ ready) (gen : ℕ) :
    arrivedOn rt ⟨ack, gen⟩ = if gen < rt.copies.length then [copyEvent gen] else [] := by
  have hperm := h.arrivals_perm.filter fun a ↦ decide (a.1 = ⟨ack, gen⟩)
  rw [List.filter_append, readyArrivals, filter_arrivalsOf_ne hne.symm, List.append_nil,
    copyArrivals, filter_arrivalsOf] at hperm
  rw [arrivedOn]
  by_cases hgen : gen < rt.copies.length
  · rw [List.getElem?_map, List.getElem?_range hgen] at hperm
    rw [if_pos hgen, List.perm_singleton.mp hperm]
    rfl
  · rw [List.getElem?_eq_none (by simpa using hgen)] at hperm
    rw [if_neg hgen, List.perm_nil.mp hperm]
    rfl

/-- On generation `gen` of the ready barrier the precondition of the target
operation of this number arrives. -/
theorem CrossInv.arrivedOn_ready
    (h : CrossInv spaces first sources targets ack ready acked inOrder delivered source target rt)
    (hne : ack ≠ ready) (gen : ℕ) :
    arrivedOn rt ⟨ready, gen⟩ = (targets[gen]?).toList.map fun op ↦ op.1.precondition := by
  have hperm := h.arrivals_perm.filter fun a ↦ decide (a.1 = ⟨ready, gen⟩)
  rw [List.filter_append, copyArrivals, filter_arrivalsOf_ne hne, List.nil_append, readyArrivals,
    filter_arrivalsOf, List.getElem?_map] at hperm
  rw [arrivedOn]
  cases hop : targets[gen]? with
  | none =>
      rw [hop] at hperm
      rw [List.perm_nil.mp hperm]
      rfl
  | some op =>
      rw [hop] at hperm
      rw [List.perm_singleton.mp hperm]
      rfl

end Arrivals

/-! ## The guarantee -/

/-- The message of the ack barrier has been delivered. -/
def AckDelivered (spaces : KeySpaces) (state : KeyState ε ι) : Prop :=
  ∃ message ∈ state.delivered, message.target = spaces.target ∧ message.regionInstance = none

/-- The events that the operations of a key were given, sources first. -/
def eventsGiven (state : KeyState ε ι) : List (Event (Signal ε)) :=
  (state.sourceOps ++ state.targetOps).map Prod.snd

/-- A copy goes from the instance of a source operation to the named instance
and waits until both are ready. -/
structure CopyPairs (copy : Copy ε ι) (source : ReshardOp ε ι) (name : TargetName ι) : Prop where
  srcInstance : copy.srcInstance = some source.regionInstance
  dstInstance : copy.dstInstance = some name.2
  precondition : copy.precondition = mergeEvents name.1.event source.precondition

/-- Copies, arrivals and triggers of a key in two address spaces: none is
missing and none is done twice. -/
structure NothingLost (spaces : KeySpaces) (state : KeyState ε ι) : Prop where
  one_queue : (state.entries spaces.source).pendingSourceReshards = [] ∨
    (state.entries spaces.source).pendingDestReshards = []
  names_sent : ∃ ready, (names state.delivered ++ names state.runtime.messages).Perm
    (state.targetOps.mapIdx fun k target ↦ (⟨ready, k⟩, target.1.regionInstance))
  length_copies : state.runtime.copies.length =
    min state.sourceOps.length (names state.delivered).length
  copy_pairs : ∀ (k : ℕ) copy, state.runtime.copies[k]? = some copy →
    ∃ source name, state.sourceOps[k]? = some source ∧ (names state.delivered)[k]? = some name ∧
      CopyPairs copy source.1 name
  recorded_shape : ∀ copy ∈ state.runtime.copies, ∃ source ∈ state.sourceOps,
    copy.shape = source.1.shape ∧ copy.fieldSize = supportedTypeSizeOf source.1.type
  source_given : ∀ (k : ℕ) source, state.sourceOps[k]? = some source →
    GivenBy state.runtime.triggers source.2 {.copyDone k} (k < (names state.delivered).length)
  ack_barrier : ∃ ack,
    (state.sourceOps ≠ [] → (state.entries spaces.source).ackDoneBarrier =
      some ⟨ack, state.runtime.copies.length⟩) ∧
    (∀ i, arrivedOn state.runtime ⟨ack, i⟩ =
      if i < state.runtime.copies.length then [{.copyDone i}] else []) ∧
    ∀ (i : ℕ) target, state.targetOps[i]? = some target →
      GivenBy state.runtime.triggers target.2 {.generation ack i} (AckDelivered spaces state)
  trigger_once : (state.runtime.triggers.map Prod.fst).Nodup
  trigger_given : ∀ t ∈ state.runtime.triggers, {.userEvent t.1} ∈ eventsGiven state
  given_once : ∀ id, (eventsGiven state).count {.userEvent id} ≤ 1

/-! ## The invariant gives the guarantee -/

section Guarantee

variable {spaces : KeySpaces} {sources targets : List (Served ε ι)} {ack ready : ℕ} {acked : Bool}
  {inOrder : Prop} {state : KeyState ε ι}

omit [DecidableEq ε] in
theorem ackDelivered_iff {opened : Prop} {messages : List (NameMessage ι)}
    (h : Traffic spaces ack ready opened (acked = true) inOrder targets messages state.delivered) :
    AckDelivered spaces state ↔ acked = true := by
  constructor
  · rintro ⟨message, hmem, -, hnone⟩
    by_contra hacked
    have hack : message ∈ acks state.delivered := List.mem_filter.mpr ⟨hmem, by simp [hnone]⟩
    rw [h.acks_delivered_nil hacked] at hack
    exact List.not_mem_nil hack
  · intro hacked
    have hack : ackMessage spaces.target ack ∈ acks state.delivered := by
      rw [h.acks_delivered hacked]
      exact List.mem_singleton_self _
    exact ⟨_, List.mem_of_mem_filter hack, rfl, rfl⟩

omit [DecidableEq ε] in
theorem getElem?_answers {result : ℕ → Event (Signal ε)} {ops : List (Served ε ι)} {k : ℕ}
    {answer : ReshardOp ε ι × Event (Signal ε)} (h : (answers result ops)[k]? = some answer) :
    ∃ op, ops[k]? = some op ∧ answer = (op.1, returned (result k) op.2) := by
  rw [answers, List.getElem?_mapIdx, Option.map_eq_some_iff] at h
  obtain ⟨op, hop, rfl⟩ := h
  exact ⟨op, hop, rfl⟩

theorem count_answers {result : ℕ → Event (Signal ε)} {id : ℕ}
    (hresult : ∀ k, result k ≠ {.userEvent id}) (ops : List (Served ε ι)) :
    ((answers result ops).map Prod.snd).count {.userEvent id} = (handles ops).count id := by
  induction ops using List.reverseRecOn with
  | nil => rfl
  | append_singleton ops op ih =>
      rw [answers_push, handles_push, List.map_append, List.count_append, List.count_append, ih]
      obtain ⟨op, _ | other⟩ := op
      · simp [returned, hresult]
      · simp [returned, List.count_singleton]

omit [DecidableEq ε] in
theorem copyEvent_ne_userEvent (k id : ℕ) : (copyEvent k : Event (Signal ε)) ≠ {.userEvent id} := by
  simp [copyEvent]

omit [DecidableEq ε] in
theorem ackEvent_ne_userEvent (ack k id : ℕ) :
    (ackEvent ack k : Event (Signal ε)) ≠ {.userEvent id} := by
  simp [ackEvent, Barrier.event]

theorem SourceSide.getElem?_copies {first : Option (ReshardOp ε ι)}
    {received : List (TargetName ι)} {entry : PointToPointReshard ε ι}
    {copies : List (Copy ε ι)} (h : SourceSide ack first sources received entry copies)
    {k : ℕ} {copy : Copy ε ι} (hcopy : copies[k]? = some copy) :
    ∃ source name, sources[k]? = some source ∧ received[k]? = some name ∧
      CopyPairs copy source.1 name ∧ copy.shape = entry.shape ∧
      copy.fieldSize = entry.fieldSize := by
  obtain ⟨matched, hmatching, hcopies⟩ := h.matching
  rw [hcopies] at hcopy
  obtain ⟨source, name, hsource, hname, rfl⟩ := exists_copied hmatching hcopy
  exact ⟨source, name, hsource, hname, ⟨rfl, rfl, rfl⟩, rfl, rfl⟩

omit [DecidableEq ε] in
theorem answers_getElem? (result : ℕ → Event (Signal ε)) {ops : List (Served ε ι)} {k : ℕ}
    {op : Served ε ι} (h : ops[k]? = some op) :
    (answers result ops)[k]? = some (op.1, returned (result k) op.2) := by
  rw [answers, List.getElem?_mapIdx, h]
  rfl

omit [DecidableEq ε] in
theorem mem_answers_of_mem_handles {result : ℕ → Event (Signal ε)} {ops : List (Served ε ι)}
    {id : ℕ} (hid : id ∈ handles ops) : {.userEvent id} ∈ (answers result ops).map Prod.snd := by
  obtain ⟨op, hmem, hop⟩ := List.mem_filterMap.mp hid
  obtain ⟨k, hk, rfl⟩ := List.mem_iff_getElem.mp hmem
  have hanswer := answers_getElem? result (List.getElem?_eq_getElem hk)
  refine List.mem_map.mpr ⟨_, List.mem_of_getElem? hanswer, ?_⟩
  rw [hop]
  rfl

section EventsGiven

variable {sourceResult targetResult : ℕ → Event (Signal ε)} {m n numUserEvents : ℕ}

omit [DecidableEq ε] in
/-- Only user events that were handed out are triggered. -/
theorem UserEvents.mem_eventsGiven
    (h : UserEvents sourceResult targetResult sources targets m n numUserEvents
      state.runtime.triggers)
    (hsources : state.sourceOps = answers sourceResult sources)
    (htargets : state.targetOps = answers targetResult targets) :
    ∀ t ∈ state.runtime.triggers, {.userEvent t.1} ∈ eventsGiven state := by
  intro t ht
  have hid := h.mem_handles_of_mem_triggers (List.mem_map_of_mem ht)
  rw [eventsGiven, hsources, htargets, List.map_append, List.mem_append]
  exact (List.mem_append.mp hid).imp mem_answers_of_mem_handles mem_answers_of_mem_handles

/-- A user event is handed out at most once. -/
theorem UserEvents.count_eventsGiven
    (h : UserEvents sourceResult targetResult sources targets m n numUserEvents
      state.runtime.triggers)
    (hsource : ∀ k id, sourceResult k ≠ {.userEvent id})
    (htarget : ∀ k id, targetResult k ≠ {.userEvent id})
    (hsources : state.sourceOps = answers sourceResult sources)
    (htargets : state.targetOps = answers targetResult targets) (id : ℕ) :
    (eventsGiven state).count {.userEvent id} ≤ 1 := by
  rw [eventsGiven, hsources, htargets, List.map_append, List.count_append,
    count_answers (fun k ↦ hsource k id), count_answers (fun k ↦ htarget k id),
    ← List.count_append]
  exact List.nodup_iff_count_le_one.mp h.nodup id

end EventsGiven

/-- The `i`-th target operation is given generation `i` of the ack barrier. -/
theorem CrossInv.target_given {first : Option (ReshardOp ε ι)}
    {source target : PointToPointReshard ε ι}
    (h : CrossInv spaces first sources targets ack ready acked inOrder state.delivered source target
      state.runtime)
    (htargets : state.targetOps = answers (ackEvent ack) targets) {i : ℕ}
    {answer : ReshardOp ε ι × Event (Signal ε)} (hanswer : state.targetOps[i]? = some answer) :
    GivenBy state.runtime.triggers answer.2 {.generation ack i} (AckDelivered spaces state) := by
  rw [htargets] at hanswer
  obtain ⟨op, hop, rfl⟩ := getElem?_answers hanswer
  have hlt : i < targets.length := (List.getElem?_eq_some_iff.mp hop).1
  have hgiven := h.userEvents.swap.givenBy_source hop
  have hiff : i < numAcked acked targets ↔ AckDelivered spaces state := by
    rw [ackDelivered_iff h.traffic, numAcked]
    cases acked <;> simp [hlt]
  rwa [propext hiff] at hgiven

omit [DecidableEq ε] in
theorem targetNames_answers (result : ℕ → Event (Signal ε)) (targets : List (Served ε ι)) :
    ((answers result targets).mapIdx fun k target ↦ (⟨ready, k⟩, target.1.regionInstance)) =
      targetNames ready targets := by
  rw [answers, List.mapIdx_mapIdx]
  rfl

theorem CrossState.nothingLost (h : CrossState spaces inOrder state) :
    NothingLost spaces state := by
  obtain ⟨sources, targets, ack, ready, acked, hne, hsources, htargets, hinv⟩ := h.separate
  obtain ⟨matched, hmatching, hcopies⟩ := hinv.sourceSide.matching
  refine ⟨hmatching.one_side_empty, ⟨ready, ?_⟩, ?_, ?_, ?_, ?_,
    ⟨ack, ?_, hinv.arrivedOn_ack hne, ?_⟩, ?_, ?_, ?_⟩
  · rw [htargets, targetNames_answers]
    exact hinv.traffic.names_perm
  · rw [hsources, length_answers]
    exact hinv.sourceSide.length_copies
  · intro k copy hcopy
    obtain ⟨source, name, hsource, hname, hpairs, -⟩ := hinv.sourceSide.getElem?_copies hcopy
    exact ⟨_, name, hsources ▸ answers_getElem? _ hsource, hname, hpairs⟩
  · intro copy hmem
    obtain ⟨k, hk⟩ := List.mem_iff_getElem?.mp hmem
    obtain ⟨source, -, hsource, -, -, hshape, hsize⟩ := hinv.sourceSide.getElem?_copies hk
    cases sources with
    | nil => simp at hsource
    | cons first sources =>
        have hfirst : (answers copyEvent (first :: sources))[0]? =
            some (first.1, returned (copyEvent 0) first.2) := answers_getElem? _ rfl
        refine ⟨_, List.mem_of_getElem? (hsources ▸ hfirst), ?_, ?_⟩
        · exact hshape.trans hinv.sourceSide.recorded.2.1
        · exact hsize.trans hinv.sourceSide.recorded.2.2
  · intro k source hsource
    rw [hsources] at hsource
    obtain ⟨op, hop, rfl⟩ := getElem?_answers hsource
    exact hinv.userEvents.givenBy_source hop
  · intro hsome
    cases sources with
    | nil => exact absurd hsources hsome
    | cons first sources => exact hinv.sourceSide.ackDone
  · exact fun i target ↦ hinv.target_given htargets
  · exact hinv.userEvents.nodup_triggers
  · exact hinv.userEvents.mem_eventsGiven hsources htargets
  · exact hinv.userEvents.count_eventsGiven copyEvent_ne_userEvent (ackEvent_ne_userEvent ack)
      hsources htargets

/-- An interleaving of source operations, target operations and deliveries
between two address spaces runs without a fault, and loses and duplicates
nothing, if and only if the first operation of either side can name its
reshard. -/
theorem run_nothingLost (spaces : KeySpaces) (hne : spaces.source ≠ spaces.target)
    (actions : List (KeyAction ε ι)) :
    (∃ state, KeyState.run spaces {} actions = .ok state ∧ Logged spaces actions state ∧
      NothingLost spaces state) ↔ FirstNamed spaces actions := by
  rw [← namedFrom_init]
  constructor
  · rintro ⟨state, hrun, -⟩
    exact KeyState.named_of_run hrun
  · intro hnamed
    obtain ⟨state, hrun, hstate⟩ := crossState_init.run hne hnamed
    exact ⟨state, hrun, KeyState.logged_of_run hrun, hstate.nothingLost⟩

end Guarantee

/-- An array of four floats on one device, without a name. -/
def fourFloats : NamedArray := ⟨none, ⟨[⟨4, 1, 0⟩], ⟨0, 1⟩⟩, 0, some 16⟩

/-- An operation on a tile of four floats. -/
def tileOp (precondition regionInstance : ℕ) : ReshardOp ℕ ℕ :=
  ⟨⟨1, [(0, 3)]⟩, .f32, 16, {.external precondition}, regionInstance, fourFloats, fourFloats, rfl⟩

/-- The target has a name. -/
def namedTileOp : ReshardOp ℕ ℕ :=
  { tileOp 0 10 with
    dst := { fourFloats with name := some "dst" }
    hasTile := rfl }

theorem run_nothingLost_targetFirst :
    ∃ state, KeyState.run ⟨0, 1⟩ {} [.target (tileOp 0 10), .source (tileOp 1 20), .deliver 1,
      .target (tileOp 2 11), .deliver 0] = .ok state ∧
      Logged ⟨0, 1⟩ [.target (tileOp 0 10), .source (tileOp 1 20), .deliver 1,
        .target (tileOp 2 11), .deliver 0] state ∧ NothingLost ⟨0, 1⟩ state :=
  (run_nothingLost ⟨0, 1⟩ (by decide) _).mpr (by decide)

/-- The first target operation reads the name of a source that has none. -/
theorem not_nothingLost_unnamedSource :
    ¬ ∀ (spaces : KeySpaces), spaces.source ≠ spaces.target → ∀ actions : List (KeyAction ℕ ℕ),
      ∃ state, KeyState.run spaces {} actions = .ok state ∧ Logged spaces actions state ∧
        NothingLost spaces state := by
  intro h
  obtain ⟨state, hrun, -⟩ := h ⟨0, 1⟩ (by decide) [.target namedTileOp]
  cases hrun

end Zuku
