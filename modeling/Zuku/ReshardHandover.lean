import Zuku.ReshardHistory
import Zuku.ReshardPartners

/-!
# What the manager is handed

A copy out of the source is handed the writers of the source, a copy into the
destination everything that the destination had to wait for, and a copy inside a
broadcast tree the writers of the destination, the copies into it among them.
-/

namespace Zuku

open EventPrecondition Checked

variable {ε : Type} [DecidableEq ε]

/-- The preconditions of the copies, and which of them stay inside the destination. -/
structure Handover (view : ArrayView ε) (dst : ArrayStore ε) (state : ReshardState ε) : Prop where
  value_eq : state.dst.value = dst.value
  sends : ∀ copy ∈ state.sends,
    copy.precondition = view.effectsPrecondition ∧ copy.call.withinTarget = false
  receives : ∀ copy ∈ state.receives, copy.precondition = dst.precondition
  forwards : ∀ copy ∈ state.forwards,
    copy.precondition = effectsOf state.dst.childRwEvent ∧ copy.call.withinTarget = true

omit [DecidableEq ε] in
theorem ReshardRuntime.mem_issueAll (rt : ReshardRuntime ε) (answers : ManagerAnswers ε)
    (precondition : Event (ArraySignal ε)) {calls : List ReshardCall} {copy : IssuedCall ε}
    (hcopy : copy ∈ (rt.issueAll answers precondition calls).1) :
    copy.precondition = precondition ∧ copy.call ∈ calls := by
  induction calls generalizing rt with
  | nil => cases hcopy
  | cons call calls ih =>
      rcases List.mem_cons.mp hcopy with rfl | hcopy
      · exact ⟨rfl, List.mem_cons_self⟩
      · obtain ⟨hprecondition, hcall⟩ := ih _ hcopy
        exact ⟨hprecondition, List.mem_cons_of_mem _ hcall⟩

namespace Handover

variable {view view' : ArrayView ε} {dst : ArrayStore ε} {state : ReshardState ε}
  {calls : List ReshardCall}

theorem start (view : ArrayView ε) (dst : ArrayStore ε) (rt : ReshardRuntime ε) :
    Handover view dst ⟨dst, rt, [], [], []⟩ :=
  ⟨rfl, by simp, by simp, by simp⟩

theorem send (h : Handover view dst state) (answers : ManagerAnswers ε)
    (hview : view'.effectsPrecondition = view.effectsPrecondition)
    (hcalls : ∀ call ∈ calls, call.withinTarget = false) :
    Handover view dst (state.send answers view' calls).2 := by
  refine ⟨h.value_eq, ?_, h.receives, h.forwards⟩
  intro copy hcopy
  rcases List.mem_append.mp hcopy with hcopy | hcopy
  · exact h.sends copy hcopy
  · obtain ⟨hprecondition, hcall⟩ := state.runtime.mem_issueAll answers _ hcopy
    exact ⟨hprecondition.trans hview, hcalls _ hcall⟩

/-- The destination is as it was before the reshard. -/
theorem receive (h : Handover view dst state) (answers : ManagerAnswers ε) (hdst : state.dst = dst)
    (hforwards : state.forwards = []) (calls : List ReshardCall) :
    Handover view dst (state.receive answers calls) := by
  refine ⟨h.value_eq, h.sends, ?_, ?_⟩
  · intro copy hcopy
    rcases List.mem_append.mp hcopy with hcopy | hcopy
    · exact h.receives copy hcopy
    · rw [← hdst]
      exact (state.runtime.mem_issueAll answers _ hcopy).1
  · have hnone : (state.receive answers calls).forwards = [] := hforwards
    simp [hnone]

theorem forward (h : Handover view dst state) (answers : ManagerAnswers ε)
    (hforwards : state.forwards = []) (hcalls : ∀ call ∈ calls, call.withinTarget = true) :
    Handover view dst (state.forward answers calls) := by
  rw [ReshardState.forward]
  split
  · exact h
  · refine ⟨h.value_eq, h.sends, h.receives, ?_⟩
    intro copy hcopy
    rcases List.mem_append.mp hcopy with hcopy | hcopy
    · rw [hforwards] at hcopy
      cases hcopy
    · obtain ⟨hprecondition, hcall⟩ := ReshardRuntime.mem_issueAll _ answers _ hcopy
      exact ⟨hprecondition, hcalls _ hcall⟩

theorem destroyView (h : Handover view dst state) (view' : ArrayView ε) :
    Handover view dst (state.destroyView view') :=
  ⟨h.value_eq, h.sends, h.receives, h.forwards⟩

end Handover

/-! ## The patterns -/

section Patterns

variable {p : Processor} {src dst : Sharding} {answers : ManagerAnswers ε}
  {view view' : ArrayView ε} {store : ArrayStore ε} {rt : ReshardRuntime ε}
  {state : ReshardState ε} {calls : ReshardCalls}

theorem handover_received (h : Handover view store state) (hdst : state.dst = store)
    (hforwards : state.forwards = []) (calls : List ReshardCall) :
    Handover view store (if hasTile p dst then state.receive answers calls else state) := by
  split
  · exact h.receive answers hdst hforwards calls
  · exact h

theorem handover_sendAndReceive (hcalls : OwnTiles p src dst calls) :
    Handover view store
      (ReshardEvents.sendAndReceive p answers src dst calls view ⟨store, rt, [], [], []⟩) := by
  have hstart := Handover.start view store rt
  have hsends : ∀ call ∈ calls.sends, call.withinTarget = false :=
    fun call hcall ↦ (hcalls.sends call hcall).1
  rw [ReshardEvents.sendAndReceive]
  by_cases hsrc : hasTile p src = true
  · simp only [if_pos hsrc]
    exact (handover_received (hstart.send answers rfl hsends) rfl rfl _).destroyView _
  · simp only [if_neg hsrc]
    exact (handover_received hstart rfl rfl _).destroyView _

/-- A view of the view has the same precondition. -/
theorem handover_scatterGather {config : ScatterGatherConfig}
    (hcalls : OwnTiles p src dst (Zuku.reshardScatterGather p config src dst)) :
    Handover view store
      (ReshardEvents.reshardScatterGather p answers src dst config view
        ⟨store, rt, [], [], []⟩) := by
  have hsends : ∀ call ∈ (Zuku.reshardScatterGather p config src dst).sends,
      call.withinTarget = false := fun call hcall ↦ (hcalls.sends call hcall).1
  rw [ReshardEvents.reshardScatterGather]
  by_cases hsrc : hasTile p src = true
  · simp only [if_pos hsrc]
    have hcreated := Handover.start view store rt.createUserEvent.2
    have hsent := (hcreated.send answers rfl hsends : Handover view store
      (ReshardState.send answers ⟨store, rt.createUserEvent.2, [], [], []⟩
        (view.subview rt.createUserEvent.1).1 _).2)
    exact (handover_received (hsent.destroyView _) rfl rfl _).destroyView _
  · simp only [if_neg hsrc]
    exact (handover_received (Handover.start view store rt) rfl rfl _).destroyView _

variable [RealmBuild]

theorem handover_pointToPoint
    (h : ReshardEvents.reshardPointToPoint p answers src dst view ⟨store, rt, [], [], []⟩ =
      .ok state) : Handover view store state := by
  obtain ⟨calls, hcalls, h⟩ := bind_eq_ok_iff.mp h
  obtain ⟨state₁, hstate₁, hreceived⟩ : ∃ state₁, (if hasTile p dst then
      ReshardState.receive answers ⟨store, rt, [], [], []⟩ calls.receives
      else ⟨store, rt, [], [], []⟩) = state₁ ∧ Handover view store state₁ :=
    ⟨_, rfl, handover_received (Handover.start view store rt) rfl rfl calls.receives⟩
  simp only [hstate₁] at h
  split at h
  · obtain rfl := Except.ok.inj h
    refine (hreceived.send answers rfl fun call hcall ↦ ?_).destroyView _
    exact ((ownTiles_pointToPoint hcalls).1.sends call hcall).1
  · obtain rfl := Except.ok.inj h
    exact hreceived.destroyView _

theorem handover_broadcast {config : BroadcastConfig}
    (h : ReshardEvents.reshardBroadcast p answers src dst config view ⟨store, rt, [], [], []⟩ =
      .ok state) : Handover view store state := by
  obtain ⟨state₁, hstate₁, h⟩ := bind_eq_ok_iff.mp h
  have hreceived : Handover view store state₁ := by
    split at hstate₁
    · obtain ⟨target, htarget, hstate₁⟩ := bind_eq_ok_iff.mp hstate₁
      obtain rfl := Except.ok.inj hstate₁
      have htree : OwnCalls p src dst target ∧ _ := ownCalls_toLocalTarget htarget
      exact ((Handover.start view store rt).receive answers rfl rfl target.receives).forward
        answers rfl htree.2.2
    · obtain rfl := Except.ok.inj hstate₁
      exact Handover.start view store rt
  split at h
  · obtain ⟨sends, hsends, h⟩ := bind_eq_ok_iff.mp h
    obtain rfl := Except.ok.inj h
    refine (hreceived.send answers rfl fun call hcall ↦ ?_).destroyView _
    exact (ownShard_fromLocalSource hsends call hcall).1
  · obtain rfl := Except.ok.inj h
    exact hreceived.destroyView _

/-- Whatever the plan, the manager is handed these events. -/
theorem handover_of_eq_ok
    (h : ReshardEvents.reshard p answers view ⟨store, rt, [], [], []⟩ = .ok state) :
    Handover view store state := by
  obtain ⟨srcArray, -, h⟩ := bind_eq_ok_iff.mp h
  obtain ⟨dstArray, -, h⟩ := bind_eq_ok_iff.mp h
  obtain ⟨plan, hplan, h⟩ := bind_eq_ok_iff.mp h
  have hmoved {state : ReshardState ε} (h : Handover view.moved store state) :
      Handover view store state := ⟨h.value_eq, h.sends, h.receives, h.forwards⟩
  apply hmoved
  cases plan with
  | unsupported => cases h
  | pointToPoint => exact handover_pointToPoint h
  | scatterGather config =>
      obtain rfl := Except.ok.inj h
      exact handover_scatterGather (ownTiles_scatterGather (scatterGather_branch hplan).2).1
  | broadcast config => exact handover_broadcast h
  | gatherShards config =>
      obtain ⟨calls, hcalls, h⟩ := bind_eq_ok_iff.mp h
      obtain rfl := Except.ok.inj h
      exact handover_sendAndReceive (ownTiles_gatherShards (dstShard_of_plan hplan) hcalls).1
  | scatterShards config =>
      obtain ⟨calls, hcalls, h⟩ := bind_eq_ok_iff.mp h
      obtain rfl := Except.ok.inj h
      exact handover_sendAndReceive (ownTiles_scatterShards hcalls).1
  | noOp =>
      obtain rfl := Except.ok.inj h
      exact (Handover.start view.moved store rt).destroyView _

end Patterns

end Zuku
