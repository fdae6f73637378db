import Zuku.ReshardEvents
import Zuku.ScatterGather
import Zuku.StoreUses

/-!
# Resharding respects the readers and writers of both arrays

Every copy waits for what the manager was handed, and every event that the
manager returned is kept: by the reader event of a view, or by the destination.
A pattern that makes the destination ready after its copies forgets the readers
before, for which the copies have waited.
-/

namespace Zuku

open Event EventPrecondition EventImplication Checked

/-! ## Every destination tile gets a copy -/

section Receives

variable [RealmBuild] {p : Processor} {src dst : Sharding}

omit [RealmBuild] in
theorem onTile_of_hasTile {p : Processor} {sharding : Sharding} (h : hasTile p sharding = true)
    (calls : Exec (List ReshardCall)) : onTile p sharding calls = calls := if_pos h

omit [RealmBuild] in
theorem exists_shardId {p : Processor} {sharding : Sharding} (h : hasTile p sharding = true) :
    ∃ shard, sharding.devices.shardId p.globalId = some shard := by
  apply Option.isSome_iff_exists.mp
  rw [DeviceList.isSome_shardId]
  exact h

theorem receives_of_pointToPoint {calls : ReshardCalls}
    (h : reshardPointToPoint p src dst = .ok calls) (hdst : hasTile p dst = true) :
    calls.receives ≠ [] := by
  rw [reshardPointToPoint, onTile_of_hasTile hdst] at h
  obtain ⟨receives, hreceives, h⟩ := bind_eq_ok_iff.mp h
  obtain ⟨_, -, hreceives⟩ := bind_eq_ok_iff.mp hreceives
  obtain ⟨_, -, h⟩ := bind_eq_ok_iff.mp h
  obtain rfl := Except.ok.inj h
  obtain rfl := Except.ok.inj hreceives
  exact List.cons_ne_nil _ _

theorem receives_of_scatterShards {calls : ReshardCalls}
    (h : reshardScatterShards p src dst = .ok calls) (hdst : hasTile p dst = true) :
    calls.receives ≠ [] := by
  rw [reshardScatterShards, onTile_of_hasTile hdst] at h
  obtain ⟨_, -, h⟩ := bind_eq_ok_iff.mp h
  obtain ⟨receives, hreceives, h⟩ := bind_eq_ok_iff.mp h
  obtain ⟨_, -, hreceives⟩ := bind_eq_ok_iff.mp hreceives
  obtain ⟨_, -, hreceives⟩ := bind_eq_ok_iff.mp hreceives
  obtain ⟨_, -, hreceives⟩ := bind_eq_ok_iff.mp hreceives
  obtain rfl := Except.ok.inj h
  obtain rfl := Except.ok.inj hreceives
  exact List.cons_ne_nil _ _

omit [RealmBuild] in
/-- A gathering destination gets a piece from every device of the source. -/
theorem receives_of_gatherShards {config : GatherShardsConfig} {calls : ReshardCalls}
    (h : reshardGatherShards p config src dst = .ok calls) (hdst : hasTile p dst = true)
    (hsrc : 0 < src.devices.size) : calls.receives ≠ [] := by
  rw [reshardGatherShards, onTile_of_hasTile hdst] at h
  obtain ⟨_, -, h⟩ := bind_eq_ok_iff.mp h
  obtain ⟨receives, hreceives, h⟩ := bind_eq_ok_iff.mp h
  obtain rfl := Except.ok.inj h
  split at hreceives
  · cases hreceives
  · obtain ⟨_, -, hreceives⟩ := bind_eq_ok_iff.mp hreceives
    apply ne_nil_of_mapM hreceives
    simpa using hsrc.ne'

/-- A destination shard gets at least one slice. -/
theorem toTarget_ne_nil {dim shard : ℕ} {srcShard : Option ℕ} {config : ScatterGatherConfig}
    (h : getScatterGatherConfig dim srcShard (some shard) src dst = .ok config) :
    config.toTarget ≠ [] := by
  obtain ⟨x, -, h⟩ := bind_eq_ok_iff.mp h
  obtain ⟨y, -, h⟩ := bind_eq_ok_iff.mp h
  obtain ⟨_, -, h⟩ := bind_eq_ok_iff.mp h
  split at h
  · rename_i hlt
    obtain ⟨q, hq, h⟩ := bind_eq_ok_iff.mp h
    obtain ⟨_, -, h⟩ := bind_eq_ok_iff.mp h
    obtain ⟨_, -, h⟩ := bind_eq_ok_iff.mp h
    obtain ⟨toTarget, htarget, h⟩ := bind_eq_ok_iff.mp h
    obtain rfl := Except.ok.inj h
    obtain ⟨slices, hslices, htarget⟩ := bind_eq_ok_iff.mp htarget
    obtain rfl := Except.ok.inj htarget
    obtain ⟨_, -, hslices⟩ := bind_eq_ok_iff.mp hslices
    obtain ⟨_, -, hslices⟩ := bind_eq_ok_iff.mp hslices
    obtain ⟨hpos, rfl⟩ := checkedDiv_eq_ok_iff.mp hq
    have hone : 0 < x.sharding / y.sharding := Nat.div_pos hlt.le hpos
    have hne := ne_nil_of_mapM hslices (by simpa using hone.ne')
    simpa using hne
  · obtain ⟨_, -, h⟩ := bind_eq_ok_iff.mp h
    obtain ⟨_, -, h⟩ := bind_eq_ok_iff.mp h
    obtain ⟨toTarget, htarget, h⟩ := bind_eq_ok_iff.mp h
    obtain ⟨_, -, h⟩ := bind_eq_ok_iff.mp h
    obtain rfl := Except.ok.inj h
    obtain ⟨_, -, htarget⟩ := bind_eq_ok_iff.mp htarget
    obtain rfl := Except.ok.inj htarget
    exact List.cons_ne_nil _ _

theorem receives_of_scatterGather {config : ScatterGatherConfig}
    (h : determineShardingConfig p src dst = .ok (.scatterGather config))
    (hdst : hasTile p dst = true) : (reshardScatterGather p config src dst).receives ≠ [] := by
  obtain ⟨-, h⟩ := scatterGather_branch h
  obtain ⟨shard, hshard⟩ := exists_shardId hdst
  rw [determineScatterGatherConfig] at h
  simp only at h
  split at h
  · obtain ⟨dim, -, h⟩ := bind_eq_ok_iff.mp h
    obtain ⟨config', hconfig, h⟩ := bind_eq_ok_iff.mp h
    obtain ⟨rfl⟩ : config' = config := by simpa using h
    rw [hshard] at hconfig
    have hne := toTarget_ne_nil hconfig
    simpa [reshardScatterGather, scatterGatherCalls, hdst] using hne
  · cases h

omit [RealmBuild] in
/-- In a broadcast tree every shard has a parent, or is the root of a source shard. -/
theorem getTargetConfig_parent {srcShard destRootShard myRank : ℕ} {dstDevices : DeviceList}
    {target : TargetConfig}
    (h : getTargetConfig srcShard destRootShard dstDevices myRank = .ok target) :
    target.srcShard.isSome ∨ target.dstRootShard.isSome := by
  unfold getTargetConfig at h
  simp only at h
  split at h
  · obtain rfl := Except.ok.inj h
    exact Or.inr rfl
  · obtain ⟨_, -, h⟩ := bind_eq_ok_iff.mp h
    obtain ⟨_, -, h⟩ := bind_eq_ok_iff.mp h
    obtain ⟨_, -, h⟩ := bind_eq_ok_iff.mp h
    split at h
    · obtain rfl := Except.ok.inj h
      exact Or.inr rfl
    · obtain rfl := Except.ok.inj h
      exact Or.inl rfl

omit [RealmBuild] in
theorem getBroadcastTarget_parent {leavesPerRoot : ℕ} {shard : Option ℕ} {target : TargetConfig}
    (h : getBroadcastTarget leavesPerRoot dst shard = .ok (some target)) :
    target.srcShard.isSome ∨ target.dstRootShard.isSome := by
  cases shard with
  | none => cases h
  | some shard =>
      obtain ⟨_, -, h⟩ := bind_eq_ok_iff.mp h
      obtain ⟨target', htarget, h⟩ := bind_eq_ok_iff.mp h
      obtain rfl : target' = target := by simpa using h
      exact getTargetConfig_parent htarget

omit [RealmBuild] in
theorem getBroadcastConfig_parent {srcShard dstShard : Option ℕ} {config : BroadcastConfig}
    (h : getBroadcastConfig srcShard dstShard src dst = .ok config) {target : TargetConfig}
    (htarget : config.target = some target) :
    target.srcShard.isSome ∨ target.dstRootShard.isSome := by
  obtain ⟨leavesPerRoot, -, h⟩ := bind_eq_ok_iff.mp h
  cases srcShard with
  | none =>
      obtain ⟨_, hrun, h⟩ := bind_eq_ok_iff.mp h
      obtain rfl := Except.ok.inj h
      obtain rfl : _ = some target := htarget
      exact getBroadcastTarget_parent hrun
  | some srcShard =>
      simp only at h
      split at h
      · obtain rfl := Except.ok.inj h
        cases htarget
      · obtain ⟨_, hrun, h⟩ := bind_eq_ok_iff.mp h
        obtain rfl := Except.ok.inj h
        obtain rfl : _ = some target := htarget
        exact getBroadcastTarget_parent hrun

theorem receives_of_broadcast {config : BroadcastConfig} {calls : ReshardCalls}
    (hplan : determineShardingConfig p src dst = .ok (.broadcast config))
    (h : reshardBroadcastToLocalTarget p config dst = .ok calls) : calls.receives ≠ [] := by
  obtain ⟨target, htarget, h⟩ := bind_eq_ok_iff.mp h
  obtain ⟨_, -, h⟩ := bind_eq_ok_iff.mp h
  obtain rfl := Except.ok.inj h
  have hsome : config.target = some target := by
    cases hconfig : config.target with
    | none => simp [hconfig] at htarget
    | some target' => simpa [hconfig] using htarget
  have hparent : target.srcShard.isSome ∨ target.dstRootShard.isSome := by
    cases plannedBy_of_eq_ok hplan with
    | broadcast hrun => exact getBroadcastConfig_parent hrun hsome
  show broadcastReceives target _ _ ≠ []
  rw [broadcastReceives]
  split
  · exact List.cons_ne_nil _ _
  · exact List.cons_ne_nil _ _
  · simp [*] at hparent

end Receives

variable {ε : Type}

/-- An array that has been created is on at least one device. -/
theorem ShardedArray.devices_pos (array : ShardedArray) : 0 < array.sharding.devices.size :=
  Zuku.devices_pos array.sharding_pos 
    ((checkTotalSharding_eq_ok_iff array.sharding_pos).mp array.checked)

/-! ## Calls of the manager -/

/-- What the manager is known to do with the calls. -/
structure Issued (precondition : Event (ArraySignal ε)) (rt rt' : ReshardRuntime ε)
    (issued : List (IssuedCall ε)) : Prop where
  orders_subset : rt.orders ⊆ rt'.orders
  waits : ∀ copy ∈ issued, Implies rt'.orders ∅ {copy.copy} precondition
  returns : ∀ copy ∈ issued, Implies rt'.orders ∅ copy.postcondition {copy.copy}

namespace ReshardRuntime

variable (rt : ReshardRuntime ε) (answers : ManagerAnswers ε)
  (precondition : Event (ArraySignal ε))

theorem issued_issueAll (calls : List ReshardCall) :
    Issued precondition rt (rt.issueAll answers precondition calls).2
      (rt.issueAll answers precondition calls).1 := by
  induction calls generalizing rt with
  | nil => exact ⟨List.Subset.refl _, by simp [issueAll], by simp [issueAll]⟩
  | cons call calls ih =>
      have hrest := ih (rt.issue answers call precondition).2
      have hnew : rt.orders ⊆ (rt.issue answers call precondition).2.orders :=
        List.subset_append_left _ _
      constructor
      · exact List.Subset.trans hnew hrest.orders_subset
      · intro copy hcopy
        rcases List.mem_cons.mp hcopy with rfl | hcopy
        · apply Implies.of_mem
          exact hrest.orders_subset (List.mem_append_right _ List.mem_cons_self)
        · exact hrest.waits copy hcopy
      · intro copy hcopy
        rcases List.mem_cons.mp hcopy with rfl | hcopy
        · apply Implies.of_mem
          apply hrest.orders_subset
          exact List.mem_append_right _ (List.mem_cons_of_mem _ List.mem_cons_self)
        · exact hrest.returns copy hcopy

end ReshardRuntime

variable [DecidableEq ε]

theorem Issued.postcondition_implies {precondition : Event (ArraySignal ε)}
    {rt rt' : ReshardRuntime ε} {issued : List (IssuedCall ε)}
    (h : Issued precondition rt rt' issued) {copy : IssuedCall ε} (hcopy : copy ∈ issued) :
    Implies rt'.orders ∅ (postcondition issued) {copy.copy} :=
  (Implies.of_subset (subset_mergeAll (List.mem_map_of_mem hcopy))).trans (h.returns copy hcopy)

omit [DecidableEq ε] in
theorem Issued.mono {precondition : Event (ArraySignal ε)} {rt rt' rt'' : ReshardRuntime ε}
    {issued : List (IssuedCall ε)} (h : Issued precondition rt rt' issued)
    (horders : rt'.orders ⊆ rt''.orders) : Issued precondition rt rt'' issued where
  orders_subset := List.Subset.trans h.orders_subset horders
  waits copy hcopy := (h.waits copy hcopy).mono horders (Finset.Subset.refl _)
  returns copy hcopy := (h.returns copy hcopy).mono horders (Finset.Subset.refl _)

/-! ## The destination -/

/-- The copies into the destination come after its readers and writers, and
before those that follow. -/
structure Target (dst : ArrayStore ε) (state : ReshardState ε) : Prop where
  receive_waits : ∀ copy ∈ state.receives,
    Implies state.runtime.orders ∅ {copy.copy} dst.precondition
  receive_written : ∀ copy ∈ state.receives, ∀ streamOrdered,
    Implies state.runtime.orders ∅ (state.dst.waitsFor streamOrdered .read) {copy.copy}
  writers : effectsOf dst.childRwEvent ⊆ effectsOf state.dst.childRwEvent
  covered : ∀ streamOrdered event, event ⊆ dst.precondition →
    event ⊆ dst.waitsFor streamOrdered .write →
    Implies state.runtime.orders ∅ (state.dst.waitsFor streamOrdered .write) event
  forward_waits : ∀ forward ∈ state.forwards, ∀ copy ∈ state.receives,
    Implies state.runtime.orders ∅ {forward.copy} {copy.copy}
  forward_read : ∀ forward ∈ state.forwards, ∀ streamOrdered,
    Implies state.runtime.orders ∅ (state.dst.waitsFor streamOrdered .write) {forward.copy}

namespace Target

variable {dst : ArrayStore ε} {state state' : ReshardState ε}

/-- More orders, and copies out of the source, change nothing. -/
theorem mono (h : Target dst state) (hdst : state'.dst = state.dst)
    (hreceives : state'.receives = state.receives) (hforwards : state'.forwards = state.forwards)
    (horders : state.runtime.orders ⊆ state'.runtime.orders) : Target dst state' := by
  constructor
  · rw [hreceives]
    exact fun copy hcopy ↦ (h.receive_waits copy hcopy).mono horders (Finset.Subset.refl _)
  · rw [hreceives, hdst]
    exact fun copy hcopy streamOrdered ↦
      (h.receive_written copy hcopy streamOrdered).mono horders (Finset.Subset.refl _)
  · rw [hdst]
    exact h.writers
  · rw [hdst]
    exact fun streamOrdered event hevent hwaits ↦
      (h.covered streamOrdered event hevent hwaits).mono horders (Finset.Subset.refl _)
  · rw [hforwards, hreceives]
    exact fun forward hforward copy hcopy ↦
      (h.forward_waits forward hforward copy hcopy).mono horders (Finset.Subset.refl _)
  · rw [hforwards, hdst]
    exact fun forward hforward streamOrdered ↦
      (h.forward_read forward hforward streamOrdered).mono horders (Finset.Subset.refl _)

theorem of_nil (state : ReshardState ε) (hreceives : state.receives = [])
    (hforwards : state.forwards = []) : Target state.dst state := by
  constructor
  · simp [hreceives]
  · simp [hreceives]
  · exact Finset.Subset.refl _
  · exact fun _ _ _ hwaits ↦ .of_subset hwaits
  · simp [hforwards]
  · simp [hforwards]

/-- The destination is ready after the copies, which have waited for all that
the destination had to wait for; there has to be one. -/
theorem receive (state : ReshardState ε) (hreceives : state.receives = [])
    (hforwards : state.forwards = []) (answers : ManagerAnswers ε) {calls : List ReshardCall}
    (hcalls : calls ≠ []) :
    Target state.dst (state.receive answers calls) := by
  have hissued := state.runtime.issued_issueAll answers state.dst.precondition calls
  have hlist : (state.receive answers calls).receives =
      (state.runtime.issueAll answers state.dst.precondition calls).1 := by
    rw [ReshardState.receive, hreceives]
    rfl
  have hready (streamOrdered : Bool) (access : Access) :
      postcondition (state.runtime.issueAll answers state.dst.precondition calls).1 ⊆
        (state.receive answers calls).dst.waitsFor streamOrdered access :=
    subset_waitsFor_readyAfter streamOrdered state.dst _ access
  have hwaits : ∀ copy ∈ (state.receive answers calls).receives,
      Implies (state.receive answers calls).runtime.orders ∅ {copy.copy}
        state.dst.precondition := by
    rw [hlist]
    exact hissued.waits
  have hwritten : ∀ copy ∈ (state.receive answers calls).receives, ∀ streamOrdered access,
      Implies (state.receive answers calls).runtime.orders ∅
        ((state.receive answers calls).dst.waitsFor streamOrdered access) {copy.copy} := by
    rw [hlist]
    intro copy hcopy streamOrdered access
    exact (Implies.of_subset (hready streamOrdered access)).trans
      (hissued.postcondition_implies hcopy)
  have hnone : (state.receive answers calls).forwards = [] := hforwards
  constructor
  · exact hwaits
  · exact fun copy hcopy streamOrdered ↦ hwritten copy hcopy streamOrdered .read
  · have hrw := state.dst.effectsOf_childRwEvent_readyAfter
      (postcondition (state.runtime.issueAll answers state.dst.precondition calls).1)
      (postcondition (state.runtime.issueAll answers state.dst.precondition calls).1)
    rw [ReshardState.receive, hrw]
    exact Finset.subset_union_right
  · intro streamOrdered event hevent _
    obtain ⟨copy, hcopy⟩ : ∃ copy, copy ∈ (state.receive answers calls).receives := by
      apply List.exists_mem_of_ne_nil
      intro hnil
      apply hcalls
      rw [← state.runtime.map_call_issueAll answers state.dst.precondition calls, ← hlist, hnil]
      rfl
    have hcopied := (hwritten copy hcopy streamOrdered .write).trans (hwaits copy hcopy)
    exact hcopied.trans (.of_subset hevent)
  · simp [hnone]
  · simp [hnone]

omit [DecidableEq ε] in
theorem foldl_doneAfter (issued : List (IssuedCall ε)) (view : ArrayView ε) :
    issued.foldl (fun view copy ↦ view.doneAfter copy.postcondition) view =
      { view with views := view.views ++ issued.map IssuedCall.postcondition } := by
  induction issued generalizing view with
  | nil => simp
  | cons copy issued ih =>
      rw [List.foldl_cons, ih]
      simp [View.doneAfter]

/-- The leaves of a tree are sent to under a new reader event, which triggers
after all copies to them. -/
theorem exists_forward (state : ReshardState ε) (hforwards : state.forwards = [])
    (answers : ManagerAnswers ε) {calls : List ReshardCall} (hcalls : calls ≠ []) :
    ∃ reader rt issued, Issued (effectsOf state.dst.childRwEvent) state.runtime rt issued ∧
      state.forward answers calls =
        { state with
          dst := state.dst.addReader {reader} {reader}
          runtime := { rt with orders := rt.orders ++ [({reader}, postcondition issued)] }
          forwards := issued } := by
  have hissued := state.runtime.createUserEvent.2.issued_issueAll answers
    (effectsOf state.dst.childRwEvent) calls
  refine ⟨state.runtime.createUserEvent.1, _, _,
    ⟨hissued.orders_subset, hissued.waits, hissued.returns⟩, ?_⟩
  rw [ReshardState.forward, if_neg hcalls]
  simp only [Store.view, foldl_doneAfter, hforwards]
  rfl

/-- The leaves read the destination after the copies into it, under a reader
event that the next writer waits for. -/
theorem forward (h : Target dst state) (hforwards : state.forwards = [])
    (answers : ManagerAnswers ε) (calls : List ReshardCall) :
    Target dst (state.forward answers calls) := by
  by_cases hcalls : calls = []
  · rwa [ReshardState.forward, if_pos hcalls]
  · obtain ⟨reader, rt, issued, hissued, hforward⟩ := exists_forward state hforwards answers hcalls
    rw [hforward]
    have hfinal : Issued (effectsOf state.dst.childRwEvent) state.runtime
        { rt with orders := rt.orders ++ [({reader}, postcondition issued)] } issued :=
      hissued.mono (List.subset_append_left _ _)
    have hread (streamOrdered : Bool) :
        Implies (rt.orders ++ [({reader}, postcondition issued)]) ∅
          ((state.dst.addReader {reader} {reader}).waitsFor streamOrdered .write)
          (postcondition issued) := by
      rw [waitsFor_addReader_write]
      apply (Implies.of_subset Finset.subset_union_right).trans
      exact Implies.of_mem (List.mem_append_right _ List.mem_cons_self)
    constructor
    · intro copy hcopy
      exact (h.receive_waits copy hcopy).mono hfinal.orders_subset (Finset.Subset.refl _)
    · intro copy hcopy streamOrdered
      exact (h.receive_written copy hcopy streamOrdered).mono hfinal.orders_subset
        (Finset.Subset.refl _)
    · exact h.writers
    · intro streamOrdered event hevent hwaits
      rw [waitsFor_addReader_write]
      apply (Implies.of_subset Finset.subset_union_left).trans
      exact (h.covered streamOrdered event hevent hwaits).mono hfinal.orders_subset
        (Finset.Subset.refl _)
    · intro forward hmem copy hcopy
      have hwritten := (h.receive_written copy hcopy false).mono hfinal.orders_subset
        (Finset.Subset.refl _)
      rw [waitsFor_false_read] at hwritten
      exact (hfinal.waits forward hmem).trans hwritten
    · intro forward hmem streamOrdered
      exact (hread streamOrdered).trans (hfinal.postcondition_implies hmem)

end Target

/-! ## The source -/

/-- The copies out of the source come after its writers, and the view is held
until they are done. -/
structure Pending (precondition : Event (ArraySignal ε)) (view : ArrayView ε)
    (state : ReshardState ε) : Prop where
  waits : ∀ copy ∈ state.sends, Implies state.runtime.orders ∅ {copy.copy} precondition
  held : ∀ copy ∈ state.sends,
    Implies state.runtime.orders ∅ (mergeAll view.views) {copy.copy}

/-- What a pattern has done with the reader event of its view and with the
destination. -/
structure Resharded (orders : List (Event (ArraySignal ε) × Event (ArraySignal ε)))
    (view : ArrayView ε) (dst : ArrayStore ε) (state : ReshardState ε) : Prop where
  orders_subset : orders ⊆ state.runtime.orders
  send_waits : ∀ copy ∈ state.sends,
    Implies state.runtime.orders ∅ {copy.copy} view.effectsPrecondition
  send_read : ∀ reader ∈ view.warDependency, ∀ copy ∈ state.sends,
    Implies state.runtime.orders ∅ {reader} {copy.copy}
  target : Target dst state

/-- Moving a view keeps its precondition and its reader event. -/
theorem Resharded.of_moved {orders : List (Event (ArraySignal ε) × Event (ArraySignal ε))}
    {view : ArrayView ε} {dst : ArrayStore ε} {state : ReshardState ε}
    (h : Resharded orders view.moved dst state) : Resharded orders view dst state :=
  ⟨h.orders_subset, h.send_waits, h.send_read, h.target⟩

namespace ReshardState

variable (state : ReshardState ε) (answers : ManagerAnswers ε) (view : ArrayView ε)
  (calls : List ReshardCall)

theorem orders_subset_send :
    state.runtime.orders ⊆ (state.send answers view calls).2.runtime.orders :=
  (state.runtime.issued_issueAll answers view.effectsPrecondition calls).orders_subset

theorem orders_subset_receive :
    state.runtime.orders ⊆ (state.receive answers calls).runtime.orders :=
  (state.runtime.issued_issueAll answers state.dst.precondition calls).orders_subset

theorem orders_subset_forward (hforwards : state.forwards = []) :
    state.runtime.orders ⊆ (state.forward answers calls).runtime.orders := by
  by_cases hcalls : calls = []
  · rw [forward, if_pos hcalls]
    exact List.Subset.refl _
  · obtain ⟨reader, rt, issued, hissued, hforward⟩ :=
      Target.exists_forward state hforwards answers hcalls
    rw [hforward]
    exact List.Subset.trans hissued.orders_subset (List.subset_append_left _ _)

theorem sends_forward : (state.forward answers calls).sends = state.sends := by
  rw [forward]
  split <;> rfl

theorem orders_subset_destroyView :
    state.runtime.orders ⊆ (state.destroyView view).runtime.orders :=
  List.subset_append_left _ _

end ReshardState

namespace Pending

variable {precondition : Event (ArraySignal ε)} {view view' : ArrayView ε}
  {state state' : ReshardState ε}

theorem of_nil (precondition : Event (ArraySignal ε)) (view : ArrayView ε)
    {state : ReshardState ε} (hsends : state.sends = []) : Pending precondition view state :=
  ⟨by simp [hsends], by simp [hsends]⟩

theorem mono (h : Pending precondition view state) (hsends : state'.sends = state.sends)
    (horders : state.runtime.orders ⊆ state'.runtime.orders) :
    Pending precondition view state' := by
  constructor
  · rw [hsends]
    exact fun copy hcopy ↦ (h.waits copy hcopy).mono horders (Finset.Subset.refl _)
  · rw [hsends]
    exact fun copy hcopy ↦ (h.held copy hcopy).mono horders (Finset.Subset.refl _)

theorem send (state : ReshardState ε) (hsends : state.sends = []) (answers : ManagerAnswers ε)
    (view : ArrayView ε) (calls : List ReshardCall) :
    Pending view.effectsPrecondition (state.send answers view calls).1
      (state.send answers view calls).2 := by
  have hissued := state.runtime.issued_issueAll answers view.effectsPrecondition calls
  have hlist : (state.send answers view calls).2.sends =
      (state.runtime.issueAll answers view.effectsPrecondition calls).1 := by
    rw [ReshardState.send, hsends]
    rfl
  constructor
  · rw [hlist]
    exact hissued.waits
  · rw [hlist]
    intro copy hcopy
    have hlast : postcondition (state.runtime.issueAll answers view.effectsPrecondition calls).1 ∈
        (state.send answers view calls).1.views :=
      List.mem_append_right _ (List.mem_singleton_self _)
    exact (Implies.of_subset (subset_mergeAll hlast)).trans (hissued.postcondition_implies hcopy)

/-- The reader event of a view triggers after everything that held the view. -/
theorem read (h : Pending precondition view state) {reader : ArraySignal ε}
    (hreader : reader ∈ view.warDependency) {copy : IssuedCall ε}
    (hcopy : copy ∈ (state.destroyView view).sends) :
    Implies (state.destroyView view).runtime.orders ∅ {reader} {copy.copy} := by
  have hheld := (h.held copy hcopy).mono (state.orders_subset_destroyView view)
    (Finset.Subset.refl _)
  have horder : ({reader}, mergeAll view.views) ∈ (state.destroyView view).runtime.orders := by
    apply List.mem_append_right
    simp [View.destroy, Option.mem_def.mp hreader]
  exact (Implies.of_mem horder).trans hheld

/-- A pattern ends with the destruction of its view. -/
theorem resharded {orders : List (Event (ArraySignal ε) × Event (ArraySignal ε))}
    {dst : ArrayStore ε} (h : Pending view.effectsPrecondition view' state)
    (hwar : view'.warDependency = view.warDependency) (htarget : Target dst state)
    (horders : orders ⊆ state.runtime.orders) :
    Resharded orders view dst (state.destroyView view') where
  orders_subset := List.Subset.trans horders (state.orders_subset_destroyView view')
  send_waits copy hcopy :=
    (h.waits copy hcopy).mono (state.orders_subset_destroyView view') (Finset.Subset.refl _)
  send_read _ hreader _ hcopy := h.read (hwar ▸ hreader) hcopy
  target := htarget.mono rfl rfl rfl (state.orders_subset_destroyView view')

end Pending

/-! ## The patterns -/

section Patterns

variable {orders : List (Event (ArraySignal ε) × Event (ArraySignal ε))} {p : Processor}
  {src dst : Sharding} {answers : ManagerAnswers ε} {view : ArrayView ε} {store : ArrayStore ε}
  {rt : ReshardRuntime ε} {state : ReshardState ε}

/-- The destination part of the patterns without a tree. -/
theorem exists_received (state : ReshardState ε) (answers : ManagerAnswers ε)
    {calls : List ReshardCall}
    (hreceives : state.receives = []) (hforwards : state.forwards = [])
    (hcalls : hasTile p dst = true → calls ≠ []) :
    ∃ state₁, (if hasTile p dst then state.receive answers calls else state) = state₁ ∧
      Target state.dst state₁ ∧ state₁.sends = state.sends ∧
      state.runtime.orders ⊆ state₁.runtime.orders := by
  refine ⟨_, rfl, ?_⟩
  split
  · rename_i hdst
    exact ⟨Target.receive state hreceives hforwards answers (hcalls hdst), rfl,
      state.orders_subset_receive answers calls⟩
  · exact ⟨Target.of_nil state hreceives hforwards, rfl, List.Subset.refl _⟩

/-- The source part of the patterns that begin with the destination. -/
theorem resharded_of_target (answers : ManagerAnswers ε) (htarget : Target store state)
    (hsends : state.sends = []) (horders : orders ⊆ state.runtime.orders)
    (calls : List ReshardCall) :
    Resharded orders view store
      ((state.send answers view.moved calls).2.destroyView
        (state.send answers view.moved calls).1) := by
  have hsub := state.orders_subset_send answers view.moved calls
  have hpending : Pending view.effectsPrecondition (state.send answers view.moved calls).1
      (state.send answers view.moved calls).2 := Pending.send state hsends answers view.moved calls
  exact hpending.resharded rfl (htarget.mono rfl rfl rfl hsub) (List.Subset.trans horders hsub)

theorem resharded_of_skip (htarget : Target store state) (hsends : state.sends = [])
    (horders : orders ⊆ state.runtime.orders) :
    Resharded orders view store (state.destroyView view) :=
  (Pending.of_nil _ view hsends).resharded rfl htarget horders

/-- The destination part of the patterns that begin with the source. -/
theorem resharded_of_pending (state : ReshardState ε) (answers : ManagerAnswers ε)
    {view' : ArrayView ε} {calls : List ReshardCall}
    (hpending : Pending view.effectsPrecondition view' state)
    (hwar : view'.warDependency = view.warDependency) (hreceives : state.receives = [])
    (hforwards : state.forwards = []) (horders : orders ⊆ state.runtime.orders)
    (hcalls : hasTile p dst = true → calls ≠ []) :
    Resharded orders view state.dst
      ((if hasTile p dst then state.receive answers calls else state).destroyView view') := by
  obtain ⟨state₁, hstate₁, htarget, hsends, hsub⟩ :=
    exists_received state answers hreceives hforwards hcalls
  rw [hstate₁]
  exact (hpending.mono hsends hsub).resharded hwar htarget (List.Subset.trans horders hsub)

theorem resharded_sendAndReceive {calls : ReshardCalls}
    (hcalls : hasTile p dst = true → calls.receives ≠ []) :
    Resharded rt.orders view store
      (ReshardEvents.sendAndReceive p answers src dst calls view.moved
        ⟨store, rt, [], [], []⟩) := by
  let start : ReshardState ε := ⟨store, rt, [], [], []⟩
  have hsend : Pending view.effectsPrecondition (start.send answers view.moved calls.sends).1
      (start.send answers view.moved calls.sends).2 :=
    Pending.send start rfl answers view.moved calls.sends
  rw [ReshardEvents.sendAndReceive]
  by_cases hsrc : hasTile p src = true
  · simp only [if_pos hsrc]
    exact resharded_of_pending _ answers hsend rfl rfl rfl
      (start.orders_subset_send answers view.moved calls.sends) hcalls
  · simp only [if_neg hsrc]
    exact resharded_of_pending start answers (Pending.of_nil _ view.moved rfl) rfl rfl rfl
      (List.Subset.refl _) hcalls

/-- The view of the source is held by the view that the slices are sent from. -/
theorem pending_scatterGather (state : ReshardState ε) (hsends : state.sends = [])
    (answers : ManagerAnswers ε) (calls : List ReshardCall) (view : ArrayView ε) :
    Pending view.effectsPrecondition
        (ReshardEvents.reshardScatterGatherFromLocalSource answers calls view state).1
        (ReshardEvents.reshardScatterGatherFromLocalSource answers calls view state).2 := by
  let created : ReshardState ε := { state with runtime := state.runtime.createUserEvent.2 }
  let subview := (view.subview state.runtime.createUserEvent.1).1
  have hsub : Pending view.effectsPrecondition (created.send answers subview calls).1
      (created.send answers subview calls).2 := Pending.send created hsends answers subview calls
  have hreader : state.runtime.createUserEvent.1 ∈
      (created.send answers subview calls).1.warDependency := rfl
  constructor
  · exact fun copy hcopy ↦ (hsub.waits copy hcopy).mono
      (ReshardState.orders_subset_destroyView _ _) (Finset.Subset.refl _)
  · intro copy hcopy
    have hheld : {state.runtime.createUserEvent.1} ∈
        (view.subview state.runtime.createUserEvent.1).2.views :=
      List.mem_append_right _ (List.mem_singleton_self _)
    exact (Implies.of_subset (subset_mergeAll hheld)).trans (hsub.read hreader hcopy)

theorem orders_subset_scatterGather (state : ReshardState ε) (answers : ManagerAnswers ε)
    (calls : List ReshardCall) (view : ArrayView ε) :
    state.runtime.orders ⊆
      (ReshardEvents.reshardScatterGatherFromLocalSource answers calls view
        state).2.runtime.orders := by
  let created : ReshardState ε := { state with runtime := state.runtime.createUserEvent.2 }
  let subview := (view.subview state.runtime.createUserEvent.1).1
  have hsend : state.runtime.orders ⊆ (created.send answers subview calls).2.runtime.orders :=
    created.orders_subset_send answers subview calls
  exact List.Subset.trans hsend (ReshardState.orders_subset_destroyView _ _)

theorem resharded_scatterGather {config : ScatterGatherConfig}
    (hcalls : hasTile p dst = true →
      (Zuku.reshardScatterGather p config src dst).receives ≠ []) :
    Resharded rt.orders view store
      (ReshardEvents.reshardScatterGather p answers src dst config view.moved
        ⟨store, rt, [], [], []⟩) := by
  let start : ReshardState ε := ⟨store, rt, [], [], []⟩
  rw [ReshardEvents.reshardScatterGather]
  by_cases hsrc : hasTile p src = true
  · simp only [if_pos hsrc]
    let calls := (Zuku.reshardScatterGather p config src dst).sends
    have hpending := pending_scatterGather start rfl answers calls view.moved
    have horders := orders_subset_scatterGather start answers calls view.moved
    exact (resharded_of_pending _ answers hpending rfl rfl rfl horders hcalls).of_moved
  · simp only [if_neg hsrc]
    exact resharded_of_pending start answers (Pending.of_nil _ view.moved rfl) rfl rfl rfl
      (List.Subset.refl _) hcalls

variable [RealmBuild]

theorem resharded_pointToPoint
    (h : ReshardEvents.reshardPointToPoint p answers src dst view ⟨store, rt, [], [], []⟩ =
      .ok state) : Resharded rt.orders view store state := by
  obtain ⟨calls, hcalls, h⟩ := bind_eq_ok_iff.mp h
  obtain ⟨state₁, hstate₁, htarget, hsends, horders⟩ :=
    exists_received ⟨store, rt, [], [], []⟩ answers rfl rfl (receives_of_pointToPoint hcalls)
  simp only [hstate₁] at h
  split at h
  · obtain rfl := Except.ok.inj h
    exact resharded_of_target answers htarget hsends horders calls.sends
  · obtain rfl := Except.ok.inj h
    exact resharded_of_skip htarget hsends horders

theorem target_of_broadcast {config : BroadcastConfig}
    (hplan : determineShardingConfig p src dst = .ok (.broadcast config))
    (h : ReshardEvents.reshardBroadcastToLocalTarget p answers dst config
      ⟨store, rt, [], [], []⟩ = .ok state) :
    Target store state ∧ state.sends = [] ∧ rt.orders ⊆ state.runtime.orders := by
  obtain ⟨calls, hcalls, h⟩ := bind_eq_ok_iff.mp h
  obtain rfl := Except.ok.inj h
  let start : ReshardState ε := ⟨store, rt, [], [], []⟩
  have htarget : Target store (start.receive answers calls.receives) :=
    Target.receive start rfl rfl answers (receives_of_broadcast hplan hcalls)
  refine ⟨htarget.forward rfl answers calls.sends, ?_, ?_⟩
  · exact ReshardState.sends_forward _ answers calls.sends
  · exact List.Subset.trans (start.orders_subset_receive answers calls.receives)
      ((start.receive answers calls.receives).orders_subset_forward answers calls.sends rfl)

theorem resharded_broadcast {config : BroadcastConfig}
    (hplan : determineShardingConfig p src dst = .ok (.broadcast config))
    (h : ReshardEvents.reshardBroadcast p answers src dst config view ⟨store, rt, [], [], []⟩ =
      .ok state) : Resharded rt.orders view store state := by
  obtain ⟨state₁, hstate₁, h⟩ := bind_eq_ok_iff.mp h
  have hreceived : Target store state₁ ∧ state₁.sends = [] ∧
      rt.orders ⊆ state₁.runtime.orders := by
    split at hstate₁
    · exact target_of_broadcast hplan hstate₁
    · obtain rfl := Except.ok.inj hstate₁
      exact ⟨Target.of_nil ⟨store, rt, [], [], []⟩ rfl rfl, rfl, List.Subset.refl _⟩
  obtain ⟨htarget, hsends, horders⟩ := hreceived
  split at h
  · obtain ⟨sends, -, h⟩ := bind_eq_ok_iff.mp h
    obtain rfl := Except.ok.inj h
    exact resharded_of_target answers htarget hsends horders sends
  · obtain rfl := Except.ok.inj h
    exact resharded_of_skip htarget hsends horders

omit [RealmBuild] in
theorem resharded_gatherShards {config : GatherShardsConfig} (hsrc : 0 < src.devices.size)
    (h : ReshardEvents.reshardGatherShards p answers src dst config view.moved
      ⟨store, rt, [], [], []⟩ = .ok state) : Resharded rt.orders view store state := by
  obtain ⟨calls, hcalls, h⟩ := bind_eq_ok_iff.mp h
  obtain rfl := Except.ok.inj h
  exact resharded_sendAndReceive fun hdst ↦ receives_of_gatherShards hcalls hdst hsrc

theorem resharded_scatterShards
    (h : ReshardEvents.reshardScatterShards p answers src dst view.moved
      ⟨store, rt, [], [], []⟩ = .ok state) : Resharded rt.orders view store state := by
  obtain ⟨calls, hcalls, h⟩ := bind_eq_ok_iff.mp h
  obtain rfl := Except.ok.inj h
  exact resharded_sendAndReceive (receives_of_scatterShards hcalls)

/-- Whatever the plan, the reader event of the view and the destination keep
track of all copies. -/
theorem resharded_of_eq_ok
    (h : ReshardEvents.reshard p answers view ⟨store, rt, [], [], []⟩ = .ok state) :
    Resharded rt.orders view store state := by
  obtain ⟨srcArray, -, h⟩ := bind_eq_ok_iff.mp h
  obtain ⟨dstArray, -, h⟩ := bind_eq_ok_iff.mp h
  obtain ⟨plan, hplan, h⟩ := bind_eq_ok_iff.mp h
  cases plan with
  | unsupported => cases h
  | pointToPoint => exact (resharded_pointToPoint h).of_moved
  | scatterGather config =>
      obtain rfl := Except.ok.inj h
      exact resharded_scatterGather (receives_of_scatterGather hplan)
  | broadcast config => exact (resharded_broadcast hplan h).of_moved
  | gatherShards config => exact resharded_gatherShards srcArray.devices_pos h
  | scatterShards config => exact resharded_scatterShards h
  | noOp =>
      obtain rfl := Except.ok.inj h
      exact resharded_of_skip (Target.of_nil ⟨store, rt, [], [], []⟩ rfl rfl) rfl
        (List.Subset.refl _)

end Patterns

end Zuku
