import Zuku.DeliveredSlices

/-!
# A reshard moves the array

All patterns of resharding together: whatever the planner chooses, when all
processors get through their reshard and every send has its receive, the copies
leave the global array in every tile of the destination.
-/

namespace Zuku

open Checked

variable [RealmBuild] {src dst : Sharding} {machine : Machine} {calls : List ReshardCalls}

/-- Some processor of the machine gets through its reshard. -/
theorem exists_reshard_of_run (hpos : 0 < dst.devices.size) (hdst : machine.Hosts dst.devices)
    (hrun : machine.reshard src dst = .ok calls) : ∃ p plan c,
      determineShardingConfig p src dst = .ok plan ∧ reshardCalls p src dst plan = .ok c := by
  have hid : dst.devices.start ∈ List.range machine.numProcessors :=
    List.mem_range.mpr (by unfold Machine.Hosts at hdst; omega)
  obtain ⟨c, -, hc⟩ := exists_of_mapM_eq_ok hrun hid
  obtain ⟨plan, hplan, hc⟩ := bind_eq_ok_iff.mp hc
  exact ⟨_, plan, c, hplan, hc⟩

/-- The plan of one processor that is not `unsupported` shows that no plan is. -/
theorem exists_gather_of_partial (h : SameArray src dst)
    (hplan : ∀ p, determineShardingConfig p src dst = determinePartialToReplicatedConfig p src dst)
    (hrun : ∃ p plan c, determineShardingConfig p src dst = .ok plan ∧
      reshardCalls p src dst plan = .ok c) (p : Processor) :
    ∃ config, determineShardingConfig p src dst = .ok (.gatherShards config) := by
  obtain ⟨p₀, plan, c, hp, hc⟩ := hrun
  rw [hplan] at hp
  obtain ⟨d, hd, hp⟩ := bind_eq_ok_iff.mp hp
  obtain ⟨choice, hdim, hp⟩ := bind_eq_ok_iff.mp hp
  cases choice with
  | none =>
      obtain rfl := Except.ok.inj hp
      cases hc
  | some dim =>
      have hslice := sliceable_of_choice h.src_tileable h.src_one (vectorAt_eq_ok_iff.mp hd) hdim
      have hconfig := gatherBounds_eq dst (fun s ↦ slicedTile_eq hslice rfl h.supported) p
      have hall : determineShardingConfig p src dst =
          gatherBounds p src dst (slicedTile src d.sharding dim) >>=
            fun config ↦ pure (.gatherShards config) := by
        simp only [hplan, determinePartialToReplicatedConfig, hd, ok_bind, hdim]
        rfl
      rw [hall, hconfig]
      exact ⟨_, rfl⟩

/-- One side of the two is the finer one. -/
theorem finerThan_or (h : SameArray src dst) {dim : ℕ} {x y : ShardingDim}
    (hrecut : Recut src dst dim x y) (hreal : RecutReal src dst dim x y)
    (hsrcLast : src.ReplicationLast) (hdstLast : dst.ReplicationLast)
    (hnot : ¬(src.isReplicated = true ∧ dst.isReplicated = true)) :
    FinerThan src dst dim x y ∨ FinerThan dst src dim y x := by
  have hx := h.src_tileable.sharding_pos x (List.mem_of_getElem? hrecut.src_dim)
  have hy := h.dst_tileable.sharding_pos y (List.mem_of_getElem? hrecut.symm.src_dim)
  have hsame := h.isReplication_eq hrecut.src_dim hrecut.dst_dims
  have hreal' : RecutReal dst src dim y x :=
    recutReal_of_set hrecut.symm.src_dim hrecut.symm.dst_dims hdstLast hsame.symm
  rcases Nat.lt_or_gt_of_ne hrecut.ne with hlt | hlt
  · refine Or.inr ⟨h.symm, hrecut.symm, hreal', hdstLast, hsrcLast, hlt, ?_⟩
    exact one_lt_totalSharding h.dst_tileable h.src_tileable hreal' hx hlt
      fun ⟨hdst, hsrc⟩ ↦ hnot ⟨hsrc, hdst⟩
  · refine Or.inl ⟨h, hrecut, hreal, hsrcLast, hdstLast, hlt, ?_⟩
    exact one_lt_totalSharding h.src_tileable h.dst_tileable hreal hy hlt hnot

theorem delivers_scatterGather (h : SameArray src dst) (hsrc : machine.Hosts src.devices)
    (hdst : machine.Hosts dst.devices) (hrun : machine.reshard src dst = .ok calls)
    (hmatched : (calls.flatMap ReshardCalls.sends).Perm (calls.flatMap ReshardCalls.receives))
    (hlength : src.dims.length = dst.dims.length)
    (hnot : ¬(src.isReplicated = true ∧ dst.isReplicated = true))
    (hlast : ∀ p config, determineShardingConfig p src dst = .ok (.scatterGather config) →
      src.ReplicationLast ∧ dst.ReplicationLast)
    (hplan : ∀ p, determineShardingConfig p src dst = determineScatterGatherConfig p src dst) :
    Delivers src dst (calls.flatMap ReshardCalls.receives) := by
  have hpos := devices_pos h.dst_tileable.sharding_pos h.dst_tileable.devices_eq
  obtain ⟨p₀, plan, c, hp₀, hc⟩ := exists_reshard_of_run hpos hdst hrun
  obtain ⟨⟨count, last⟩, hcount⟩ : ∃ found,
      differingDims (src.dims.zip dst.dims) 0 (0, none) = found := ⟨_, rfl⟩
  have hp := hp₀
  rw [hplan, determineScatterGatherConfig, hcount] at hp
  simp only at hp
  split at hp
  case isFalse =>
    obtain rfl := Except.ok.inj hp
    cases hc
  rename_i hone
  subst hone
  obtain ⟨_, -, hp⟩ := bind_eq_ok_iff.mp hp
  obtain ⟨config, -, hp⟩ := bind_eq_ok_iff.mp hp
  obtain rfl := Except.ok.inj hp
  obtain ⟨hsrcLast, hdstLast⟩ := hlast p₀ config hp₀
  obtain ⟨dim, x, y, rfl, hrecut, hreal⟩ := h.exists_recut hlength hsrcLast hcount
  have hslices (p : Processor) : determineShardingConfig p src dst = (do
      let config ← getScatterGatherConfig dim (src.devices.shardId p.globalId)
        (dst.devices.shardId p.globalId) src dst
      pure (.scatterGather config)) := by
    simp only [hplan, determineScatterGatherConfig, hcount, if_true, optionalValue_some, ok_bind]
  rcases finerThan_or h hrecut hreal hsrcLast hdstLast hnot with hfiner | hfiner
  · exact hfiner.delivers_contract hsrc hdst hrun hmatched hslices
  · exact hfiner.delivers_expand hsrc hdst hrun hmatched hslices

/-- Between replicated arrays the planner copies shard by shard or broadcasts. -/
theorem delivers_replicated (h : SameArray src dst) (hsrcReplicated : src.isReplicated = true)
    (hdstReplicated : dst.isReplicated = true) (hdst : machine.Hosts dst.devices)
    (hrun : machine.reshard src dst = .ok calls)
    (hplan : ∀ p, determineShardingConfig p src dst =
      determineShardingConfigFullyReplicated p src dst) :
    Delivers src dst (calls.flatMap ReshardCalls.receives) := by
  unfold determineShardingConfigFullyReplicated at hplan
  by_cases hle : dst.devices.size ≤ src.devices.size
  · apply h.delivers_pointToPoint hdst hrun
    · intro p
      have hp := hplan p
      rw [if_pos hle] at hp
      simp only at hp
      split at hp
      · rename_i hskip
        rw [Bool.and_eq_true, Bool.not_eq_true'] at hskip
        have hnone : dst.devices.shardId p.globalId = none := by
          rw [← Option.not_isSome_iff_eq_none, DeviceList.isSome_shardId, hskip.1]
          exact Bool.false_ne_true
        exact Or.inr ⟨hp, hnone⟩
      · exact Or.inl hp
    · intro t ht
      have hlt : t < src.devices.size := ht.trans_le hle
      exact ⟨hlt, fun point ↦ h.src_contains_of_dst hsrcReplicated hlt ht⟩
  · simp only [if_neg hle] at hplan
    exact h.delivers_broadcast hsrcReplicated hdstReplicated hdst hrun hplan

/-- The cases are the branches of `DetermineShardingConfig`. -/
theorem reshard_delivers (h : SameArray src dst) (hsrc : machine.Hosts src.devices)
    (hdst : machine.Hosts dst.devices)
    (hlast : ∀ p config, determineShardingConfig p src dst = .ok (.scatterGather config) →
      src.ReplicationLast ∧ dst.ReplicationLast)
    (hrun : machine.reshard src dst = .ok calls)
    (hmatched : (calls.flatMap ReshardCalls.sends).Perm (calls.flatMap ReshardCalls.receives)) :
    Delivers src dst (calls.flatMap ReshardCalls.receives) := by
  have hpos := devices_pos h.dst_tileable.sharding_pos h.dst_tileable.devices_eq
  have hsome := exists_reshard_of_run hpos hdst hrun
  by_cases hgather : (src.fullySharded && dst.isReplicated) = true
  · have hreplicated := ((Bool.and_eq_true _ _).mp hgather).2
    apply h.delivers_gatherShards hreplicated hdst hrun
    intro p
    rw [determineShardingConfig, if_pos hgather, getGatherShardsConfig,
      gatherBounds_eq dst fun s hs ↦ h.computeSrc hs]
    exact ⟨_, rfl⟩
  by_cases hscatter : (dst.fullySharded && src.isReplicated) = true
  · have hreplicated := ((Bool.and_eq_true _ _).mp hscatter).2
    apply h.delivers_scatterShards hreplicated hdst hrun hmatched
    intro p
    rw [determineShardingConfig, if_neg hgather, if_pos hscatter]
    exact ⟨_, rfl⟩
  by_cases hboth : (src.isReplicated && dst.isReplicated) = true
  · obtain ⟨hsrcReplicated, hdstReplicated⟩ := (Bool.and_eq_true _ _).mp hboth
    apply delivers_replicated h hsrcReplicated hdstReplicated hdst hrun
    intro p
    rw [determineShardingConfig, if_neg hgather, if_neg hscatter, if_pos hboth]
  by_cases hpartial : (src.isPartiallyReplicated && dst.isReplicated) = true
  · have hreplicated := ((Bool.and_eq_true _ _).mp hpartial).2
    apply h.delivers_gatherShards hreplicated hdst hrun
    refine exists_gather_of_partial h (fun p ↦ ?_) hsome
    rw [determineShardingConfig, if_neg hgather, if_neg hscatter, if_neg hboth, if_pos hpartial]
  have hrest (p : Processor) : determineShardingConfig p src dst =
      if src.dims.length ≠ dst.dims.length then
        determineShardingConfigReplicationChange p src dst
      else if src.devices.size = dst.devices.size ∧ src.dims = dst.dims then pure .pointToPoint
      else determineScatterGatherConfig p src dst := by
    rw [determineShardingConfig, if_neg hgather, if_neg hscatter, if_neg hboth, if_neg hpartial]
  by_cases hlength : src.dims.length = dst.dims.length
  · simp only [ne_eq, not_true_eq_false, hlength, if_false] at hrest
    by_cases hsame : src.devices.size = dst.devices.size ∧ src.dims = dst.dims
    · simp only [if_pos hsame] at hrest
      refine h.delivers_pointToPoint hdst hrun (fun p ↦ Or.inl (hrest p)) fun t ht ↦ ?_
      rw [hsame.1, tileBounds_congr hsame.2]
      exact ⟨ht, fun _ hpoint ↦ hpoint⟩
    · simp only [if_neg hsame] at hrest
      apply delivers_scatterGather h hsrc hdst hrun hmatched hlength _ hlast hrest
      rwa [← Bool.and_eq_true]
  · -- a change of the replication dimension is not supported
    obtain ⟨p, plan, c, hp, hc⟩ := hsome
    rw [hrest, if_pos hlength] at hp
    obtain rfl := Except.ok.inj hp
    cases hc

/-- Whatever pattern is chosen, once all sends and receives have found each
other the destination holds what the source held. -/
theorem reshard_movesArray (machine : Machine) (src dst : Sharding) (h : SameArray src dst)
    (hsrc : machine.Hosts src.devices) (hdst : machine.Hosts dst.devices)
    (hlast : ∀ p config, determineShardingConfig p src dst = .ok (.scatterGather config) →
      src.ReplicationLast ∧ dst.ReplicationLast) (calls : List ReshardCalls)
    (hrun : machine.reshard src dst = .ok calls)
    (hmatched : (calls.flatMap ReshardCalls.sends).Perm (calls.flatMap ReshardCalls.receives)) :
    MovesArray src dst (calls.flatMap ReshardCalls.receives) :=
  (reshard_delivers h hsrc hdst hlast hrun hmatched).movesArray

omit [RealmBuild] in
/-- Two halves of an array with two copies are cut into quarters on other devices. -/
theorem reshard_movesArray_quarters :
    ∃ calls, @Machine.reshard .rankFour ⟨10, fun id ↦ ⟨.gpu, id, id⟩, fun _ ↦ rfl⟩
      ⟨[⟨8, 2, 0⟩, ⟨1, 2, 1⟩], ⟨0, 4⟩⟩ ⟨[⟨8, 4, 0⟩, ⟨1, 2, 1⟩], ⟨2, 8⟩⟩ = .ok calls ∧
      MovesArray ⟨[⟨8, 2, 0⟩, ⟨1, 2, 1⟩], ⟨0, 4⟩⟩ ⟨[⟨8, 4, 0⟩, ⟨1, 2, 1⟩], ⟨2, 8⟩⟩
        (calls.flatMap ReshardCalls.receives) := by
  let _ : RealmBuild := .rankFour
  refine ⟨_, rfl, reshard_movesArray ⟨10, fun id ↦ ⟨.gpu, id, id⟩, fun _ ↦ rfl⟩
    ⟨[⟨8, 2, 0⟩, ⟨1, 2, 1⟩], ⟨0, 4⟩⟩ ⟨[⟨8, 4, 0⟩, ⟨1, 2, 1⟩], ⟨2, 8⟩⟩
    ⟨by decide, by decide, by decide, by decide, by decide, Or.inl (by decide)⟩
    (by unfold Machine.Hosts; decide) (by unfold Machine.Hosts; decide)
    (fun _ _ _ ↦ ⟨by decide, by decide⟩) _ rfl (by decide)⟩

end Zuku
