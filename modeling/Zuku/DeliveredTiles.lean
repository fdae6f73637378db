import Zuku.ReshardDelivery
import Zuku.ReplicatedPointToPoint

/-!
# Whole tiles that are delivered

Gathering, scattering and copying between replicated arrays deliver whole tiles
of one of the two arrays, or the pieces of the source shards.  What is received
by a destination shard is read off the run of its processor.
-/

namespace Zuku

open Checked MixedRadix

/-! ## Replicated arrays -/

section

variable {sharding : Sharding}

/-- Every shard of a replicated array has the whole array. -/
theorem tileBounds_contains_of_isReplicated (h : sharding.Tileable)
    (hreplicated : sharding.isReplicated = true) {s : ℕ} (hs : s < sharding.devices.size)
    {point : List ℤ} :
    (sharding.tileBounds s).Contains point ↔ sharding.arrayShape.Contains point := by
  refine ⟨arrayShape_contains_of_tile h hs, fun hpoint ↦ ?_⟩
  by_cases hreal : sharding.realDims = []
  · simpa [Sharding.tileBounds, Sharding.arrayShape, hreal] using hpoint
  have hone : sharding.totalSharding = 1 := of_decide_eq_true hreplicated
  have hcard := card_tiles_containing h hreal hpoint
  have hall : sharding.replication = (Finset.range sharding.devices.size).card := by
    rw [Finset.card_range, ← totalSharding_mul_replication h, hone, one_mul]
  have hfilter := Finset.eq_of_subset_of_card_le (Finset.filter_subset _ _)
    (hall.symm.trans_le hcard.ge)
  have hmem : s ∈ Finset.range sharding.devices.size := Finset.mem_range.mpr hs
  rw [← hfilter] at hmem
  exact (Finset.mem_filter.mp hmem).2

theorem tileBounds_congr {src dst : Sharding} (h : src.dims = dst.dims) (s : ℕ) :
    src.tileBounds s = dst.tileBounds s := by
  obtain ⟨dims, _⟩ := src
  obtain ⟨dims', _⟩ := dst
  change dims = dims' at h
  subst h
  rfl

end

/-- Two arrays of one shape that can be cut into tiles, of a rank with a
rectangle type in the build. -/
structure SameArray [RealmBuild] (src dst : Sharding) : Prop where
  src_tileable : src.Tileable
  dst_tileable : dst.Tileable
  src_one : src.AtMostOneReplication
  dst_one : dst.AtMostOneReplication
  sizes_eq : src.realDims.map ShardingDim.size = dst.realDims.map ShardingDim.size
  supported : SupportedRank src.realDims.length

namespace SameArray

variable [RealmBuild] {src dst : Sharding} (h : SameArray src dst)

include h

theorem arrayShape_eq : src.arrayShape = dst.arrayShape := arrayShape_congr h.sizes_eq

theorem length_realDims : dst.realDims.length = src.realDims.length := by
  simpa using (congrArg List.length h.sizes_eq).symm

theorem computeSrc {s : ℕ} (hs : s < src.devices.size) :
    computeTileBounds s src = .ok (src.tileBounds s) :=
  computeTileBounds_eq h.src_tileable h.src_one h.supported hs

theorem computeDst {t : ℕ} (ht : t < dst.devices.size) :
    computeTileBounds t dst = .ok (dst.tileBounds t) :=
  computeTileBounds_eq h.dst_tileable h.dst_one (h.length_realDims ▸ h.supported) ht

theorem src_contains_of_dst (hreplicated : src.isReplicated = true) {s t : ℕ}
    (hs : s < src.devices.size) (ht : t < dst.devices.size) {point : List ℤ}
    (hpoint : (dst.tileBounds t).Contains point) : (src.tileBounds s).Contains point := by
  rw [tileBounds_contains_of_isReplicated h.src_tileable hreplicated hs, h.arrayShape_eq]
  exact arrayShape_contains_of_tile h.dst_tileable ht hpoint

/-! ## Gathering -/

/-- The replicas get the pieces that the source shards are responsible for. -/
theorem delivers_gatherReceives (hreplicated : dst.isReplicated = true) {bounds : ℕ → RealmShape}
    (hbounds : Responsible src bounds) :
    Delivers src dst ((List.range dst.devices.size).flatMap
      (gatherReceives src.devices.size bounds)) := by
  have hmem {t : ℕ} {call : ReshardCall}
      (hcall : call ∈ gatherReceives src.devices.size bounds t) :
      ∃ s < src.devices.size, call = ⟨s, t, bounds s, false⟩ := by
    obtain ⟨s, hs, rfl⟩ := List.mem_map.mp hcall
    exact ⟨s, List.mem_range.mp hs, rfl⟩
  apply delivers_of_receives
  · intro t _ call hcall
    obtain ⟨s, -, rfl⟩ := hmem hcall
    rfl
  · intro t _ call hcall
    obtain ⟨s, hs, rfl⟩ := hmem hcall
    exact ⟨hs, ArraySide.noConfusion, hbounds.subset s hs⟩
  · intro t ht point
    rw [tileBounds_contains_of_isReplicated h.dst_tileable hreplicated ht]
    exact (replicaCorrect_gatherReceives h.src_tileable hbounds h.arrayShape_eq t).covers point
  · apply inTreeOrder_of_fromSource
    intro call hcall
    obtain ⟨t, -, hcall⟩ := List.mem_flatMap.mp hcall
    obtain ⟨s, -, rfl⟩ := hmem hcall
    rfl

variable {machine : Machine} {calls : List ReshardCalls}

theorem delivers_gatherShards (hreplicated : dst.isReplicated = true)
    (hdst : machine.Hosts dst.devices) (hrun : machine.reshard src dst = .ok calls)
    (hconfig : ∀ p, ∃ config, determineShardingConfig p src dst = .ok (.gatherShards config)) :
    Delivers src dst (calls.flatMap ReshardCalls.receives) := by
  obtain ⟨-, bounds, hbounds, hplan⟩ := exists_responsible h.src_tileable h.src_one hconfig
  rw [Machine.flatMap_of_run hrun hdst fun p c hc ↦ ?_]
  · exact h.delivers_gatherReceives hreplicated hbounds
  · rw [reshard_gatherShards (hplan p), reshardGatherShards_eq] at hc
    rw [← Except.ok.inj hc]

/-! ## One tile for every destination shard -/

theorem receives_pointToPoint {p : Processor} {c : ReshardCalls}
    (hc : reshardPointToPoint p src dst = .ok c) :
    c.receives = (dst.devices.shardId p.globalId).elim []
      fun t ↦ [⟨t, t, dst.tileBounds t, false⟩] := by
  rw [reshardPointToPoint_eq (fun s hs ↦ h.computeSrc hs) (fun t ht ↦ h.computeDst ht)] at hc
  rw [← Except.ok.inj hc]
  rfl

/-- Shard `t` of an array with the same tiles, or of a replicated one. -/
theorem delivers_pointToPoint (hdst : machine.Hosts dst.devices)
    (hrun : machine.reshard src dst = .ok calls)
    (hplan : ∀ p, determineShardingConfig p src dst = .ok .pointToPoint ∨
      determineShardingConfig p src dst = .ok .noOp ∧ dst.devices.shardId p.globalId = none)
    (hsender : ∀ t < dst.devices.size, t < src.devices.size ∧ ∀ point,
      (dst.tileBounds t).Contains point → (src.tileBounds t).Contains point) :
    Delivers src dst (calls.flatMap ReshardCalls.receives) := by
  rw [Machine.flatMap_of_run hrun hdst fun p c hc ↦ ?_]
  · exact delivers_of_wholeTiles hsender
  · rcases hplan p with hp | ⟨hp, hnone⟩
    · rw [reshard, hp] at hc
      exact h.receives_pointToPoint hc
    · rw [reshard, hp] at hc
      rw [hnone, ← Except.ok.inj hc]
      rfl

theorem receives_scatterShards {p : Processor} {config : ScatterShardsConfig}
    (hp : determineShardingConfig p src dst = .ok (.scatterShards config)) {c : ReshardCalls}
    (hc : reshard p src dst = .ok c) :
    (c.receives = (dst.devices.shardId p.globalId).elim [] fun t ↦
      [⟨t / (dst.devices.size / src.devices.size), t, dst.tileBounds t, false⟩]) ∧
    ∀ call ∈ c.sends, call.srcShardId < src.devices.size := by
  rw [reshard_scatterShards hp] at hc
  obtain ⟨sends, hsends, hc⟩ := bind_eq_ok_iff.mp hc
  obtain ⟨receives, hreceives, hc⟩ := bind_eq_ok_iff.mp hc
  obtain rfl := Except.ok.inj hc
  rw [onTile_eq] at hsends hreceives
  constructor
  · cases ht : dst.devices.shardId p.globalId with
    | none =>
        rw [ht] at hreceives
        exact (Except.ok.inj hreceives).symm
    | some t =>
        have hlt := DeviceList.shardId_lt ht
        rw [ht, whenSome_some, scatterShardsToLocalTarget,
          tile_eq_ok_iff.mpr ⟨ht, h.computeDst hlt⟩, ok_bind] at hreceives
        obtain ⟨k, hk, hreceives⟩ := bind_eq_ok_iff.mp hreceives
        obtain ⟨s, hs, hreceives⟩ := bind_eq_ok_iff.mp hreceives
        obtain ⟨-, rfl⟩ := checkedDiv_eq_ok_iff.mp hk
        obtain ⟨-, rfl⟩ := checkedDiv_eq_ok_iff.mp hs
        exact (Except.ok.inj hreceives).symm
  · intro call hcall
    cases hs : src.devices.shardId p.globalId with
    | none =>
        rw [hs] at hsends
        obtain rfl := Except.ok.inj hsends
        cases hcall
    | some s =>
        rw [hs, whenSome_some, scatterShardsFromLocalSource] at hsends
        obtain ⟨k, -, hsends⟩ := bind_eq_ok_iff.mp hsends
        rw [hs, optionalValue_some, ok_bind] at hsends
        have hall := mapM_eq_ok_iff.mp hsends
        obtain ⟨i, hi, rfl⟩ := List.getElem_of_mem hcall
        have hget := hall.get (hall.length_eq ▸ hi) hi
        obtain ⟨bounds, -, hget⟩ := bind_eq_ok_iff.mp hget
        change _ = Except.ok sends[i] at hget
        rw [← Except.ok.inj hget]
        exact DeviceList.shardId_lt hs

/-- A destination shard whose receive is matched names a source shard. -/
theorem delivers_scatterShards (hreplicated : src.isReplicated = true)
    (hdst : machine.Hosts dst.devices) (hrun : machine.reshard src dst = .ok calls)
    (hmatched : (calls.flatMap ReshardCalls.sends).Perm (calls.flatMap ReshardCalls.receives))
    (hplan : ∀ p, ∃ config, determineShardingConfig p src dst = .ok (.scatterShards config)) :
    Delivers src dst (calls.flatMap ReshardCalls.receives) := by
  choose config hplan using hplan
  have hreceives := Machine.flatMap_of_run hrun hdst fun p c hc ↦
    (h.receives_scatterShards (hplan p) hc).1
  have hsent (call : ReshardCall) (hcall : call ∈ calls.flatMap ReshardCalls.receives) :
      call.srcShardId < src.devices.size := by
    obtain ⟨c, hc, hsend⟩ := List.mem_flatMap.mp (hmatched.mem_iff.mpr hcall)
    obtain ⟨i, hi, rfl⟩ := List.getElem_of_mem hc
    have hall := mapM_eq_ok_iff.mp hrun
    exact (h.receives_scatterShards (hplan _) (hall.get (hall.length_eq ▸ hi) hi)).2 call hsend
  rw [hreceives] at hsent ⊢
  apply delivers_of_wholeTiles
  intro t ht
  have hsender := hsent _ (List.mem_flatMap.mpr
    ⟨t, List.mem_range.mpr ht, List.mem_singleton_self _⟩)
  exact ⟨hsender, fun point ↦ h.src_contains_of_dst hreplicated hsender ht⟩

end SameArray

/-! ## Broadcasting -/

/-- A destination shard receives from the source shard of its group or from a
smaller shard of its group. -/
theorem broadcastReceives_of_target {src dst : Sharding} {targets : ℕ → TargetConfig}
    (hm : 1 ≤ src.devices.size) (htargets : ShardTargets src dst targets) {t : ℕ}
    (ht : t < dst.devices.size) (bounds : RealmShape) :
    (∃ s < src.devices.size, broadcastReceives (targets t) t bounds = [⟨s, t, bounds, false⟩]) ∨
      ∃ parent < t, broadcastReceives (targets t) t bounds = [⟨parent, t, bounds, true⟩] := by
  have hpos := leavesPerRoot_pos hm (Nat.one_le_of_lt ht)
  obtain ⟨hle, hrank⟩ := rank_lt_groupSize src hpos ht
  have htarget := htargets t ht
  set first := t / leavesPerRoot src dst * leavesPerRoot src dst
  set group := dst.devices.slice first (groupSize src dst (t / leavesPerRoot src dst))
  have hrank : t - first < group.size := hrank.trans_eq (size_groupSlice src dst _ _).symm
  rcases Nat.eq_zero_or_pos (t - first) with hzero | hlater
  · rw [hzero] at htarget hrank
    obtain ⟨target, hroot, hsource, -⟩ := exists_root (t / leavesPerRoot src dst) first hrank
    obtain rfl := Except.ok.inj (hroot.symm.trans htarget)
    exact Or.inl ⟨_, div_leavesPerRoot_lt hm ht, by simp only [broadcastReceives, hsource]⟩
  · obtain ⟨k, hlow⟩ := LowBit.exists_isLowBit hlater
    obtain ⟨target, hnamed, hsource, hparent⟩ :=
      exists_parent (t / leavesPerRoot src dst) first hrank hlow
    obtain rfl := Except.ok.inj (hnamed.symm.trans htarget)
    have hpow := Nat.two_pow_pos k
    have hbefore : first + (t - first - 2 ^ k) < t := by omega
    exact Or.inr ⟨_, hbefore, by simp only [broadcastReceives, hsource, hparent]⟩

namespace SameArray

variable [RealmBuild] {src dst : Sharding} (h : SameArray src dst)

include h

theorem receives_broadcast {targets : ℕ → TargetConfig} (htargets : ShardTargets src dst targets)
    {p : Processor} {config : BroadcastConfig}
    (hconfig : getBroadcastConfig (src.devices.shardId p.globalId) (dst.devices.shardId p.globalId)
      src dst = .ok config) {c : ReshardCalls}
    (hc : reshardBroadcast p config src dst = .ok c) :
    c.receives = (dst.devices.shardId p.globalId).elim []
      fun t ↦ broadcastReceives (targets t) t (dst.tileBounds t) := by
  have hm := devices_pos h.src_tileable.sharding_pos h.src_tileable.devices_eq
  have hn := devices_pos h.dst_tileable.sharding_pos h.dst_tileable.devices_eq
  rw [getBroadcastConfig_eq hm hn htargets fun t ht ↦ DeviceList.shardId_lt ht] at hconfig
  obtain rfl := Except.ok.inj hconfig
  unfold reshardBroadcast at hc
  have htile := hasTile_eq_isSome p dst
  cases ht : dst.devices.shardId p.globalId with
  | none =>
      rw [htile, ht, Option.isSome_none, if_neg Bool.false_ne_true] at hc
      obtain ⟨sends, -, hc⟩ := bind_eq_ok_iff.mp hc
      rw [← Except.ok.inj hc]
      rfl
  | some t =>
      rw [htile, ht, Option.isSome_some, if_pos rfl] at hc
      obtain ⟨calls, htarget, hc⟩ := bind_eq_ok_iff.mp hc
      obtain ⟨sends, -, hc⟩ := bind_eq_ok_iff.mp hc
      obtain ⟨target, hrole, htarget⟩ := bind_eq_ok_iff.mp htarget
      -- the processor of a source shard without a group has no role
      split at hrole
      · cases hrole
      · obtain rfl := Except.ok.inj hrole
        have hlt := DeviceList.shardId_lt ht
        rw [tile_eq_ok_iff.mpr ⟨ht, h.computeDst hlt⟩, ok_bind] at htarget
        rw [← Except.ok.inj hc, ← Except.ok.inj htarget]
        rfl

variable {machine : Machine} {calls : List ReshardCalls}

/-- The induction that a tree needs is in the order of the copies: a shard that
another one receives from comes before it. -/
theorem delivers_broadcast (hsrcReplicated : src.isReplicated = true)
    (hdstReplicated : dst.isReplicated = true) (hdst : machine.Hosts dst.devices)
    (hrun : machine.reshard src dst = .ok calls)
    (hplan : ∀ p, determineShardingConfig p src dst = (do
      let config ← getBroadcastConfig (src.devices.shardId p.globalId)
        (dst.devices.shardId p.globalId) src dst
      pure (.broadcast config))) :
    Delivers src dst (calls.flatMap ReshardCalls.receives) := by
  have hm := devices_pos h.src_tileable.sharding_pos h.src_tileable.devices_eq
  have hn := devices_pos h.dst_tileable.sharding_pos h.dst_tileable.devices_eq
  obtain ⟨targets, htargets⟩ := exists_shardTargets (leavesPerRoot_pos hm hn)
  have hreceives := Machine.flatMap_of_run hrun hdst fun p c hc ↦ by
    rw [reshard, hplan p] at hc
    obtain ⟨_, hp, hc⟩ := bind_eq_ok_iff.mp hc
    obtain ⟨config, hconfig, hp⟩ := bind_eq_ok_iff.mp hp
    obtain rfl := Except.ok.inj hp
    exact h.receives_broadcast htargets hconfig hc
  rw [hreceives]
  have hcall (t : ℕ) (ht : t < dst.devices.size) :=
    broadcastReceives_of_target hm htargets ht (dst.tileBounds t)
  apply delivers_of_receives
  · intro t ht call hmem
    rcases hcall t ht with ⟨s, -, heq⟩ | ⟨parent, -, heq⟩ <;>
      rw [heq, List.mem_singleton] at hmem <;> rw [hmem]
  · intro t ht call hmem
    rcases hcall t ht with ⟨s, hs, heq⟩ | ⟨parent, hparent, heq⟩ <;>
      rw [heq, List.mem_singleton] at hmem <;> subst hmem
    · exact ⟨hs, ArraySide.noConfusion,
        fun point ↦ h.src_contains_of_dst hsrcReplicated hs ht⟩
    · refine ⟨hparent.trans ht, fun hself ↦ hparent.ne (ArraySide.dst.inj hself),
        fun point hpoint ↦ ?_⟩
      have hwhole := arrayShape_contains_of_tile h.dst_tileable ht hpoint
      exact (tileBounds_contains_of_isReplicated h.dst_tileable hdstReplicated
        (hparent.trans ht)).mpr hwhole
  · intro t ht point
    rcases hcall t ht with ⟨s, -, heq⟩ | ⟨parent, -, heq⟩ <;> simp [heq]
  · rw [InTreeOrder, List.pairwise_flatMap]
    constructor
    · intro t ht
      rcases hcall t (List.mem_range.mp ht) with ⟨s, -, heq⟩ | ⟨parent, -, heq⟩ <;>
        rw [heq] <;> exact List.pairwise_singleton _ _
    · refine List.pairwise_lt_range.imp_of_mem fun {t t'} ht ht' hlt call hmem later hlater ↦ ?_
      have ht := List.mem_range.mp ht
      have ht' := List.mem_range.mp ht'
      have hlaterTarget : later.dstShardId = t' := by
        rcases hcall t' ht' with ⟨s, -, heq⟩ | ⟨parent, -, heq⟩ <;>
          rw [heq, List.mem_singleton] at hlater <;> rw [hlater]
      rw [hlaterTarget]
      rcases hcall t ht with ⟨s, hs, heq⟩ | ⟨parent, hparent, heq⟩ <;>
        rw [heq, List.mem_singleton] at hmem <;> subst hmem
      · exact ArraySide.noConfusion
      · intro hsource
        have hsame : parent = t' := ArraySide.dst.inj hsource
        omega

end SameArray

end Zuku
