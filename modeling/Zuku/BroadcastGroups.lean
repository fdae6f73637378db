import Zuku.BroadcastPaths

/-!
# The groups of a broadcast

The destination shards are cut into groups of `⌈n / m⌉`, of which the last one
may be short and the trailing source shards may have none.  A source shard
without a group ends the configuration of its processor, also when the processor
is a destination.
-/

namespace Zuku

open Checked LowBit

section Groups

variable (src dst : Sharding)

/-- `⌈n / m⌉` as the source computes it. -/
def leavesPerRoot : ℕ := (dst.devices.size + src.devices.size - 1) / src.devices.size

/-- The number of leaves of a group. -/
def groupSize (k : ℕ) : ℕ :=
  min (leavesPerRoot src dst) (dst.devices.size - k * leavesPerRoot src dst)

/-- The destination shards of a group. -/
def group (k : ℕ) : Finset ℕ :=
  Finset.Ico (k * leavesPerRoot src dst) (k * leavesPerRoot src dst + groupSize src dst k)

/-- The groups that some destination shard is in. -/
def assignedGroups : Finset ℕ :=
  (Finset.range dst.devices.size).image fun t ↦ t / leavesPerRoot src dst

/-- The target of a destination shard is that of its rank in its group, the
groups partition the destination shards, every root is fed by the source shard
it names, and a shard exchanges data only with its own group. -/
structure GroupsMatch (configs : ℕ → BroadcastConfig) : Prop where
  assigned : ∀ t < dst.devices.size, ∃ k rank target, k < src.devices.size ∧
    rank < groupSize src dst k ∧ t = k * leavesPerRoot src dst + rank ∧
    (configs (dst.devices.start + t)).target = some target ∧
    getTargetConfig k (k * leavesPerRoot src dst)
      (dst.devices.slice (k * leavesPerRoot src dst) (groupSize src dst k)) rank = .ok target ∧
    (∀ root ∈ target.dstRootShard, root ∈ group src dst k) ∧
    ∀ leaf ∈ target.dstLeafShards, leaf ∈ group src dst k
  nonempty : ∀ k ∈ assignedGroups src dst, (group src dst k).Nonempty
  disjoint : (assignedGroups src dst : Set ℕ).PairwiseDisjoint (group src dst)
  cover : (assignedGroups src dst).biUnion (group src dst) = Finset.range dst.devices.size
  roots : {pair : ℕ × ℕ | pair.1 < src.devices.size ∧
      ∃ source ∈ (configs (src.devices.start + pair.1)).source, pair.2 ∈ source.dstRootShards} =
    {pair : ℕ × ℕ | pair.2 < dst.devices.size ∧
      ∃ target ∈ (configs (dst.devices.start + pair.2)).target, pair.1 ∈ target.srcShard}

/-- Every processor computes its configuration, and the configurations fit. -/
def BroadcastMatches : Prop :=
  ∃ configs : ℕ → BroadcastConfig,
    (∀ id, getBroadcastConfig (src.devices.shardId id) (dst.devices.shardId id) src dst =
      .ok (configs id)) ∧ GroupsMatch src dst configs

variable {src dst}

theorem le_mul_leavesPerRoot (hm : 1 ≤ src.devices.size) :
    dst.devices.size ≤ src.devices.size * leavesPerRoot src dst := by
  unfold leavesPerRoot
  rw [← Nat.ceilDiv_eq_add_pred_div]
  exact le_smul_ceilDiv (Nat.lt_of_lt_of_le Nat.zero_lt_one hm)

theorem leavesPerRoot_pos (hm : 1 ≤ src.devices.size) (hn : 1 ≤ dst.devices.size) :
    0 < leavesPerRoot src dst := by
  have hle : dst.devices.size ≤ _ := le_mul_leavesPerRoot hm
  rcases Nat.eq_zero_or_pos (leavesPerRoot src dst) with hzero | hpos
  · rw [hzero] at hle
    omega
  · exact hpos

/-- The group of a shard is its quotient by the size of the groups. -/
theorem mem_group (hpos : 0 < leavesPerRoot src dst) {k t : ℕ} :
    t ∈ group src dst k ↔ t < dst.devices.size ∧ t / leavesPerRoot src dst = k := by
  rw [group, groupSize, Finset.mem_Ico, Nat.div_eq_iff hpos]
  have hsucc : (k + 1) * leavesPerRoot src dst =
      k * leavesPerRoot src dst + leavesPerRoot src dst := Nat.succ_mul _ _
  omega

theorem mem_assignedGroups {k : ℕ} :
    k ∈ assignedGroups src dst ↔ ∃ t < dst.devices.size, t / leavesPerRoot src dst = k := by
  simp [assignedGroups]

theorem group_nonempty (hpos : 0 < leavesPerRoot src dst) :
    ∀ k ∈ assignedGroups src dst, (group src dst k).Nonempty := by
  intro k hk
  obtain ⟨t, ht, hquot⟩ := mem_assignedGroups.mp hk
  exact ⟨t, (mem_group hpos).mpr ⟨ht, hquot⟩⟩

theorem pairwiseDisjoint_group (hpos : 0 < leavesPerRoot src dst) :
    (assignedGroups src dst : Set ℕ).PairwiseDisjoint (group src dst) := by
  intro j _ k _ hne
  apply Finset.disjoint_left.mpr
  intro t hj hk
  exact hne (((mem_group hpos).mp hj).2.symm.trans ((mem_group hpos).mp hk).2)

theorem biUnion_group (hpos : 0 < leavesPerRoot src dst) :
    (assignedGroups src dst).biUnion (group src dst) = Finset.range dst.devices.size := by
  ext t
  rw [Finset.mem_biUnion, Finset.mem_range]
  constructor
  · rintro ⟨k, -, ht⟩
    exact ((mem_group hpos).mp ht).1
  · intro ht
    exact ⟨_, mem_assignedGroups.mpr ⟨t, ht, rfl⟩, (mem_group hpos).mpr ⟨ht, rfl⟩⟩

/-! ## The configuration of a processor -/

/-- What a rank is told about the source, and that it stays in its group. -/
theorem exists_target_inside (srcShard destRootShard : ℕ) (dstDevices : DeviceList) {rank : ℕ}
    (hrank : rank < dstDevices.size) :
    ∃ target, getTargetConfig srcShard destRootShard dstDevices rank = .ok target ∧
      (target.srcShard = if rank = 0 then some srcShard else none) ∧
      (∀ root ∈ target.dstRootShard, ∃ parent < dstDevices.size, root = destRootShard + parent) ∧
      ∀ leaf ∈ target.dstLeafShards, ∃ child < dstDevices.size,
        leaf = destRootShard + child := by
  obtain ⟨target, htarget, -, hleaves⟩ :=
    leaves_name_parent srcShard destRootShard hrank
  refine ⟨target, htarget, ?_, ?_, ?_⟩
  · rcases Nat.eq_zero_or_pos rank with rfl | hpos
    · obtain ⟨root, hroot, hsrc, -⟩ :=
        exists_root srcShard destRootShard hrank
      obtain rfl := Except.ok.inj (htarget.symm.trans hroot)
      exact hsrc
    · obtain ⟨k, hlow⟩ := exists_isLowBit hpos
      obtain ⟨named, hnamed, hsrc, -⟩ :=
        exists_parent srcShard destRootShard hrank hlow
      obtain rfl := Except.ok.inj (htarget.symm.trans hnamed)
      rw [hsrc, if_neg hpos.ne']
  · intro root hmem
    rcases Nat.eq_zero_or_pos rank with rfl | hpos
    · obtain ⟨first, hfirst, -, hnone⟩ :=
        exists_root srcShard destRootShard hrank
      obtain rfl := Except.ok.inj (htarget.symm.trans hfirst)
      rw [hnone] at hmem
      cases hmem
    · obtain ⟨k, hlow⟩ := exists_isLowBit hpos
      obtain ⟨named, hnamed, -, hparent⟩ :=
        exists_parent srcShard destRootShard hrank hlow
      obtain rfl := Except.ok.inj (htarget.symm.trans hnamed)
      rw [hparent, Option.mem_some_iff] at hmem
      exact ⟨rank - 2 ^ k, (Nat.sub_le _ _).trans_lt hrank, hmem.symm⟩
  · intro leaf hmem
    obtain ⟨child, -, rfl, -, hlt, -⟩ := hleaves leaf hmem
    exact ⟨child, hlt, rfl⟩

/-- The targets of the destination shards, each by its rank in its group. -/
def ShardTargets (src dst : Sharding) (targets : ℕ → TargetConfig) : Prop :=
  ∀ t < dst.devices.size,
    getTargetConfig (t / leavesPerRoot src dst)
      (t / leavesPerRoot src dst * leavesPerRoot src dst)
      (dst.devices.slice (t / leavesPerRoot src dst * leavesPerRoot src dst)
        (groupSize src dst (t / leavesPerRoot src dst)))
      (t - t / leavesPerRoot src dst * leavesPerRoot src dst) = .ok (targets t)

variable (src) in
theorem rank_lt_groupSize (hpos : 0 < leavesPerRoot src dst) {t : ℕ}
    (ht : t < dst.devices.size) :
    t / leavesPerRoot src dst * leavesPerRoot src dst ≤ t ∧
      t - t / leavesPerRoot src dst * leavesPerRoot src dst <
        groupSize src dst (t / leavesPerRoot src dst) := by
  have hmem : t ∈ group src dst _ := (mem_group hpos).mpr ⟨ht, rfl⟩
  rw [group, Finset.mem_Ico] at hmem
  omega

theorem groupSize_lt (src dst : Sharding) (k : ℕ) : groupSize src dst k < int64Bound :=
  (Nat.min_le_right _ _).trans_lt ((Nat.sub_le _ _).trans_lt dst.devices.size_lt)

theorem size_groupSlice (src dst : Sharding) (offset k : ℕ) :
    (dst.devices.slice offset (groupSize src dst k)).size = groupSize src dst k :=
  dst.devices.size_slice offset (groupSize_lt src dst k)

/-- The target of a rank in a group stays inside the group. -/
theorem exists_target_in_group (src dst : Sharding) (k : ℕ) {rank : ℕ}
    (hrank : rank < groupSize src dst k) :
    ∃ target, getTargetConfig k (k * leavesPerRoot src dst)
        (dst.devices.slice (k * leavesPerRoot src dst) (groupSize src dst k)) rank = .ok target ∧
      (target.srcShard = if rank = 0 then some k else none) ∧
      (∀ root ∈ target.dstRootShard, ∃ parent < groupSize src dst k,
        root = k * leavesPerRoot src dst + parent) ∧
      ∀ leaf ∈ target.dstLeafShards, ∃ child < groupSize src dst k,
        leaf = k * leavesPerRoot src dst + child := by
  have hinside := exists_target_inside k (k * leavesPerRoot src dst)
    (dst.devices.slice (k * leavesPerRoot src dst) (groupSize src dst k))
    (hrank.trans_eq (size_groupSlice src dst _ k).symm)
  simpa only [size_groupSlice] using hinside

theorem exists_shardTargets (hpos : 0 < leavesPerRoot src dst) :
    ∃ targets, ShardTargets src dst targets := by
  have hex (t : ℕ) : ∃ target, t < dst.devices.size →
      getTargetConfig (t / leavesPerRoot src dst)
        (t / leavesPerRoot src dst * leavesPerRoot src dst)
        (dst.devices.slice (t / leavesPerRoot src dst * leavesPerRoot src dst)
          (groupSize src dst (t / leavesPerRoot src dst)))
        (t - t / leavesPerRoot src dst * leavesPerRoot src dst) = .ok target := by
    by_cases ht : t < dst.devices.size
    · obtain ⟨target, htarget, -⟩ := exists_target_in_group src dst (t / leavesPerRoot src dst)
        (rank_lt_groupSize src hpos ht).2
      exact ⟨target, fun _ ↦ htarget⟩
    · exact ⟨{}, fun h ↦ absurd h ht⟩
  choose targets htargets using hex
  exact ⟨targets, htargets⟩

theorem getBroadcastTarget_eq (hpos : 0 < leavesPerRoot src dst) {targets : ℕ → TargetConfig}
    (htargets : ShardTargets src dst targets) {shard : Option ℕ}
    (hshard : ∀ t ∈ shard, t < dst.devices.size) :
    getBroadcastTarget (leavesPerRoot src dst) dst shard = .ok (shard.map targets) := by
  cases shard with
  | none => rfl
  | some t =>
      rw [getBroadcastTarget, checkedDiv_of_pos hpos, ok_bind]
      have htarget := htargets t (hshard t rfl)
      unfold groupSize at htarget
      simp only [htarget, ok_bind, pure_eq_ok, Option.map_some]

theorem getBroadcastConfig_eq (hm : 1 ≤ src.devices.size) (hn : 1 ≤ dst.devices.size)
    {targets : ℕ → TargetConfig} (htargets : ShardTargets src dst targets)
    {srcShard dstShard : Option ℕ} (hdst : ∀ t ∈ dstShard, t < dst.devices.size) :
    getBroadcastConfig srcShard dstShard src dst =
      .ok (if ∃ s ∈ srcShard, dst.devices.size ≤ s * leavesPerRoot src dst then {} else
        ⟨srcShard.map fun s ↦ ⟨[s * leavesPerRoot src dst]⟩, dstShard.map targets⟩) := by
  have hpos := leavesPerRoot_pos hm hn
  have htarget := getBroadcastTarget_eq hpos htargets hdst
  rw [getBroadcastConfig, checkedDiv_of_pos (by omega), ok_bind]
  unfold leavesPerRoot at htarget ⊢
  cases srcShard with
  | none => simp [htarget]
  | some s =>
      simp only [Option.mem_some_iff, exists_eq_left', htarget]
      split <;> rfl

/-! ## All processors -/

/-- No source shard without a group has its device among the destinations. -/
def ExtraShardsApart (src dst : Sharding) : Prop :=
  ∀ s < src.devices.size, dst.devices.size ≤ s * leavesPerRoot src dst →
    dst.devices.contains (src.devices.start + s) = false

theorem div_leavesPerRoot_lt (hm : 1 ≤ src.devices.size) {t : ℕ} (ht : t < dst.devices.size) :
    t / leavesPerRoot src dst < src.devices.size := by
  apply Nat.div_lt_of_lt_mul
  rw [Nat.mul_comm]
  exact ht.trans_le (le_mul_leavesPerRoot hm)

/-- A destination shard names a source shard when it is the first of its group. -/
theorem mem_srcShard_iff (hpos : 0 < leavesPerRoot src dst) {targets : ℕ → TargetConfig}
    (htargets : ShardTargets src dst targets) {s t : ℕ} (ht : t < dst.devices.size) :
    s ∈ (targets t).srcShard ↔ t = s * leavesPerRoot src dst := by
  obtain ⟨hle, hrank⟩ := rank_lt_groupSize src hpos ht
  obtain ⟨target, hown, hsrc, -, -⟩ :=
    exists_target_in_group src dst (t / leavesPerRoot src dst) hrank
  obtain rfl := Except.ok.inj (hown.symm.trans (htargets t ht))
  rw [hsrc]
  constructor
  · split
    case isTrue hzero =>
      intro hs
      obtain rfl := Option.some.inj hs
      omega
    case isFalse hrank => exact fun hs ↦ absurd hs (Option.not_mem_none s)
  · intro hfirst
    have hquot : t / leavesPerRoot src dst = s := by rw [hfirst, Nat.mul_div_cancel _ hpos]
    rw [hquot, if_pos (by omega), Option.mem_some_iff]

/-- What the processor of this global id is told. -/
def processorConfig (src dst : Sharding) (targets : ℕ → TargetConfig) (id : ℕ) :
    BroadcastConfig :=
  if ∃ s ∈ src.devices.shardId id, dst.devices.size ≤ s * leavesPerRoot src dst then {} else
    ⟨(src.devices.shardId id).map fun s ↦ ⟨[s * leavesPerRoot src dst]⟩,
      (dst.devices.shardId id).map targets⟩

theorem source_processorConfig (targets : ℕ → TargetConfig) {s : ℕ} (hs : s < src.devices.size) :
    (processorConfig src dst targets (src.devices.start + s)).source =
      if dst.devices.size ≤ s * leavesPerRoot src dst then none
      else some ⟨[s * leavesPerRoot src dst]⟩ := by
  simp only [processorConfig, src.devices.shardId_start_add hs, Option.mem_some_iff,
    exists_eq_left']
  split <;> rfl

/-- A destination shard has its target when its processor is not one of an extra
source shard. -/
theorem target_processorConfig (hapart : ExtraShardsApart src dst) (targets : ℕ → TargetConfig)
    {t : ℕ} (ht : t < dst.devices.size) :
    (processorConfig src dst targets (dst.devices.start + t)).target = some (targets t) := by
  have hextra : ¬∃ s ∈ src.devices.shardId (dst.devices.start + t),
      dst.devices.size ≤ s * leavesPerRoot src dst := by
    rintro ⟨s, hs, hextra⟩
    obtain ⟨hlt, hid⟩ := (src.devices.shardId_eq_some_iff _ s).mp hs
    have houtside := hapart s hlt hextra
    rw [← hid, ← Bool.not_eq_true, DeviceList.contains_iff] at houtside
    exact houtside ⟨t, ht, rfl⟩
  rw [processorConfig, if_neg hextra, dst.devices.shardId_start_add ht, Option.map_some]

/-- The root of a group is fed by the source shard it names. -/
theorem roots_processorConfig (hm : 1 ≤ src.devices.size) (hpos : 0 < leavesPerRoot src dst)
    (hapart : ExtraShardsApart src dst) {targets : ℕ → TargetConfig}
    (htargets : ShardTargets src dst targets) (s t : ℕ) :
    (s < src.devices.size ∧
      ∃ source ∈ (processorConfig src dst targets (src.devices.start + s)).source,
        t ∈ source.dstRootShards) ↔
    t < dst.devices.size ∧
      ∃ target ∈ (processorConfig src dst targets (dst.devices.start + t)).target,
        s ∈ target.srcShard := by
  constructor
  · rintro ⟨hs, source, hsource, hroot⟩
    rw [source_processorConfig targets hs] at hsource
    split at hsource
    case isTrue => exact absurd hsource (Option.not_mem_none source)
    case isFalse hroom =>
      obtain rfl := Option.some.inj hsource
      obtain rfl := List.mem_singleton.mp hroot
      have ht : s * leavesPerRoot src dst < dst.devices.size := Nat.lt_of_not_le hroom
      exact ⟨ht, targets _, target_processorConfig hapart targets ht,
        (mem_srcShard_iff hpos htargets ht).mpr rfl⟩
  · rintro ⟨ht, target, hown, hnamed⟩
    rw [target_processorConfig hapart targets ht] at hown
    obtain rfl := Option.some.inj hown
    have hfirst := (mem_srcShard_iff hpos htargets ht).mp hnamed
    have hs : s < src.devices.size := by
      have hquot : t / leavesPerRoot src dst < src.devices.size := div_leavesPerRoot_lt hm ht
      rwa [hfirst, Nat.mul_div_cancel _ hpos] at hquot
    refine ⟨hs, ⟨[s * leavesPerRoot src dst]⟩, ?_, by rw [hfirst]; exact List.mem_cons_self⟩
    rw [source_processorConfig targets hs, if_neg (by omega)]
    rfl

theorem groupsMatch_of_apart (hm : 1 ≤ src.devices.size) (hn : 1 ≤ dst.devices.size)
    (hapart : ExtraShardsApart src dst) : BroadcastMatches src dst := by
  have hpos := leavesPerRoot_pos hm hn
  obtain ⟨targets, htargets⟩ := exists_shardTargets hpos
  have hgroup (t : ℕ) (ht : t < dst.devices.size) (i : ℕ)
      (hi : i < groupSize src dst (t / leavesPerRoot src dst)) :
      t / leavesPerRoot src dst * leavesPerRoot src dst + i ∈
        group src dst (t / leavesPerRoot src dst) := by
    rw [group, Finset.mem_Ico]
    omega
  refine ⟨processorConfig src dst targets,
    fun id ↦ getBroadcastConfig_eq hm hn htargets fun t ht ↦ DeviceList.shardId_lt ht,
    ?_, group_nonempty hpos, pairwiseDisjoint_group hpos, biUnion_group hpos, ?_⟩
  · intro t ht
    obtain ⟨hle, hrank⟩ := rank_lt_groupSize src hpos ht
    obtain ⟨target, hown, -, hroot, hleaf⟩ :=
      exists_target_in_group src dst (t / leavesPerRoot src dst) hrank
    obtain rfl := Except.ok.inj (hown.symm.trans (htargets t ht))
    refine ⟨_, _, targets t, ?_, hrank, (Nat.add_sub_of_le hle).symm, ?_, hown, ?_, ?_⟩
    · exact div_leavesPerRoot_lt hm ht
    · exact target_processorConfig hapart targets ht
    · intro root hmem
      obtain ⟨parent, hparent, rfl⟩ := hroot root hmem
      exact hgroup t ht parent hparent
    · intro leaf hmem
      obtain ⟨child, hchild, rfl⟩ := hleaf leaf hmem
      exact hgroup t ht child hchild
  · ext ⟨s, t⟩
    exact roots_processorConfig hm hpos hapart htargets s t

/-- The processor of an extra source shard has no target. -/
theorem apart_of_groupsMatch (hm : 1 ≤ src.devices.size) (hn : 1 ≤ dst.devices.size)
    (h : BroadcastMatches src dst) : ExtraShardsApart src dst := by
  obtain ⟨targets, htargets⟩ := exists_shardTargets (leavesPerRoot_pos hm hn)
  obtain ⟨configs, hconfigs, hmatch⟩ := h
  intro s hs hextra
  by_contra hcontains
  rw [Bool.not_eq_false, DeviceList.contains_iff] at hcontains
  obtain ⟨t, ht, hid⟩ := hcontains
  obtain ⟨-, -, target, -, -, -, hown, -⟩ := hmatch.assigned t ht
  have hconfig := hconfigs (src.devices.start + s)
  rw [getBroadcastConfig_eq hm hn htargets fun t ht ↦ DeviceList.shardId_lt ht,
    src.devices.shardId_start_add hs, if_pos ⟨s, rfl, hextra⟩] at hconfig
  rw [← hid, ← Except.ok.inj hconfig] at hown
  cases hown

end Groups

/-- The groups and their roots fit exactly when no source shard without a group
has its device among the destination devices. -/
theorem broadcast_groups_iff (src dst : Sharding) (hm : 1 ≤ src.devices.size)
    (hmn : src.devices.size < dst.devices.size) :
    BroadcastMatches src dst ↔ ∀ s < src.devices.size,
      dst.devices.size ≤
        s * ((dst.devices.size + src.devices.size - 1) / src.devices.size) →
      dst.devices.contains (src.devices.start + s) = false :=
  ⟨apart_of_groupsMatch hm (by omega), groupsMatch_of_apart hm (by omega)⟩

/-- Two source devices and five destination devices after them. -/
theorem broadcast_groups_two_of_five :
    BroadcastMatches ⟨[⟨8, 1, 0⟩, ⟨1, 2, 1⟩], ⟨0, 2⟩⟩ ⟨[⟨8, 1, 0⟩, ⟨1, 5, 1⟩], ⟨2, 5⟩⟩ :=
  (broadcast_groups_iff ⟨[⟨8, 1, 0⟩, ⟨1, 2, 1⟩], ⟨0, 2⟩⟩ ⟨[⟨8, 1, 0⟩, ⟨1, 5, 1⟩], ⟨2, 5⟩⟩
    (by decide) (by decide)).mpr (by decide)

/-- Three source devices that are the first of four destination devices: the
third has no group to send to, and so does not receive its shard either. -/
theorem not_broadcast_groups_three_of_four :
    ¬ ∀ src dst : Sharding, 1 ≤ src.devices.size → src.devices.size < dst.devices.size →
      BroadcastMatches src dst := by
  intro h
  obtain ⟨configs, hconfigs, hmatch⟩ :=
    h ⟨[⟨8, 1, 0⟩, ⟨1, 3, 1⟩], ⟨0, 3⟩⟩ ⟨[⟨8, 1, 0⟩, ⟨1, 4, 1⟩], ⟨0, 4⟩⟩ (by decide) (by decide)
  obtain ⟨-, -, target, -, -, -, hown, -⟩ := hmatch.assigned 2 (by decide)
  have hnone : configs 2 = {} := Except.ok.inj ((hconfigs 2).symm.trans (by rfl))
  rw [show (⟨0, 4⟩ : DeviceList).start + 2 = 2 by rfl, hnone] at hown
  cases hown

end Zuku
