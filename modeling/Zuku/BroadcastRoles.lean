import Zuku.BroadcastGroups
import Zuku.ReshardCalls

/-!
# The roles of a processor in a broadcast

A processor runs the target path of a broadcast if it has a destination tile and
the source path if it has a source tile.  Each path unwraps its half of the
configuration, which the processor of a source shard without a group does not
have.
-/

namespace Zuku

open Checked

variable {src dst : Sharding}

/-- A path that is run finds its half of the configuration. -/
structure RolesEngaged (p : Processor) (config : BroadcastConfig) (src dst : Sharding) : Prop where
  target : hasTile p dst = true → config.target.isSome
  source : hasTile p src = true → config.source.isSome

/-- The processor gets a configuration with all roles that it is going to play. -/
def BroadcastEngaged (src dst : Sharding) (p : Processor) : Prop :=
  ∃ config, getBroadcastConfig (src.devices.shardId p.globalId) (dst.devices.shardId p.globalId)
    src dst = .ok config ∧ RolesEngaged p config src dst

/-- The processor does not hold a source shard without a group. -/
def NotExtra (src dst : Sharding) (p : Processor) : Prop :=
  ∀ s ∈ src.devices.shardId p.globalId, s * leavesPerRoot src dst < dst.devices.size

instance (p : Processor) : Decidable (NotExtra src dst p) :=
  inferInstanceAs (Decidable (∀ s ∈ src.devices.shardId p.globalId, _))

/-! ## What the paths do with the configuration -/

section Paths

variable [RealmBuild] {p : Processor} {config : BroadcastConfig}

/-- With all its roles and tiles a processor gets through the broadcast. -/
theorem exists_reshardBroadcast (h : RolesEngaged p config src dst)
    (hsrc : src.HasTiles) (hdst : dst.HasTiles) :
    ∃ calls, reshardBroadcast p config src dst = .ok calls := by
  have htile {sharding : Sharding} (htiles : sharding.HasTiles)
      (hhas : hasTile p sharding = true) :
      ∃ shard bounds, tile p sharding = .ok (shard, bounds) := by
    obtain ⟨bounds, hbounds⟩ := htiles
    rw [hasTile, ← DeviceList.isSome_shardId] at hhas
    obtain ⟨shard, hshard⟩ := Option.isSome_iff_exists.mp hhas
    exact ⟨shard, _, tile_eq_ok_iff.mpr ⟨hshard, hbounds shard (DeviceList.shardId_lt hshard)⟩⟩
  have hsends : ∃ sends,
      onTile p src (reshardBroadcastFromLocalSource p config src) = .ok sends := by
    unfold onTile
    split
    case isTrue hhas =>
      obtain ⟨source, hsource⟩ := Option.isSome_iff_exists.mp (h.source hhas)
      obtain ⟨shard, bounds, heq⟩ := htile hsrc hhas
      rw [reshardBroadcastFromLocalSource, hsource, optionalValue_some, ok_bind, heq]
      exact ⟨_, rfl⟩
    case isFalse => exact ⟨[], rfl⟩
  obtain ⟨sends, hsends⟩ := hsends
  unfold reshardBroadcast
  split
  case isTrue hhas =>
    obtain ⟨target, htarget⟩ := Option.isSome_iff_exists.mp (h.target hhas)
    obtain ⟨shard, bounds, heq⟩ := htile hdst hhas
    rw [reshardBroadcastToLocalTarget, htarget, optionalValue_some, ok_bind, heq, hsends]
    exact ⟨_, rfl⟩
  case isFalse =>
    rw [hsends]
    exact ⟨_, rfl⟩

/-- On arrays with all their tiles, a processor gets through the broadcast
exactly when it has all its roles. -/
theorem exists_reshardBroadcast_iff (hsrc : src.HasTiles) (hdst : dst.HasTiles) :
    (∃ calls, reshardBroadcast p config src dst = .ok calls) ↔
      RolesEngaged p config src dst := by
  refine ⟨?_, fun h ↦ exists_reshardBroadcast h hsrc hdst⟩
  rintro ⟨calls, hcalls⟩
  unfold reshardBroadcast at hcalls
  constructor
  · intro htile
    by_contra hnone
    rw [Bool.not_eq_true, Option.isSome_eq_false_iff, Option.isNone_iff_eq_none] at hnone
    rw [if_pos htile, reshardBroadcastToLocalTarget, hnone] at hcalls
    cases hcalls
  · intro htile
    by_contra hnone
    rw [Bool.not_eq_true, Option.isSome_eq_false_iff, Option.isNone_iff_eq_none] at hnone
    have hsends : onTile p src (reshardBroadcastFromLocalSource p config src) =
        .error .badOptionalAccess := by
      rw [onTile, if_pos htile, reshardBroadcastFromLocalSource, hnone]
      rfl
    rw [hsends] at hcalls
    split at hcalls
    · obtain ⟨_, -, hcalls⟩ := bind_eq_ok_iff.mp hcalls
      cases hcalls
    · cases hcalls

end Paths

/-! ## Who has all its roles -/

theorem hasTile_eq_isSome (p : Processor) (sharding : Sharding) :
    hasTile p sharding = (sharding.devices.shardId p.globalId).isSome :=
  (sharding.devices.isSome_shardId p.globalId).symm

/-- Away from the extra source shards a configuration has exactly the roles of
the shards of the processor, and on them it has none. -/
theorem broadcastEngaged_iff (hm : 1 ≤ src.devices.size) (hn : 1 ≤ dst.devices.size)
    (p : Processor) : BroadcastEngaged src dst p ↔ NotExtra src dst p := by
  obtain ⟨targets, htargets⟩ := exists_shardTargets (leavesPerRoot_pos hm hn)
  have hconfig : getBroadcastConfig (src.devices.shardId p.globalId)
      (dst.devices.shardId p.globalId) src dst = _ :=
    getBroadcastConfig_eq hm hn htargets fun t ht ↦ DeviceList.shardId_lt ht
  constructor
  · rintro ⟨config, hown, hengaged⟩ s hs
    by_contra hextra
    rw [hconfig, if_pos ⟨s, hs, Nat.le_of_not_lt hextra⟩] at hown
    obtain rfl := Except.ok.inj hown
    have hsource := hengaged.source (by rw [hasTile_eq_isSome]; exact Option.isSome_of_mem hs)
    exact absurd hsource (by simp)
  · intro hnot
    have hroom : ¬∃ s ∈ src.devices.shardId p.globalId,
        dst.devices.size ≤ s * leavesPerRoot src dst := by
      rintro ⟨s, hs, hextra⟩
      exact absurd (hnot s hs) (Nat.not_lt_of_le hextra)
    rw [if_neg hroom] at hconfig
    refine ⟨_, hconfig, ?_, ?_⟩
    · intro htile
      rw [Option.isSome_map, ← hasTile_eq_isSome]
      exact htile
    · intro htile
      rw [Option.isSome_map, ← hasTile_eq_isSome]
      exact htile

/-- There is an extra source shard exactly when the last one is extra. -/
theorem forall_notExtra_iff (hm : 1 ≤ src.devices.size) :
    (∀ p, NotExtra src dst p) ↔
      (src.devices.size - 1) * leavesPerRoot src dst < dst.devices.size := by
  constructor
  · intro h
    refine h ⟨.cpu, 0, src.devices.start + (src.devices.size - 1)⟩ _ ?_
    exact src.devices.shardId_start_add (by omega)
  · intro hlast p s hs
    have hlt := DeviceList.shardId_lt hs
    exact (Nat.mul_le_mul_right _ (by omega)).trans_lt hlast

/-- A processor has all the roles it is going to play exactly when it does not
hold a source shard without a group, and all processors have exactly when the
last source shard has a group. -/
theorem broadcast_engaged_iff (src dst : Sharding) (hm : 1 < src.devices.size)
    (hmn : src.devices.size < dst.devices.size) :
    (∀ p : Processor, BroadcastEngaged src dst p ↔ ∀ s ∈ src.devices.shardId p.globalId,
      s * ((dst.devices.size + src.devices.size - 1) / src.devices.size) < dst.devices.size) ∧
    ((∀ p : Processor, BroadcastEngaged src dst p) ↔
      (src.devices.size - 1) * ((dst.devices.size + src.devices.size - 1) / src.devices.size) <
        dst.devices.size) := by
  have hm' : 1 ≤ src.devices.size := by omega
  have hone (p : Processor) : BroadcastEngaged src dst p ↔ NotExtra src dst p :=
    broadcastEngaged_iff hm' (by omega) p
  refine ⟨hone, ?_⟩
  rw [forall_congr' hone]
  exact forall_notExtra_iff hm'

/-- Two source devices and five destination devices around them. -/
theorem broadcast_engaged_two_of_five :
    BroadcastEngaged ⟨[⟨8, 1, 0⟩, ⟨1, 2, 1⟩], ⟨1, 2⟩⟩ ⟨[⟨8, 1, 0⟩, ⟨1, 5, 1⟩], ⟨0, 5⟩⟩
      ⟨.cpu, 2, 2⟩ :=
  (broadcast_engaged_iff ⟨[⟨8, 1, 0⟩, ⟨1, 2, 1⟩], ⟨1, 2⟩⟩ ⟨[⟨8, 1, 0⟩, ⟨1, 5, 1⟩], ⟨0, 5⟩⟩
    (by decide) (by decide)).2.mpr (by decide) ⟨.cpu, 2, 2⟩

/-- Three source devices and four destination devices after them: the third
source device has no group, but it has a tile to send. -/
theorem not_broadcast_engaged_three_of_four :
    ¬ ∀ src dst : Sharding, 1 < src.devices.size → src.devices.size < dst.devices.size →
      ∀ p : Processor, BroadcastEngaged src dst p := by
  intro h
  obtain ⟨config, hconfig, hengaged⟩ :=
    h ⟨[⟨8, 1, 0⟩, ⟨1, 3, 1⟩], ⟨0, 3⟩⟩ ⟨[⟨8, 1, 0⟩, ⟨1, 4, 1⟩], ⟨3, 4⟩⟩ (by decide) (by decide)
      ⟨.cpu, 2, 2⟩
  obtain rfl : config = {} := Except.ok.inj (hconfig.symm.trans (by rfl))
  exact absurd (hengaged.source (by decide)) (by decide)

end Zuku
