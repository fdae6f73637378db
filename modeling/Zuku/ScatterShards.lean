import Zuku.ReshardCalls
import Zuku.TileBounds

/-!
# Scattering a replicated array

Both sides divide the number of destination shards by the number of source
devices.  The sender multiplies its id by the quotient and the receiver divides
by it, which pairs all shards up exactly when the division has no remainder.
-/

namespace Zuku

open Checked

def ReshardCall.key (call : ReshardCall) : ℕ × ℕ := (call.srcShardId, call.dstShardId)

/-- Every destination shard picks a source shard that exists, the pairs sent
are the pairs received, and each destination shard is in one of them. -/
def ScatterMatches [RealmBuild] (machine : Machine) (src dst : Sharding) : Prop :=
  ∃ calls, machine.reshard src dst = .ok calls ∧
    (∀ call ∈ calls.flatMap ReshardCalls.receives, call.srcShardId < src.devices.size) ∧
    {pair | pair ∈ (calls.flatMap ReshardCalls.sends).map ReshardCall.key} =
      {pair | pair ∈ (calls.flatMap ReshardCalls.receives).map ReshardCall.key} ∧
    ∀ shard < dst.devices.size,
      ((calls.flatMap ReshardCalls.sends).map ReshardCall.dstShardId).count shard = 1 ∧
      ((calls.flatMap ReshardCalls.receives).map ReshardCall.dstShardId).count shard = 1

/-- The pairing that both sides compute. -/
def scatterCall (shardsPerSource : ℕ) (bounds : ℕ → RealmShape) (dstShardId : ℕ) : ReshardCall :=
  ⟨dstShardId / shardsPerSource, dstShardId, bounds dstShardId, false⟩

theorem flatMap_range_blocks {α : Type} (m k : ℕ) (f : ℕ → α) :
    ((List.range m).flatMap fun s ↦ (List.range k).map fun j ↦ f (k * s + j)) =
      (List.range (m * k)).map f := by
  induction m with
  | zero => simp
  | succ m ih =>
      rw [List.range_succ, List.flatMap_append, ih, Nat.succ_mul, List.range_add, List.map_append,
        List.map_map]
      simp [Function.comp_def, Nat.mul_comm]

section

variable [RealmBuild] {src dst : Sharding}

theorem scatterShardsToLocalTarget_eq {p : Processor} {shard k : ℕ} {bounds : ℕ → RealmShape}
    (hbounds : ∀ shard < dst.devices.size, computeTileBounds shard dst = .ok (bounds shard))
    (hm : 0 < src.devices.size) (hk : 0 < k) (hdiv : dst.devices.size / src.devices.size = k)
    (hshard : dst.devices.shardId p.globalId = some shard) :
    scatterShardsToLocalTarget p src dst = .ok [scatterCall k bounds shard] := by
  have hlt := ((dst.devices.shardId_eq_some_iff _ _).mp hshard).1
  have htile := tile_eq_ok_iff.mpr ⟨hshard, hbounds shard hlt⟩
  simp only [scatterShardsToLocalTarget, htile, ok_bind, checkedDiv_of_pos hm, hdiv,
    checkedDiv_of_pos hk]
  rfl

theorem scatterShardsFromLocalSource_eq {p : Processor} {shard k : ℕ} {bounds : ℕ → RealmShape}
    (hbounds : ∀ shard < dst.devices.size, computeTileBounds shard dst = .ok (bounds shard))
    (hn : dst.devices.size = src.devices.size * k) (hm : 0 < src.devices.size)
    (hshard : src.devices.shardId p.globalId = some shard) :
    scatterShardsFromLocalSource p src dst =
      .ok ((List.range k).map fun j ↦ scatterCall k bounds (k * shard + j)) := by
  have hlt := ((src.devices.shardId_eq_some_iff _ _).mp hshard).1
  have hdiv : dst.devices.size / src.devices.size = k := by
    rw [hn, Nat.mul_div_cancel_left _ hm]
  simp only [scatterShardsFromLocalSource, checkedDiv_of_pos hm, ok_bind, hdiv, hshard,
    optionalValue_some]
  refine mapM_eq_ok_map fun j hj ↦ ?_
  have hj : j < k := List.mem_range.mp hj
  have hinside : k * shard + j < dst.devices.size := by
    calc
      k * shard + j < k * shard + k := by omega
      _ = (shard + 1) * k := by ring
      _ ≤ src.devices.size * k := Nat.mul_le_mul_right k hlt
      _ = dst.devices.size := hn.symm
  have hquot : (k * shard + j) / k = shard := by
    rw [Nat.mul_add_div (by omega), Nat.div_eq_of_lt hj, Nat.add_zero]
  rw [hbounds _ hinside]
  simp only [ok_bind, pure_eq_ok, scatterCall, hquot]

theorem hasTiles_of_tileable {sharding : Sharding} (h : sharding.Tileable)
    (hone : sharding.AtMostOneReplication) (hrank : SupportedRank sharding.realDims.length) :
    sharding.HasTiles :=
  ⟨sharding.tileBounds, fun _ hshard ↦ computeTileBounds_eq h hone hrank hshard⟩

theorem reshard_scatterShards {p : Processor} {config : ScatterShardsConfig}
    (h : determineShardingConfig p src dst = .ok (.scatterShards config)) :
    reshard p src dst = reshardScatterShards p src dst := by
  rw [reshard, h]
  rfl

theorem scatterMatches_of_dvd {machine : Machine} (hm : 0 < src.devices.size)
    (hn : 0 < dst.devices.size) (hsrc : machine.Hosts src.devices)
    (hdst : machine.Hosts dst.devices) (htiles : dst.HasTiles)
    (hconfig : ∀ p, ∃ config,
      determineShardingConfig p src dst = .ok (.scatterShards config))
    (hdvd : src.devices.size ∣ dst.devices.size) : ScatterMatches machine src dst := by
  obtain ⟨k, hk⟩ := hdvd
  have hkpos : 0 < k := Nat.pos_of_mul_pos_left (hk ▸ hn)
  have hdiv : dst.devices.size / src.devices.size = k := by
    rw [hk, Nat.mul_div_cancel_left _ hm]
  obtain ⟨bounds, hbounds⟩ := htiles
  obtain ⟨calls, hcalls, hsends, hreceives⟩ := machine.reshard_of_shards hsrc hdst
    (fun s ↦ (List.range k).map fun j ↦ scatterCall k bounds (k * s + j))
    (fun t ↦ [scatterCall k bounds t]) (by
      intro p
      obtain ⟨config, hp⟩ := hconfig p
      rw [reshard_scatterShards hp, reshardScatterShards, onTile_eq, onTile_eq]
      cases hs : src.devices.shardId p.globalId with
      | none =>
          cases ht : dst.devices.shardId p.globalId with
          | none => rfl
          | some t => simp [scatterShardsToLocalTarget_eq hbounds hm hkpos hdiv ht]
      | some s =>
          rw [scatterShardsFromLocalSource_eq hbounds hk hm hs]
          cases ht : dst.devices.shardId p.globalId with
          | none => rfl
          | some t => simp [scatterShardsToLocalTarget_eq hbounds hm hkpos hdiv ht])
  rw [flatMap_range_blocks, ← hk] at hsends
  rw [← List.map_eq_flatMap] at hreceives
  have hcount : ∀ shard < dst.devices.size,
      (((List.range dst.devices.size).map (scatterCall k bounds)).map
        ReshardCall.dstShardId).count shard = 1 := by
    intro shard hshard
    have hids : ((List.range dst.devices.size).map (scatterCall k bounds)).map
        ReshardCall.dstShardId = List.range dst.devices.size := by
      simp [List.map_map, Function.comp_def, scatterCall]
    rw [hids]
    exact List.count_eq_one_of_mem List.nodup_range (List.mem_range.mpr hshard)
  refine ⟨calls, hcalls, ?_, by rw [hsends, hreceives], fun shard hshard ↦ ?_⟩
  · intro call hcall
    rw [hreceives] at hcall
    obtain ⟨t, ht, rfl⟩ := List.mem_map.mp hcall
    have hlt : t < k * src.devices.size := by
      rw [Nat.mul_comm, ← hk]
      exact List.mem_range.mp ht
    exact Nat.div_lt_of_lt_mul hlt
  · rw [hsends, hreceives]
    exact ⟨hcount shard hshard, hcount shard hshard⟩

/-- The last destination shard finds its source shard only when nothing is
left over. -/
theorem dvd_of_scatterMatches {machine : Machine}
    (hn : 0 < dst.devices.size) (hdst : machine.Hosts dst.devices)
    (hconfig : ∀ p, ∃ config,
      determineShardingConfig p src dst = .ok (.scatterShards config))
    (h : ScatterMatches machine src dst) : src.devices.size ∣ dst.devices.size := by
  obtain ⟨calls, hcalls, hinside, -, -⟩ := h
  set last := dst.devices.size - 1 with hlast
  have hlt : last < dst.devices.size := by omega
  set p := machine.processor (dst.devices.start + last) with hp
  have hshard : dst.devices.shardId p.globalId = some last := by
    rw [hp, machine.globalId_eq, DeviceList.shardId_start_add _ hlt]
  have hid : dst.devices.start + last ∈ List.range machine.numProcessors :=
    List.mem_range.mpr (by unfold Machine.Hosts at hdst; omega)
  obtain ⟨own, hown, hrun⟩ := exists_of_mapM_eq_ok hcalls hid
  obtain ⟨config, hconfig⟩ := hconfig p
  rw [← hp, reshard_scatterShards hconfig, reshardScatterShards] at hrun
  obtain ⟨sends, -, hrun⟩ := bind_eq_ok_iff.mp hrun
  obtain ⟨receives, hreceives, hrun⟩ := bind_eq_ok_iff.mp hrun
  obtain rfl := Except.ok.inj hrun
  rw [onTile_eq, hshard, whenSome_some] at hreceives
  rw [scatterShardsToLocalTarget] at hreceives
  obtain ⟨⟨t, bounds⟩, htile, hreceives⟩ := bind_eq_ok_iff.mp hreceives
  obtain ⟨k, hk, hreceives⟩ := bind_eq_ok_iff.mp hreceives
  obtain ⟨s, hs, hreceives⟩ := bind_eq_ok_iff.mp hreceives
  obtain rfl := Except.ok.inj hreceives
  have ht := (tile_eq_ok_iff.mp htile).1
  rw [hshard, Option.some.injEq] at ht
  obtain ⟨-, hk⟩ := checkedDiv_eq_ok_iff.mp hk
  obtain ⟨hkpos, hs⟩ := checkedDiv_eq_ok_iff.mp hs
  have hsmall : s < src.devices.size := by
    refine hinside ⟨s, t, bounds, false⟩ (List.mem_flatMap.mpr ⟨_, hown, ?_⟩)
    exact List.mem_singleton_self _
  have hle : dst.devices.size ≤ src.devices.size * k := by
    have hlt : last < src.devices.size * k := by
      rw [← Nat.div_lt_iff_lt_mul hkpos, ht, hs]
      exact hsmall
    omega
  have hge : src.devices.size * k ≤ dst.devices.size := by
    rw [← hk]
    exact Nat.mul_div_le _ _
  exact ⟨k, by omega⟩

end

/-- A scatter from `m` source devices to `n` destination shards matches up
exactly when `m` divides `n`. -/
theorem scatter_matches_iff [RealmBuild] (machine : Machine) (src dst : Sharding)
    (hm : 1 ≤ src.devices.size) (hn : 1 ≤ dst.devices.size)
    (hsrc : machine.Hosts src.devices) (hdst : machine.Hosts dst.devices)
    (htiles : dst.HasTiles)
    (hconfig : ∀ p, ∃ config,
      determineShardingConfig p src dst = .ok (.scatterShards config)) :
    ScatterMatches machine src dst ↔ src.devices.size ∣ dst.devices.size :=
  ⟨dvd_of_scatterMatches hn hdst hconfig,
    scatterMatches_of_dvd hm hn hsrc hdst htiles hconfig⟩

/-- Two devices with a copy each scatter to four shards. -/
theorem scatter_matches_two_of_four :
    @ScatterMatches .rankFour ⟨6, fun id ↦ ⟨.test, id, id⟩, fun _ ↦ rfl⟩
      ⟨[⟨8, 1, 0⟩, ⟨1, 2, 1⟩], ⟨0, 2⟩⟩ ⟨[⟨8, 4, 0⟩], ⟨1, 4⟩⟩ := by
  let _ : RealmBuild := .rankFour
  exact (scatter_matches_iff ⟨6, fun id ↦ ⟨.test, id, id⟩, fun _ ↦ rfl⟩
    ⟨[⟨8, 1, 0⟩, ⟨1, 2, 1⟩], ⟨0, 2⟩⟩ ⟨[⟨8, 4, 0⟩], ⟨1, 4⟩⟩ (by decide) (by decide)
    (by unfold Machine.Hosts; decide) (by unfold Machine.Hosts; decide)
    (hasTiles_of_tileable (by decide) (by decide) (Or.inl (by decide)))
    fun p ↦ ⟨_, rfl⟩).mpr (by decide)

/-- With two source devices and three destination shards, the last shard asks
for a source shard that does not exist. -/
theorem not_scatter_matches_two_of_three :
    ¬ ∀ (_ : RealmBuild) (machine : Machine) (src dst : Sharding), 1 ≤ src.devices.size →
      1 ≤ dst.devices.size → machine.Hosts src.devices → machine.Hosts dst.devices →
      dst.HasTiles →
      (∀ p, ∃ config, determineShardingConfig p src dst = .ok (.scatterShards config)) →
      ScatterMatches machine src dst := by
  intro h
  let _ : RealmBuild := .rankFour
  have hmatch := h .rankFour ⟨3, fun id ↦ ⟨.test, id, id⟩, fun _ ↦ rfl⟩
    ⟨[⟨3, 1, 0⟩, ⟨1, 2, 1⟩], ⟨0, 2⟩⟩ ⟨[⟨3, 3, 0⟩], ⟨0, 3⟩⟩ (by decide) (by decide)
    (by unfold Machine.Hosts; decide) (by unfold Machine.Hosts; decide)
    (hasTiles_of_tileable (by decide) (by decide) (Or.inl (by decide))) fun p ↦ ⟨_, rfl⟩
  have hdvd := dvd_of_scatterMatches (by decide) (by unfold Machine.Hosts; decide)
    (fun p ↦ ⟨_, rfl⟩) hmatch
  exact absurd hdvd (by decide)

end Zuku
