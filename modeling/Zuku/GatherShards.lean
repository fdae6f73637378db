import Zuku.GatherBounds
import Zuku.ReshardCalls
import Zuku.Library.Assembly

/-!
# Gathering into a replicated array

Every source shard sends one rectangle to all destination shards.  The
rectangles of all source shards cut the array into disjoint pieces, so that
every replica is complete after its copies, in whatever order they run.
-/

namespace Zuku

open Checked IndexedWrites MixedRadix Assembly

/-! ## The calls -/

def gatherSends (numTargets : ℕ) (bounds : ℕ → RealmShape) (shard : ℕ) : List ReshardCall :=
  (List.range numTargets).map fun target ↦ ⟨shard, target, bounds shard, false⟩

def gatherReceives (numSources : ℕ) (bounds : ℕ → RealmShape) (target : ℕ) : List ReshardCall :=
  (List.range numSources).map fun shard ↦ ⟨shard, target, bounds shard, false⟩

/-- The configuration of a processor, from the rectangles of all source shards. -/
def gatherConfig (p : Processor) (src dst : Sharding) (bounds : ℕ → RealmShape) :
    GatherShardsConfig :=
  ⟨src.devices.shardId p.globalId, dst.devices.shardId p.globalId,
    (src.devices.shardId p.globalId).map bounds, (List.range src.devices.size).map bounds⟩

theorem gatherBounds_eq {src : Sharding} (dst : Sharding) {shardBounds : ℕ → Exec RealmShape}
    {bounds : ℕ → RealmShape} (h : ∀ s < src.devices.size, shardBounds s = .ok (bounds s))
    (p : Processor) : gatherBounds p src dst shardBounds = .ok (gatherConfig p src dst bounds) := by
  have hall : (List.range src.devices.size).mapM shardBounds =
      .ok ((List.range src.devices.size).map bounds) :=
    mapM_eq_ok_map fun s hs ↦ h s (List.mem_range.mp hs)
  rw [gatherBounds, gatherConfig, hall]
  cases hs : src.devices.shardId p.globalId with
  | none => rfl
  | some s =>
      rw [whenSome_some, h s ((src.devices.shardId_eq_some_iff _ _).mp hs).1]
      rfl

theorem reshardGatherShards_eq (p : Processor) (src dst : Sharding) (bounds : ℕ → RealmShape) :
    reshardGatherShards p (gatherConfig p src dst bounds) src dst =
      .ok ⟨(src.devices.shardId p.globalId).elim [] (gatherSends dst.devices.size bounds),
        (dst.devices.shardId p.globalId).elim [] (gatherReceives src.devices.size bounds)⟩ := by
  have hsends : onTile p src (if (gatherConfig p src dst bounds).srcShard.isNone then
        throw (.runtimeError
          "ReshardGatherShards: unexpected mismatch between source tile and config on ")
      else gatherShardsFromLocalSource p (gatherConfig p src dst bounds) src dst) =
      .ok ((src.devices.shardId p.globalId).elim [] (gatherSends dst.devices.size bounds)) := by
    rw [onTile_eq]
    cases hs : src.devices.shardId p.globalId with
    | none => rfl
    | some s =>
        simp only [whenSome_some, gatherConfig, hs, Option.isNone_some, Bool.false_eq_true,
          if_false, gatherShardsFromLocalSource, optionalValue_some, ok_bind, Option.map_some,
          Option.elim_some]
        exact mapM_eq_ok_map fun t _ ↦ rfl
  have hreceives : onTile p dst (if (gatherConfig p src dst bounds).dstShard.isNone then
        throw (.runtimeError
          "ReshardGatherShards: unexpected mismatch between destination tile and config on ")
      else gatherShardsToLocalTarget src (gatherConfig p src dst bounds)) =
      .ok ((dst.devices.shardId p.globalId).elim [] (gatherReceives src.devices.size bounds)) := by
    rw [onTile_eq]
    cases ht : dst.devices.shardId p.globalId with
    | none => rfl
    | some t =>
        simp only [whenSome_some, gatherConfig, ht, Option.isNone_some, Bool.false_eq_true,
          if_false, gatherShardsToLocalTarget, optionalValue_some, ok_bind, Option.elim_some]
        refine mapM_eq_ok_map fun s hs ↦ ?_
        rw [vectorAt_of_getElem? (a := bounds s) (by
          rw [List.getElem?_map, List.getElem?_range (List.mem_range.mp hs)]
          rfl)]
        rfl
  rw [reshardGatherShards, hsends, ok_bind, hreceives]
  rfl

/-- What is sent is what is received, in another order. -/
theorem gatherSends_perm_gatherReceives (n m : ℕ) (bounds : ℕ → RealmShape) :
    ((List.range n).flatMap (gatherSends m bounds)).Perm
      ((List.range m).flatMap (gatherReceives n bounds)) := by
  rw [← Multiset.coe_eq_coe]
  simp only [← Multiset.coe_bind, gatherSends, gatherReceives, ← Multiset.map_coe]
  exact Multiset.bind_map_comm _ _

/-! ## The rectangles -/

/-- The rectangles that the source shards are responsible for. -/
structure Responsible (src : Sharding) (bounds : ℕ → RealmShape) : Prop where
  subset : ∀ s < src.devices.size, ∀ point,
    (bounds s).Contains point → (src.tileBounds s).Contains point
  existsUnique : ∀ point, src.arrayShape.Contains point →
    ∃! s, s < src.devices.size ∧ (bounds s).Contains point

theorem chooseSliceDim_some {replication : ℕ} {dims : List ShardingDim} {k chosen : ℕ}
    {found : Option ℕ} (h : chooseSliceDim replication dims k found = .ok (some chosen)) :
    found = some chosen ∨ ∃ j dim, chosen = k + j ∧
      (dims.filter fun dim ↦ !dim.isReplication)[j]? = some dim ∧
        dim.sharding * replication ∣ dim.size := by
  induction dims generalizing k found with
  | nil => exact Or.inl (Except.ok.inj h)
  | cons dim dims ih =>
      unfold chooseSliceDim at h
      cases hr : dim.isReplication with
      | true =>
          rw [if_pos hr] at h
          rw [List.filter_cons_of_neg (by simp [hr])]
          exact ih h
      | false =>
          rw [if_neg (by simp [hr])] at h
          rw [List.filter_cons_of_pos (by simp [hr])]
          have hrest : ∀ {found' : Option ℕ},
              chooseSliceDim replication dims (k + 1) found' = .ok (some chosen) →
              found' = some chosen ∨ ∃ j d, chosen = k + j ∧
                (dim :: dims.filter fun d ↦ !d.isReplication)[j]? = some d ∧
                  d.sharding * replication ∣ d.size := by
            intro found' hfound'
            rcases ih hfound' with heq | ⟨j, d, rfl, hd, hdvd⟩
            · exact Or.inl heq
            · exact Or.inr ⟨j + 1, d, by omega, by simpa using hd, hdvd⟩
          cases found with
          | some chosen' => exact hrest h
          | none =>
              obtain ⟨remainder, hmod, h⟩ := bind_eq_ok_iff.mp h
              rcases hrest h with heq | hexists
              · right
                split at heq
                case isTrue hzero =>
                  obtain rfl : k = chosen := by simpa using heq
                  obtain ⟨-, hmod⟩ := checkedMod_eq_ok_iff.mp hmod
                  exact ⟨0, dim, rfl, rfl, Nat.dvd_of_mod_eq_zero (hmod.trans hzero)⟩
                case isFalse => simp at heq
              · exact Or.inr hexists

theorem sliceable_of_choice {src : Sharding} (h : src.Tileable) (hone : src.AtMostOneReplication)
    {d : ShardingDim} {dim : ℕ}
    (hd : src.dims[src.dims.findIdx ShardingDim.isReplication]? = some d)
    (hdim : chooseSliceDim d.sharding src.dims 0 none = .ok (some dim)) :
    Sliceable src (src.dims.findIdx ShardingDim.isReplication) d.sharding dim := by
  have hreplication : d.isReplication = true := by
    obtain ⟨hlt, rfl⟩ := List.getElem?_eq_some_iff.mp hd
    exact List.findIdx_getElem
  refine ⟨h, hone, ⟨d, hd, hreplication, rfl⟩, ?_⟩
  rcases chooseSliceDim_some hdim with hnone | ⟨j, e, rfl, he, hdvd⟩
  · simp at hnone
  · rw [Nat.zero_add]
    exact ⟨e, he, hdvd⟩

theorem sliceDim_tileBounds {sharding : Sharding} {c r k : ℕ} (h : Sliceable sharding c r k)
    (s : ℕ) :
    sliceDim (sharding.tileBounds s) ((sharding.tileIndex s).getD c 0) r k =
      .ok (sharding.slicedBounds c r k s) := by
  obtain ⟨d, w, hd, -, -⟩ := h.exists_width
  have hb := h.bounds_getElem? hd s
  have hk : k < (sharding.tileBounds s).rank := by
    rw [Sharding.tileBounds, if_neg h.realDims_ne_nil]
    exact (List.getElem?_eq_some_iff.mp hd).1
  have hr : (r : ℤ) ≠ 0 := by exact_mod_cast h.replication_pos.ne'
  rw [sliceDim, RealmShape.read, if_pos hk, hb]
  simp only [ok_bind, checkedTdiv_of_ne hr, pure_eq_ok, Sharding.slicedBounds, sliceInterval,
    List.getD_eq_getElem?_getD, hb, Option.getD_some]

section

variable [RealmBuild] {src dst : Sharding}

theorem gatherShards_branch {p : Processor} {config : GatherShardsConfig}
    (h : determineShardingConfig p src dst = .ok (.gatherShards config)) :
    (src.fullySharded && dst.isReplicated) = true ∧ getGatherShardsConfig p src dst = .ok config ∨
      (src.fullySharded && dst.isReplicated) = false ∧
        determinePartialToReplicatedConfig p src dst = .ok (.gatherShards config) := by
  cases plannedBy_of_eq_ok h with
  | gatherSharded hbranch hrun => exact Or.inl ⟨hbranch, hrun⟩
  | gatherPartial hbranch hrun => exact Or.inr ⟨hbranch, hrun⟩

/-- A plan that names the rectangle of the first shard is for a supported rank. -/
theorem supportedRank_of_gatherBounds (h : src.Tileable) (hone : src.AtMostOneReplication)
    {p : Processor} {config : GatherShardsConfig} {shardBounds : ℕ → Exec RealmShape}
    (hrun : gatherBounds p src dst shardBounds = .ok config)
    (hbounds : ∀ s rect, shardBounds s = .ok rect → ∃ tile, computeTileBounds s src = .ok tile) :
    SupportedRank src.realDims.length := by
  obtain ⟨_, -, hrun⟩ := bind_eq_ok_iff.mp hrun
  obtain ⟨rects, hrects, -⟩ := bind_eq_ok_iff.mp hrun
  have hpos := devices_pos h.sharding_pos h.devices_eq
  obtain ⟨rect, -, hrect⟩ := exists_of_mapM_eq_ok hrects (List.mem_range.mpr hpos)
  obtain ⟨tile, htile⟩ := hbounds 0 rect hrect
  rw [← numRealDims_eq h hone]
  exact supportedRank_of_computeTileBounds htile

def slicedTile (src : Sharding) (replication dim shard : ℕ) : Exec RealmShape := do
  let unslicedBounds ← computeTileBounds shard src
  let index ← computeTileIndex shard src
  let replicaNumber ← vectorAt index (src.dims.findIdx ShardingDim.isReplication)
  sliceDim unslicedBounds replicaNumber replication dim

theorem partialToReplicated_branch {p : Processor} {config : GatherShardsConfig}
    (h : determinePartialToReplicatedConfig p src dst = .ok (.gatherShards config)) :
    ∃ d dim, src.dims[src.dims.findIdx ShardingDim.isReplication]? = some d ∧
      chooseSliceDim d.sharding src.dims 0 none = .ok (some dim) ∧
      gatherBounds p src dst (slicedTile src d.sharding dim) = .ok config := by
  obtain ⟨d, hd, h⟩ := bind_eq_ok_iff.mp h
  obtain ⟨_ | dim, hdim, h⟩ := bind_eq_ok_iff.mp h
  · simp at h
  · obtain ⟨_, hrun, h⟩ := bind_eq_ok_iff.mp h
    obtain rfl : _ = config := by simpa using h
    exact ⟨d, dim, vectorAt_eq_ok_iff.mp hd, hdim, hrun⟩

theorem slicedTile_eq {c r k : ℕ} (h : Sliceable src c r k)
    (hc : c = src.dims.findIdx ShardingDim.isReplication)
    (hrank : SupportedRank src.realDims.length) {s : ℕ} (hs : s < src.devices.size) :
    slicedTile src r k s = .ok (src.slicedBounds c r k s) := by
  obtain ⟨d, hd, -, -⟩ := h.replicated
  obtain ⟨hlt, -⟩ := List.getElem?_eq_some_iff.mp hd
  have hlt : c < (src.tileIndex s).length := by simpa using hlt
  rw [slicedTile, computeTileBounds_eq h.tileable h.one hrank hs, ok_bind,
    h.tileable.computeTileIndex_eq, ok_bind, ← hc,
    vectorAt_of_getElem? (List.getElem?_eq_getElem hlt), ok_bind, ← List.getD_eq_getElem _ 0 hlt]
  exact sliceDim_tileBounds h s

/-- The rectangles do not depend on the processor. -/
theorem exists_responsible (h : src.Tileable) (hone : src.AtMostOneReplication)
    (hconfig : ∀ p, ∃ config, determineShardingConfig p src dst = .ok (.gatherShards config)) :
    SupportedRank src.realDims.length ∧ ∃ bounds, Responsible src bounds ∧ ∀ p,
      determineShardingConfig p src dst = .ok (.gatherShards (gatherConfig p src dst bounds)) := by
  obtain ⟨config₀, hconfig₀⟩ := hconfig ⟨.test, 0, 0⟩
  rcases gatherShards_branch hconfig₀ with ⟨hfull, hrun⟩ | ⟨hincomplete, hrun⟩
  · have hrank := supportedRank_of_gatherBounds h hone hrun fun s rect hrect ↦ ⟨rect, hrect⟩
    refine ⟨hrank, src.tileBounds, ⟨fun _ _ _ hpoint ↦ hpoint,
      fun point ↦ existsUnique_tile h ((Bool.and_eq_true _ _).mp hfull).1⟩, fun p ↦ ?_⟩
    obtain ⟨config, hp⟩ := hconfig p
    rcases gatherShards_branch hp with ⟨-, hrun⟩ | ⟨hincomplete, -⟩
    · have heq := gatherBounds_eq dst (fun s ↦ computeTileBounds_eq h hone hrank) p
      rw [← getGatherShardsConfig, hrun] at heq
      rw [hp, Except.ok.inj heq]
    · rw [hfull] at hincomplete
      exact absurd hincomplete (by decide)
  · obtain ⟨d, dim, hd, hdim, hrun⟩ := partialToReplicated_branch hrun
    have hslice := sliceable_of_choice h hone hd hdim
    have hrank := supportedRank_of_gatherBounds h hone hrun fun s rect hrect ↦ by
      obtain ⟨tile, htile, -⟩ := bind_eq_ok_iff.mp hrect
      exact ⟨tile, htile⟩
    refine ⟨hrank, _, ⟨fun s hs point ↦ hslice.slicedBounds_subset hs,
      fun point ↦ hslice.existsUnique_slice⟩, fun p ↦ ?_⟩
    obtain ⟨config, hp⟩ := hconfig p
    rcases gatherShards_branch hp with ⟨hfull, -⟩ | ⟨-, hrun⟩
    · rw [hfull] at hincomplete
      exact absurd hincomplete (by decide)
    · obtain ⟨d', dim', hd', hdim', hrun⟩ := partialToReplicated_branch hrun
      obtain rfl : d = d' := Option.some.inj (hd.symm.trans hd')
      obtain rfl : dim = dim' := by simpa using hdim.symm.trans hdim'
      have heq := gatherBounds_eq dst (fun s ↦ slicedTile_eq hslice rfl hrank) p
      rw [hrun] at heq
      rw [hp, Except.ok.inj heq]

theorem reshard_gatherShards {p : Processor} {config : GatherShardsConfig}
    (h : determineShardingConfig p src dst = .ok (.gatherShards config)) :
    reshard p src dst = reshardGatherShards p config src dst := by
  rw [reshard, h]
  rfl

end

/-! ## The replicas -/

/-- A copy into the target instance, from the source instances. -/
def copyPatch {α : Type} (tiles : ℕ → List ℤ → α) (call : ReshardCall) : Patch (List ℤ) α :=
  ⟨{point | call.bounds.Contains point}, tiles call.srcShardId⟩

/-- The source instances hold the global array on their own tiles. -/
def HoldsGlobal {α : Type} (src : Sharding) (global : List ℤ → α) (tiles : ℕ → List ℤ → α) :
    Prop :=
  ∀ s < src.devices.size, ∀ point, (src.tileBounds s).Contains point →
    tiles s point = global point

/-- What the processor with destination shard `target` receives. -/
structure ReplicaCorrect (src dst : Sharding) (target : ℕ) (received : List ReshardCall) :
    Prop where
  target_eq : ∀ call ∈ received, call.dstShardId = target
  disjoint : received.Pairwise fun call call' ↦
    ∀ point, ¬(call.bounds.Contains point ∧ call'.bounds.Contains point)
  covers : ∀ point, dst.arrayShape.Contains point ↔
    ∃ call ∈ received, call.bounds.Contains point
  assembled : ∀ {α : Type} (global : List ℤ → α) (tiles : ℕ → List ℤ → α) (replica : List ℤ → α),
    HoldsGlobal src global tiles → ∀ order : List ReshardCall, order.Perm received →
      ∀ point, dst.arrayShape.Contains point →
        applyAll (order.map (copyPatch tiles)) replica point = global point

structure GatherCorrect [RealmBuild] (machine : Machine) (src dst : Sharding) : Prop where
  matched : ∃ calls, machine.reshard src dst = .ok calls ∧
    (calls.flatMap ReshardCalls.sends).Perm (calls.flatMap ReshardCalls.receives) ∧
    ∀ call ∈ calls.flatMap ReshardCalls.sends, ∃ rect,
      computeTileBounds call.srcShardId src = .ok rect ∧
        ∀ point, call.bounds.Contains point → rect.Contains point
  replicas : ∀ target < dst.devices.size, ∃ calls,
    reshard (machine.processor (dst.devices.start + target)) src dst = .ok calls ∧
      ReplicaCorrect src dst target calls.receives

theorem arrayShape_congr {src dst : Sharding}
    (h : src.realDims.map ShardingDim.size = dst.realDims.map ShardingDim.size) :
    src.arrayShape = dst.arrayShape := by
  have hlen : src.realDims.length = dst.realDims.length := by
    simpa using congrArg List.length h
  have hnil : src.realDims = [] ↔ dst.realDims = [] := by
    rw [← List.length_eq_zero_iff, ← List.length_eq_zero_iff, hlen]
  have hbounds : ∀ sharding : Sharding,
      (sharding.realDims.map fun dim ↦ ((0 : ℤ), (dim.size : ℤ) - 1)) =
        (sharding.realDims.map ShardingDim.size).map fun size : ℕ ↦ ((0 : ℤ), (size : ℤ) - 1) := by
    intro sharding
    rw [List.map_map]
    rfl
  unfold Sharding.arrayShape
  simp only [hnil, hlen, hbounds, h]

theorem replicaCorrect_gatherReceives {src dst : Sharding} {bounds : ℕ → RealmShape}
    (h : src.Tileable) (hbounds : Responsible src bounds)
    (hshape : src.arrayShape = dst.arrayShape) (target : ℕ) :
    ReplicaCorrect src dst target (gatherReceives src.devices.size bounds target) := by
  have hinside : ∀ s < src.devices.size, ∀ point, (bounds s).Contains point →
      src.arrayShape.Contains point := fun s hs point hpoint ↦
    arrayShape_contains_of_tile h hs (hbounds.subset s hs point hpoint)
  have hcovers : ∀ point, dst.arrayShape.Contains point ↔
      ∃ call ∈ gatherReceives src.devices.size bounds target, call.bounds.Contains point := by
    intro point
    rw [← hshape]
    constructor
    · intro hpoint
      obtain ⟨s, ⟨hs, hcontains⟩, -⟩ := hbounds.existsUnique point hpoint
      exact ⟨_, List.mem_map_of_mem (List.mem_range.mpr hs), hcontains⟩
    · rintro ⟨call, hcall, hcontains⟩
      obtain ⟨s, hs, rfl⟩ := List.mem_map.mp hcall
      exact hinside s (List.mem_range.mp hs) point hcontains
  refine ⟨fun call hcall ↦ ?_, ?_, hcovers, ?_⟩
  · obtain ⟨s, -, rfl⟩ := List.mem_map.mp hcall
    rfl
  · refine List.pairwise_map.mpr (List.nodup_range.imp_of_mem fun {s t} hs ht hne ↦ ?_)
    rintro point ⟨hpoint, hpoint'⟩
    have hs := List.mem_range.mp hs
    have ht := List.mem_range.mp ht
    exact hne ((hbounds.existsUnique point (hinside s hs point hpoint)).unique
      ⟨hs, hpoint⟩ ⟨ht, hpoint'⟩)
  · intro α global tiles replica hholds order horder point hpoint
    apply applyAll_eq_of_covered
    · intro patch hpatch hmem
      obtain ⟨call, hcall, rfl⟩ := List.mem_map.mp hpatch
      obtain ⟨s, hs, rfl⟩ := List.mem_map.mp (horder.mem_iff.mp hcall)
      have hs := List.mem_range.mp hs
      exact hholds s hs point (hbounds.subset s hs point hmem)
    · obtain ⟨call, hcall, hcontains⟩ := (hcovers point).mp hpoint
      exact ⟨_, List.mem_map_of_mem (horder.mem_iff.mpr hcall), hcontains⟩

/-- Whenever the planner gathers, sends and receives agree, every source shard
sends from its own tile, and every replica is assembled completely. -/
theorem gather_correct [RealmBuild] (machine : Machine) (src dst : Sharding)
    (h : src.Tileable) (hone : src.AtMostOneReplication)
    (hsame : src.realDims.map ShardingDim.size = dst.realDims.map ShardingDim.size)
    (hsrc : machine.Hosts src.devices) (hdst : machine.Hosts dst.devices)
    (hconfig : ∀ p, ∃ config, determineShardingConfig p src dst = .ok (.gatherShards config)) :
    GatherCorrect machine src dst := by
  obtain ⟨hrank, bounds, hbounds, hplan⟩ := exists_responsible h hone hconfig
  have hreshard : ∀ p, reshard p src dst =
      .ok ⟨(src.devices.shardId p.globalId).elim [] (gatherSends dst.devices.size bounds),
        (dst.devices.shardId p.globalId).elim [] (gatherReceives src.devices.size bounds)⟩ :=
    fun p ↦ by rw [reshard_gatherShards (hplan p), reshardGatherShards_eq]
  refine ⟨?_, fun target htarget ↦ ?_⟩
  · obtain ⟨calls, hcalls, hsends, hreceives⟩ :=
      machine.reshard_of_shards hsrc hdst _ _ hreshard
    refine ⟨calls, hcalls, ?_, fun call hcall ↦ ?_⟩
    · rw [hsends, hreceives]
      exact gatherSends_perm_gatherReceives _ _ bounds
    · rw [hsends] at hcall
      obtain ⟨s, hs, hcall⟩ := List.mem_flatMap.mp hcall
      obtain ⟨t, -, rfl⟩ := List.mem_map.mp hcall
      have hs := List.mem_range.mp hs
      exact ⟨src.tileBounds s, computeTileBounds_eq h hone hrank hs, hbounds.subset s hs⟩
  · refine ⟨_, hreshard _, ?_⟩
    rw [machine.globalId_eq, dst.devices.shardId_start_add htarget]
    exact replicaCorrect_gatherReceives h hbounds (arrayShape_congr hsame) target

/-- A partially replicated array over twelve devices, permuted and with the
replication dimension in the middle, gathered onto three of them. -/
theorem gather_correct_partial :
    @GatherCorrect .rankFour ⟨12, fun id ↦ ⟨.gpu, id, id⟩, fun _ ↦ rfl⟩
      ⟨[⟨8, 2, 2⟩, ⟨1, 2, 0⟩, ⟨9, 3, 1⟩], ⟨0, 12⟩⟩
      ⟨[⟨8, 1, 0⟩, ⟨9, 1, 1⟩, ⟨1, 3, 2⟩], ⟨4, 3⟩⟩ := by
  let _ : RealmBuild := .rankFour
  have hslice : Sliceable ⟨[⟨8, 2, 2⟩, ⟨1, 2, 0⟩, ⟨9, 3, 1⟩], ⟨0, 12⟩⟩ 1 2 0 :=
    ⟨by decide, by decide, ⟨⟨1, 2, 0⟩, by decide⟩, ⟨⟨8, 2, 2⟩, by decide⟩⟩
  refine gather_correct ⟨12, fun id ↦ ⟨.gpu, id, id⟩, fun _ ↦ rfl⟩
    ⟨[⟨8, 2, 2⟩, ⟨1, 2, 0⟩, ⟨9, 3, 1⟩], ⟨0, 12⟩⟩ ⟨[⟨8, 1, 0⟩, ⟨9, 1, 1⟩, ⟨1, 3, 2⟩], ⟨4, 3⟩⟩
    (by decide) (by decide) (by decide) (by unfold Machine.Hosts; decide)
    (by unfold Machine.Hosts; decide) fun p ↦ ?_
  have hbranch : determineShardingConfig p ⟨[⟨8, 2, 2⟩, ⟨1, 2, 0⟩, ⟨9, 3, 1⟩], ⟨0, 12⟩⟩
      ⟨[⟨8, 1, 0⟩, ⟨9, 1, 1⟩, ⟨1, 3, 2⟩], ⟨4, 3⟩⟩ =
      gatherBounds p ⟨[⟨8, 2, 2⟩, ⟨1, 2, 0⟩, ⟨9, 3, 1⟩], ⟨0, 12⟩⟩
        ⟨[⟨8, 1, 0⟩, ⟨9, 1, 1⟩, ⟨1, 3, 2⟩], ⟨4, 3⟩⟩ (slicedTile _ 2 0) >>=
        fun config ↦ pure (.gatherShards config) := rfl
  rw [hbranch, gatherBounds_eq _ (fun s ↦ slicedTile_eq hslice rfl (Or.inl (by decide)))]
  exact ⟨_, rfl⟩

end Zuku
