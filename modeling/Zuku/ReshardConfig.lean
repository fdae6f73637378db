import Zuku.TiledArray
import Zuku.ReshardBroadcast

/-!
# Reshard configurations

What `DetermineShardingConfig` tells one processor to do for a pair of
shardings, and the calls of the reshard manager that follow from it.
-/

namespace Zuku

open Checked

/-! ## Scatter-gather -/

structure SliceConfig where
  srcShard : ℕ
  dstShard : ℕ
  bounds : RealmShape
  deriving DecidableEq, Repr

structure ScatterGatherConfig where
  fromSource : List SliceConfig := []
  toTarget : List SliceConfig := []
  deriving DecidableEq, Repr

/-- The coordinates are read and written at the position among the dimensions
with a tile, not at the position of the dimension. -/
def makeTileBoxLoop (index : List ℕ) : ℕ → List ShardingDim → RealmShape → Exec RealmShape
  | _, [], bounds => pure bounds
  | boxDim, dim :: dims, bounds => do
      let tileSize ← checkedDiv dim.size dim.sharding
      -- skip replicated dimension
      if 0 < tileSize then do
        let i ← vectorAt index boxDim
        let bounds ← bounds.write (i * tileSize) (i * tileSize + tileSize - 1)
        makeTileBoxLoop index (boxDim + 1) dims bounds
      else makeTileBoxLoop index boxDim dims bounds

def makeTileBox [RealmBuild] (index : List ℕ) (sharding : Sharding) : Exec RealmShape := do
  let numBoxDims :=
    if sharding.isPartiallyReplicated then sharding.dims.length - 1 else sharding.dims.length
  let rank ← selectRank numBoxDims "unsupported no. dims"
  makeTileBoxLoop index 0 sharding.dims ⟨rank, []⟩

/-- The slice of a shard on the side with the larger factor: its own box, and
the shard of the other side that its index divided by the number of slices names. -/
def foldedSlice [RealmBuild] (dim numSlices shard : ℕ) (fine coarse : Sharding) :
    Exec (ℕ × RealmShape) := do
  let index ← computeTileIndex shard fine
  let bounds ← makeTileBox index fine
  let i ← vectorAt index dim
  let quotient ← checkedDiv i numSlices
  let index ← vectorSet index dim quotient
  let partner ← computeTileShard index coarse
  pure (partner, bounds)

/-- The slices of a shard on the side with the smaller factor: one for each
shard of the other side whose index it multiplies out to. -/
def unfoldedSlices [RealmBuild] (dim numSlices shard : ℕ) (fine coarse : Sharding) :
    Exec (List (ℕ × RealmShape)) := do
  let index ← computeTileIndex shard coarse
  let i ← vectorAt index dim
  let start := i * numSlices
  (List.range numSlices).mapM fun slice ↦ do
    let index ← vectorSet index dim (start + slice)
    let bounds ← makeTileBox index fine
    let partner ← computeTileShard index fine
    pure (partner, bounds)

/-- The slice sizes and the offset of the source slice are computed and never
used, but they divide. -/
def getScatterGatherConfig [RealmBuild] (dim : ℕ) (srcShard dstShard : Option ℕ)
    (src dst : Sharding) : Exec ScatterGatherConfig := do
  let srcDim ← vectorAt src.dims dim
  let dstDim ← vectorAt dst.dims dim
  assertThat (srcDim.sharding ≠ dstDim.sharding)
  if dstDim.sharding < srcDim.sharding then do
    let numSlicesPerDest ← checkedDiv srcDim.sharding dstDim.sharding
    let _sliceSize ← checkedDiv srcDim.size srcDim.sharding
    let fromSource ← whenSome srcShard [] fun srcShard ↦ do
      let (dstShard, bounds) ← foldedSlice dim numSlicesPerDest srcShard src dst
      let _offset ← checkedMod srcShard numSlicesPerDest
      pure [⟨srcShard, dstShard, bounds⟩]
    -- we are going to receive from multiple sources
    let toTarget ← whenSome dstShard [] fun dstShard ↦ do
      let slices ← unfoldedSlices dim numSlicesPerDest dstShard src dst
      pure (slices.map fun (srcShard, bounds) ↦ ⟨srcShard, dstShard, bounds⟩)
    pure ⟨fromSource, toTarget⟩
  else do
    let numSlicesPerSource ← checkedDiv dstDim.sharding srcDim.sharding
    let _sliceSize ← checkedDiv dstDim.size dstDim.sharding
    let toTarget ← whenSome dstShard [] fun dstShard ↦ do
      let (srcShard, bounds) ← foldedSlice dim numSlicesPerSource dstShard dst src
      pure [⟨srcShard, dstShard, bounds⟩]
    let fromSource ← whenSome srcShard [] fun srcShard ↦ do
      let slices ← unfoldedSlices dim numSlicesPerSource srcShard dst src
      pure (slices.map fun (dstShard, bounds) ↦ ⟨srcShard, dstShard, bounds⟩)
    pure ⟨fromSource, toTarget⟩

/-! ## Gathering and scattering whole tiles -/

structure GatherShardsConfig where
  srcShard : Option ℕ
  dstShard : Option ℕ
  sourceToTargetBounds : Option RealmShape
  targetFromSourceBounds : List RealmShape
  deriving DecidableEq, Repr

structure ScatterShardsConfig where
  dstShard : Option ℕ
  sender : Bool := false
  deriving DecidableEq, Repr

/-- The bounds of all source shards, and those of the shard of this processor. -/
def gatherBounds (p : Processor) (src dst : Sharding) (shardBounds : ℕ → Exec RealmShape) :
    Exec GatherShardsConfig := do
  let srcShard := src.devices.shardId p.globalId
  let destBounds ← whenSome srcShard none fun shard ↦ do
    let bounds ← shardBounds shard
    pure (some bounds)
  let sourceBounds ← (List.range src.devices.size).mapM shardBounds
  pure ⟨srcShard, dst.devices.shardId p.globalId, destBounds, sourceBounds⟩

def getGatherShardsConfig [RealmBuild] (p : Processor) (src dst : Sharding) :
    Exec GatherShardsConfig :=
  gatherBounds p src dst fun shard ↦ computeTileBounds shard src

def getScatterShardsConfig (p : Processor) (src dst : Sharding) : ScatterShardsConfig :=
  ⟨dst.devices.shardId p.globalId, src.devices.contains p.globalId⟩

def sliceDim (rect : RealmShape) (sliceNumber totalSlices dim : ℕ) : Exec RealmShape := do
  let (lo, hi) ← rect.read dim
  let extent := hi - lo + 1
  let sliceSize ← checkedTdiv extent totalSlices
  let lo := lo + sliceSize * sliceNumber
  pure { rect with bounds := rect.bounds.set dim (lo, lo + sliceSize - 1) }

/-- The first real dimension that can be cut by the replication factor as
well, counted among the real dimensions. -/
def chooseSliceDim (replication : ℕ) : List ShardingDim → ℕ → Option ℕ → Exec (Option ℕ)
  | [], _, sliceDim => pure sliceDim
  | dim :: dims, dimNumber, sliceDim =>
      if dim.isReplication then chooseSliceDim replication dims dimNumber sliceDim
      else
        match sliceDim with
        | some sliceDim => chooseSliceDim replication dims (dimNumber + 1) (some sliceDim)
        | none => do
            let remainder ← checkedMod dim.size (dim.sharding * replication)
            chooseSliceDim replication dims (dimNumber + 1)
              (if remainder = 0 then some dimNumber else none)

/-! ## The plan of a processor -/

inductive ReshardConfigVariant where
  | unsupported
  | pointToPoint
  | scatterGather (config : ScatterGatherConfig)
  | broadcast (config : BroadcastConfig)
  | gatherShards (config : GatherShardsConfig)
  | scatterShards (config : ScatterShardsConfig)
  | noOp
  deriving DecidableEq, Repr

def determineShardingConfigReplicationChange (_p : Processor) (_src _dst : Sharding) :
    Exec ReshardConfigVariant := pure .unsupported

def determineShardingConfigFullyReplicated (p : Processor) (src dst : Sharding) :
    Exec ReshardConfigVariant :=
  if dst.devices.size ≤ src.devices.size then
    -- negative when the processor comes before the source devices
    let srcShardId : ℤ := (p.globalId : ℤ) - src.devices.start
    if !dst.devices.contains p.globalId && decide ((dst.devices.size : ℤ) ≤ srcShardId) then
      pure .noOp
    else pure .pointToPoint
  else do
    let config ← getBroadcastConfig (src.devices.shardId p.globalId)
      (dst.devices.shardId p.globalId) src dst
    pure (.broadcast config)

/-- How many dimensions differ, and the last one that does. -/
def differingDims : List (ShardingDim × ShardingDim) → ℕ → ℕ × Option ℕ → ℕ × Option ℕ
  | [], _, found => found
  | (src, dst) :: dims, dim, found =>
      differingDims dims (dim + 1) (if src ≠ dst then (found.1 + 1, some dim) else found)

def determineScatterGatherConfig [RealmBuild] (p : Processor) (src dst : Sharding) :
    Exec ReshardConfigVariant := do
  let (numDimsDifferent, lastDimDifferent) := differingDims (src.dims.zip dst.dims) 0 (0, none)
  if numDimsDifferent = 1 then do
    let dim ← optionalValue lastDimDifferent
    let config ← getScatterGatherConfig dim (src.devices.shardId p.globalId)
      (dst.devices.shardId p.globalId) src dst
    pure (.scatterGather config)
  else pure .unsupported

def determinePartialToReplicatedConfig [RealmBuild] (p : Processor) (src dst : Sharding) :
    Exec ReshardConfigVariant := do
  -- without a replication dimension the source indexes position -1
  let replicatedDim := src.dims.findIdx ShardingDim.isReplication
  let replicated ← vectorAt src.dims replicatedDim
  let replication := replicated.sharding
  match ← chooseSliceDim replication src.dims 0 none with
  | none => pure .unsupported
  | some dim => do
      let config ← gatherBounds p src dst fun shard ↦ do
        let unslicedBounds ← computeTileBounds shard src
        let index ← computeTileIndex shard src
        let replicaNumber ← vectorAt index replicatedDim
        sliceDim unslicedBounds replicaNumber replication dim
      pure (.gatherShards config)

def determineShardingConfig [RealmBuild] (p : Processor) (src dst : Sharding) :
    Exec ReshardConfigVariant :=
  if src.fullySharded && dst.isReplicated then do
    let config ← getGatherShardsConfig p src dst
    pure (.gatherShards config)
  else if dst.fullySharded && src.isReplicated then
    pure (.scatterShards (getScatterShardsConfig p src dst))
  else if src.isReplicated && dst.isReplicated then
    determineShardingConfigFullyReplicated p src dst
  else if src.isPartiallyReplicated && dst.isReplicated then
    determinePartialToReplicatedConfig p src dst
  else if src.dims.length ≠ dst.dims.length then
    determineShardingConfigReplicationChange p src dst
  else if src.devices.size = dst.devices.size ∧ src.dims = dst.dims then pure .pointToPoint
  else determineScatterGatherConfig p src dst

/-- The branch of `determineShardingConfig` that a plan comes from. -/
inductive PlannedBy [RealmBuild] (p : Processor) (src dst : Sharding) :
    ReshardConfigVariant → Prop where
  | gatherSharded {config : GatherShardsConfig} :
      (src.fullySharded && dst.isReplicated) = true →
      getGatherShardsConfig p src dst = .ok config → PlannedBy p src dst (.gatherShards config)
  | gatherPartial {config : GatherShardsConfig} :
      (src.fullySharded && dst.isReplicated) = false →
      determinePartialToReplicatedConfig p src dst = .ok (.gatherShards config) →
      PlannedBy p src dst (.gatherShards config)
  | scatterShards : PlannedBy p src dst (.scatterShards (getScatterShardsConfig p src dst))
  | broadcast {config : BroadcastConfig} :
      getBroadcastConfig (src.devices.shardId p.globalId) (dst.devices.shardId p.globalId)
        src dst = .ok config → PlannedBy p src dst (.broadcast config)
  | scatterGather {config : ScatterGatherConfig} : src.dims.length = dst.dims.length →
      determineScatterGatherConfig p src dst = .ok (.scatterGather config) →
      PlannedBy p src dst (.scatterGather config)
  | pointToPoint : PlannedBy p src dst .pointToPoint
  | noOp : PlannedBy p src dst .noOp
  | unsupported : PlannedBy p src dst .unsupported

theorem plannedBy_of_eq_ok [RealmBuild] {p : Processor} {src dst : Sharding}
    {plan : ReshardConfigVariant} (h : determineShardingConfig p src dst = .ok plan) :
    PlannedBy p src dst plan := by
  unfold determineShardingConfig at h
  split at h
  · obtain ⟨_, hrun, h⟩ := bind_eq_ok_iff.mp h
    obtain rfl := Except.ok.inj h
    exact .gatherSharded ‹_› hrun
  rename_i hbranch
  split at h
  · obtain rfl := Except.ok.inj h
    exact .scatterShards
  split at h
  · unfold determineShardingConfigFullyReplicated at h
    split at h
    · simp only at h
      split at h <;> obtain rfl := Except.ok.inj h
      · exact .noOp
      · exact .pointToPoint
    · obtain ⟨_, hrun, h⟩ := bind_eq_ok_iff.mp h
      obtain rfl := Except.ok.inj h
      exact .broadcast hrun
  split at h
  · have hrun := h
    obtain ⟨_, -, h⟩ := bind_eq_ok_iff.mp h
    obtain ⟨_ | _, -, h⟩ := bind_eq_ok_iff.mp h
    · obtain rfl := Except.ok.inj h
      exact .unsupported
    · obtain ⟨_, -, h⟩ := bind_eq_ok_iff.mp h
      obtain rfl := Except.ok.inj h
      exact .gatherPartial (by simpa using hbranch) hrun
  split at h
  · obtain rfl := Except.ok.inj h
    exact .unsupported
  rename_i hlen
  split at h
  · obtain rfl := Except.ok.inj h
    exact .pointToPoint
  have hrun := h
  unfold determineScatterGatherConfig at h
  split at h
  split at h
  · obtain ⟨_, -, h⟩ := bind_eq_ok_iff.mp h
    obtain ⟨_, -, h⟩ := bind_eq_ok_iff.mp h
    obtain rfl := Except.ok.inj h
    exact .scatterGather (not_not.mp hlen) hrun
  · obtain rfl := Except.ok.inj h
    exact .unsupported

end Zuku
