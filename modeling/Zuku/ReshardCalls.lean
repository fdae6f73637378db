import Zuku.ReshardConfig

/-!
# The calls of the reshard manager

Every pattern of resharding comes down to calls of `ReshardFromLocalSource` and
`ReshardToLocalTarget`, each with the shard ids of its key and a rectangle.
A call that has no counterpart with the same key stays pending forever.
-/

namespace Zuku

open Checked

/-- The shard ids of a reshard key and the rectangle to copy.  Inside a
broadcast tree both arrays of the key are the destination. -/
structure ReshardCall where
  srcShardId : ℕ
  dstShardId : ℕ
  bounds : RealmShape
  withinTarget : Bool := false
  deriving DecidableEq, Repr

structure ReshardCalls where
  sends : List ReshardCall
  receives : List ReshardCall
  deriving DecidableEq, Repr

/-- A processor has a tile of the arrays over its own devices. -/
def hasTile (p : Processor) (sharding : Sharding) : Bool :=
  sharding.devices.contains p.globalId

/-- The shard id of the tile of a processor, and the rectangle that was
computed when the array was created. -/
def tile [RealmBuild] (p : Processor) (sharding : Sharding) : Exec (ℕ × RealmShape) := do
  let shardId ← optionalValue (sharding.devices.shardId p.globalId)
  let bounds ← computeTileBounds shardId sharding
  pure (shardId, bounds)

/-- Every shard has a tile, as the creation of the array makes sure of. -/
def Sharding.HasTiles [RealmBuild] (sharding : Sharding) : Prop :=
  ∃ bounds : ℕ → RealmShape,
    ∀ shard < sharding.devices.size, computeTileBounds shard sharding = .ok (bounds shard)

theorem tile_eq_ok_iff [RealmBuild] {p : Processor} {sharding : Sharding} {shard : ℕ}
    {bounds : RealmShape} :
    tile p sharding = .ok (shard, bounds) ↔ sharding.devices.shardId p.globalId = some shard ∧
      computeTileBounds shard sharding = .ok bounds := by
  unfold tile
  cases h : sharding.devices.shardId p.globalId with
  | none => simp
  | some s =>
      simp only [optionalValue_some, ok_bind, bind_eq_ok_iff, pure_eq_ok, Except.ok.injEq,
        Prod.mk.injEq, Option.some.injEq]
      constructor
      · rintro ⟨_, hbounds, rfl, rfl⟩
        exact ⟨rfl, hbounds⟩
      · rintro ⟨rfl, hbounds⟩
        exact ⟨bounds, hbounds, rfl, rfl⟩

/-! ## The patterns -/

def onTile (p : Processor) (sharding : Sharding) (calls : Exec (List ReshardCall)) :
    Exec (List ReshardCall) :=
  if hasTile p sharding then calls else pure []

def reshardPointToPoint [RealmBuild] (p : Processor) (src dst : Sharding) :
    Exec ReshardCalls := do
  let receives ← onTile p dst do
    let (shardId, bounds) ← tile p dst
    pure [⟨shardId, shardId, bounds, false⟩]
  let sends ← onTile p src do
    let (shardId, bounds) ← tile p src
    pure [⟨shardId, shardId, bounds, false⟩]
  pure ⟨sends, receives⟩

def scatterGatherCalls (slices : List SliceConfig) : List ReshardCall :=
  slices.map fun slice ↦ ⟨slice.srcShard, slice.dstShard, slice.bounds, false⟩

def reshardScatterGather (p : Processor) (config : ScatterGatherConfig) (src dst : Sharding) :
    ReshardCalls where
  sends := if hasTile p src then scatterGatherCalls config.fromSource else []
  receives := if hasTile p dst then scatterGatherCalls config.toTarget else []

def scatterShardsToLocalTarget [RealmBuild] (p : Processor) (src dst : Sharding) :
    Exec (List ReshardCall) := do
  let (dstShardId, bounds) ← tile p dst
  let shardsPerSource ← checkedDiv dst.devices.size src.devices.size
  let srcShardId ← checkedDiv dstShardId shardsPerSource
  pure [⟨srcShardId, dstShardId, bounds, false⟩]

def scatterShardsFromLocalSource [RealmBuild] (p : Processor) (src dst : Sharding) :
    Exec (List ReshardCall) := do
  let shardsPerSource ← checkedDiv dst.devices.size src.devices.size
  let srcShardId ← optionalValue (src.devices.shardId p.globalId)
  let shardOffset := shardsPerSource * srcShardId
  (List.range shardsPerSource).mapM fun shard ↦ do
    let dstShardId := shardOffset + shard
    let bounds ← computeTileBounds dstShardId dst
    pure ⟨srcShardId, dstShardId, bounds, false⟩

def reshardScatterShards [RealmBuild] (p : Processor) (src dst : Sharding) :
    Exec ReshardCalls := do
  let sends ← onTile p src (scatterShardsFromLocalSource p src dst)
  let receives ← onTile p dst (scatterShardsToLocalTarget p src dst)
  pure ⟨sends, receives⟩

def gatherShardsToLocalTarget (src : Sharding) (config : GatherShardsConfig) :
    Exec (List ReshardCall) := do
  let dstShardId ← optionalValue config.dstShard
  (List.range src.devices.size).mapM fun shard ↦ do
    let bounds ← vectorAt config.targetFromSourceBounds shard
    pure ⟨shard, dstShardId, bounds, false⟩

def gatherShardsFromLocalSource (p : Processor) (config : GatherShardsConfig)
    (src dst : Sharding) : Exec (List ReshardCall) := do
  let srcShardId ← optionalValue (src.devices.shardId p.globalId)
  (List.range dst.devices.size).mapM fun shard ↦ do
    let bounds ← optionalValue config.sourceToTargetBounds
    pure ⟨srcShardId, shard, bounds, false⟩

/-- The messages go on with the processor and the two shapes. -/
def reshardGatherShards (p : Processor) (config : GatherShardsConfig) (src dst : Sharding) :
    Exec ReshardCalls := do
  let sends ← onTile p src <|
    if config.srcShard.isNone then
      throw (.runtimeError
        "ReshardGatherShards: unexpected mismatch between source tile and config on ")
    else gatherShardsFromLocalSource p config src dst
  let receives ← onTile p dst <|
    if config.dstShard.isNone then
      throw (.runtimeError
        "ReshardGatherShards: unexpected mismatch between destination tile and config on ")
    else gatherShardsToLocalTarget src config
  pure ⟨sends, receives⟩

def broadcastReceives (target : TargetConfig) (shardId : ℕ) (bounds : RealmShape) :
    List ReshardCall :=
  match target.srcShard, target.dstRootShard with
  | some srcShard, _ => [⟨srcShard, shardId, bounds, false⟩]
  -- receive from another shard in the dst tensor
  | none, some dstRootShard => [⟨dstRootShard, shardId, bounds, true⟩]
  | none, none => []

def reshardBroadcastToLocalTarget [RealmBuild] (p : Processor) (config : BroadcastConfig)
    (dst : Sharding) : Exec ReshardCalls := do
  let target ← optionalValue config.target
  let (shardId, bounds) ← tile p dst
  pure ⟨target.dstLeafShards.map fun leaf ↦ ⟨shardId, leaf, bounds, true⟩,
    broadcastReceives target shardId bounds⟩

def reshardBroadcastFromLocalSource [RealmBuild] (p : Processor) (config : BroadcastConfig)
    (src : Sharding) : Exec (List ReshardCall) := do
  let source ← optionalValue config.source
  let (shardId, bounds) ← tile p src
  pure (source.dstRootShards.map fun root ↦ ⟨shardId, root, bounds, false⟩)

def reshardBroadcast [RealmBuild] (p : Processor) (config : BroadcastConfig)
    (src dst : Sharding) : Exec ReshardCalls :=
  if hasTile p dst then do
    let target ← reshardBroadcastToLocalTarget p config dst
    let sends ← onTile p src (reshardBroadcastFromLocalSource p config src)
    pure ⟨target.sends ++ sends, target.receives⟩
  else do
    let sends ← onTile p src (reshardBroadcastFromLocalSource p config src)
    pure ⟨sends, []⟩

def reshardCalls [RealmBuild] (p : Processor) (src dst : Sharding) :
    ReshardConfigVariant → Exec ReshardCalls
  | .pointToPoint => reshardPointToPoint p src dst
  | .scatterGather config => pure (reshardScatterGather p config src dst)
  | .broadcast config => reshardBroadcast p config src dst
  | .noOp => pure ⟨[], []⟩
  | .scatterShards _ => reshardScatterShards p src dst
  | .gatherShards config => reshardGatherShards p config src dst
  | .unsupported => throw (.runtimeError "unsupported resharding pattern requested")

def reshard [RealmBuild] (p : Processor) (src dst : Sharding) : Exec ReshardCalls := do
  let config ← determineShardingConfig p src dst
  reshardCalls p src dst config

/-! ## All processors -/

/-- The processors of one type, numbered by their global ids. -/
structure Machine where
  numProcessors : ℕ
  processor : ℕ → Processor
  globalId_eq : ∀ id, (processor id).globalId = id

namespace Machine

/-- The device list is part of the machine. -/
def Hosts (machine : Machine) (devices : DeviceList) : Prop :=
  devices.start + devices.size ≤ machine.numProcessors

/-- What all processors do, each running the reshard of its own. -/
def reshard [RealmBuild] (machine : Machine) (src dst : Sharding) : Exec (List ReshardCalls) :=
  (List.range machine.numProcessors).mapM fun id ↦ Zuku.reshard (machine.processor id) src dst

theorem contains_processor (machine : Machine) (devices : DeviceList) (id : ℕ) :
    devices.contains (machine.processor id).globalId = true ↔
      devices.start ≤ id ∧ id < devices.start + devices.size := by
  rw [machine.globalId_eq, DeviceList.contains_eq_true]

end Machine

/-- A list over all processors to which only those of a device list contribute. -/
theorem flatMap_range_devices {α : Type} (devices : DeviceList) {n : ℕ}
    (hn : devices.start + devices.size ≤ n) (f : ℕ → List α) (g : ℕ → List α)
    (hin : ∀ s < devices.size, f (devices.start + s) = g s)
    (hout : ∀ id, ¬(devices.start ≤ id ∧ id < devices.start + devices.size) → f id = []) :
    (List.range n).flatMap f = (List.range devices.size).flatMap g := by
  obtain ⟨rest, rfl⟩ := Nat.exists_eq_add_of_le hn
  rw [List.range_add, List.range_add, List.flatMap_append, List.flatMap_append,
    List.flatMap_map, List.flatMap_map]
  have hlow : (List.range devices.start).flatMap f = [] :=
    List.flatMap_eq_nil_iff.mpr fun id hid ↦ hout id (by
      have := List.mem_range.mp hid
      omega)
  have hhigh : (List.range rest).flatMap
      (fun id ↦ f (devices.start + devices.size + id)) = [] :=
    List.flatMap_eq_nil_iff.mpr fun id _ ↦ hout _ (by omega)
  rw [hlow, hhigh, List.nil_append, List.append_nil]
  exact List.flatMap_congr fun s hs ↦ hin s (List.mem_range.mp hs)

theorem onTile_eq (p : Processor) (sharding : Sharding) (calls : Exec (List ReshardCall)) :
    onTile p sharding calls =
      whenSome (sharding.devices.shardId p.globalId) [] fun _ ↦ calls := by
  have hsome := sharding.devices.isSome_shardId p.globalId
  unfold onTile hasTile
  rw [← hsome]
  cases sharding.devices.shardId p.globalId <;> rfl

/-- When every processor sends for its source shard and receives for its
destination shard, all processors together do so for all shards. -/
theorem Machine.reshard_of_shards [RealmBuild] (machine : Machine) {src dst : Sharding}
    (hsrc : machine.Hosts src.devices) (hdst : machine.Hosts dst.devices)
    (sends receives : ℕ → List ReshardCall)
    (h : ∀ p, Zuku.reshard p src dst = .ok ⟨(src.devices.shardId p.globalId).elim [] sends,
      (dst.devices.shardId p.globalId).elim [] receives⟩) :
    ∃ calls, machine.reshard src dst = .ok calls ∧
      calls.flatMap ReshardCalls.sends = (List.range src.devices.size).flatMap sends ∧
      calls.flatMap ReshardCalls.receives = (List.range dst.devices.size).flatMap receives := by
  have hside : ∀ (devices : DeviceList) (side : ℕ → List ReshardCall),
      machine.Hosts devices →
      ((List.range machine.numProcessors).flatMap fun id ↦
        (devices.shardId (machine.processor id).globalId).elim [] side) =
      (List.range devices.size).flatMap side := by
    intro devices side hhosts
    refine flatMap_range_devices devices hhosts _ side ?_ ?_
    · intro s hs
      rw [machine.globalId_eq, devices.shardId_start_add hs]
      rfl
    · intro id hid
      have hnone : devices.shardId (machine.processor id).globalId = none := by
        rw [← Option.not_isSome_iff_eq_none, DeviceList.isSome_shardId,
          machine.contains_processor]
        exact hid
      rw [hnone]
      rfl
  refine ⟨_, mapM_eq_ok_map fun id _ ↦ h (machine.processor id), ?_, ?_⟩
  · rw [List.flatMap_map]
    exact hside src.devices sends hsrc
  · rw [List.flatMap_map]
    exact hside dst.devices receives hdst

end Zuku
