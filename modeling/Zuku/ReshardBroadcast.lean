import Zuku.Shape
import Zuku.Library.LowBit

/-!
# Broadcast trees

The functions of `reshard_broadcast.cc`.  Every destination shard finds its
parent in the broadcast tree of its group by halving intervals, and the shards
it sends to by a second halving loop that stops at the size of the group.
-/

namespace Zuku

open Checked LowBit

structure SourceConfig where
  dstRootShards : List ℕ
  deriving DecidableEq, Repr

structure TargetConfig where
  srcShard : Option ℕ := none
  dstRootShard : Option ℕ := none
  dstLeafShards : List ℕ := []
  deriving DecidableEq, Repr

structure BroadcastConfig where
  source : Option SourceConfig := none
  target : Option TargetConfig := none
  deriving DecidableEq, Repr

def nextPowerOf2 (numLeaves : ℕ) : Exec ℕ :=
  whileLoop (fun power ↦ decide (power < numLeaves)) (fun power ↦ power * 2) numLeaves 1

structure Split where
  splitStart : ℕ
  splitSize : ℕ
  deriving DecidableEq, Repr

/-- Halve the interval and step towards the rank.  A step to the left never
leaves the natural numbers. -/
def Split.step (myRank : ℕ) (split : Split) : Split :=
  let splitSize := split.splitSize / 2
  if split.splitStart < myRank then ⟨split.splitStart + splitSize, splitSize⟩
  else if myRank < split.splitStart then ⟨split.splitStart - splitSize, splitSize⟩
  else ⟨split.splitStart, splitSize⟩

def searchSplit (myRank nextPowerOf2 : ℕ) : Exec Split :=
  whileLoop (fun split ↦ decide (split.splitStart ≠ myRank)) (Split.step myRank)
    nextPowerOf2 ⟨0, nextPowerOf2⟩

structure LeafLoop where
  splitSize : ℕ
  nextLeaf : ℕ
  targets : List ℕ
  deriving DecidableEq, Repr

def LeafLoop.step (destRootShard : ℕ) (loop : LeafLoop) : LeafLoop :=
  ⟨loop.splitSize / 2, loop.nextLeaf - loop.splitSize / 2,
    loop.targets ++ [destRootShard + loop.nextLeaf]⟩

def LeafLoop.continues (numLeaves : ℕ) (loop : LeafLoop) : Bool :=
  decide (loop.nextLeaf < numLeaves) && decide (0 < loop.splitSize)

def leafTargets (destRootShard numLeaves : ℕ) (split : Split) : Exec (List ℕ) := do
  let splitSize := split.splitSize / 2
  let loop ← whileLoop (LeafLoop.continues numLeaves) (LeafLoop.step destRootShard)
    splitSize ⟨splitSize, split.splitStart + splitSize, []⟩
  pure loop.targets

def getTargetConfig (srcShard destRootShard : ℕ) (dstDevices : DeviceList) (myRank : ℕ) :
    Exec TargetConfig :=
  let numLeaves := dstDevices.size
  if myRank % 2 ≠ 0 then
    pure { dstRootShard := some (destRootShard + myRank - 1) }
  else do
    let power ← nextPowerOf2 numLeaves
    let split ← searchSplit myRank power
    let mySource := destRootShard + myRank - split.splitSize
    let targets ← leafTargets destRootShard numLeaves split
    if 0 < myRank then
      pure { dstRootShard := some mySource, dstLeafShards := targets }
    else pure { srcShard := some srcShard, dstLeafShards := targets }

def getBroadcastTarget (leavesPerRoot : ℕ) (dst : Sharding) :
    Option ℕ → Exec (Option TargetConfig)
  | none => pure none
  | some dstShard => do
      let mySrcShard ← checkedDiv dstShard leavesPerRoot
      let myRank := dstShard - mySrcShard * leavesPerRoot
      let numLeaves := min leavesPerRoot (dst.devices.size - mySrcShard * leavesPerRoot)
      let treeOffset := mySrcShard * leavesPerRoot
      let target ← getTargetConfig mySrcShard treeOffset
        (dst.devices.slice treeOffset numLeaves) myRank
      pure (some target)

def getBroadcastConfig (srcShard dstShard : Option ℕ) (src dst : Sharding) :
    Exec BroadcastConfig := do
  let leavesPerRoot ←
    checkedDiv (dst.devices.size + src.devices.size - 1) src.devices.size
  match srcShard with
  | none => do
      let target ← getBroadcastTarget leavesPerRoot dst dstShard
      pure { target := target }
  | some srcShard =>
      let dstPartnerShard := srcShard * leavesPerRoot
      -- an extra source shard does not participate, not even as a destination
      if dst.devices.size ≤ dstPartnerShard then pure {}
      else do
        let target ← getBroadcastTarget leavesPerRoot dst dstShard
        pure { source := some ⟨[dstPartnerShard]⟩, target := target }

end Zuku
