import Zuku.Shape

/-!
# Tile indices, shard ids and tile bounds

The functions of `tiled_array.cc` that relate a shard id, the index of its tile
and the rectangle the tile covers.
-/

namespace Zuku

open Checked

/-- Horner's loop over the dimensions after the first, in storage order. -/
def computeTileShardLoop (dims : List ShardingDim) : ℕ → ℕ → List ℕ → Exec ℕ
  | _, index, [] => pure index
  | dim, index, i :: indices => do
      let shardingDim ← vectorAt dims dim
      computeTileShardLoop dims (dim + 1) (index * shardingDim.sharding + i) indices

def computeTileShard (indices : List ℕ) (sharding : Sharding) : Exec ℕ :=
  match indices with
  | [] => pure 0
  | i :: indices => computeTileShardLoop sharding.dims 1 i indices

/-- Unpermute the sharding factors and record where every one came from. -/
def unpermute : List ShardingDim → ℕ → List ℕ → List ℕ → Exec (List ℕ × List ℕ)
  | [], _, shardExtents, permutation => pure (shardExtents, permutation)
  | dim :: dims, pDim, shardExtents, permutation => do
      let shardExtents ← vectorSet shardExtents dim.permutation dim.sharding
      let permutation ← vectorSet permutation dim.permutation pDim
      unpermute dims (pDim + 1) shardExtents permutation

/-- Divide by a running stride, writing every digit at its own position. -/
def splitIndex : List (ℕ × ℕ) → ℕ → ℕ → List ℕ → Exec (List ℕ)
  | [], _, _, indices => pure indices
  | (extent, position) :: rest, dimStride, remainder, indices => do
      let dimStride ← checkedDiv dimStride extent
      let dimIndex ← checkedDiv remainder dimStride
      let indices ← vectorSet indices position dimIndex
      splitIndex rest dimStride (remainder - dimIndex * dimStride) indices

def computeTileIndex (index : ℕ) (sharding : Sharding) : Exec (List ℕ) := do
  let zeros := List.replicate sharding.dims.length 0
  let (shardExtents, permutation) ← unpermute sharding.dims 0 zeros zeros
  let dimStride ← checkedProd shardExtents
  splitIndex (shardExtents.zip permutation) dimStride index zeros

/-- The rectangle ranks a build knows; rank zero is stored as rank one. -/
def selectRank [RealmBuild] (rank : ℕ) (what : String) : Exec ℕ :=
  if rank = 0 then .ok 1
  else if rank ≤ 4 then .ok rank
  else if rank = 5 ∧ 5 ≤ RealmBuild.maxDim then .ok 5
  else .error (.runtimeError what)

def writeTileBounds (index : List ℕ) : ℕ → List ShardingDim → RealmShape → Exec RealmShape
  | _, [], rect => pure rect
  | dim, shardingDim :: dims, rect =>
      -- a replication dimension is not part of the real shape
      if shardingDim.isReplication then writeTileBounds index (dim + 1) dims rect
      else do
        let tileExtent ← checkedDiv shardingDim.size shardingDim.sharding
        let i ← vectorAt index dim
        let start : ℤ := tileExtent * i
        let rect ← rect.write start (start + tileExtent - 1)
        writeTileBounds index (dim + 1) dims rect

/-- `ComputeTileBounds<N>`.  The quotients by the total stride are computed and
never used, but they divide. -/
def computeTileBoundsOfRank (rank shard : ℕ) (sharding : Sharding) : Exec RealmShape :=
  match sharding.dims with
  | [] => RealmShape.write ⟨rank, []⟩ 0 0
  | dim :: dims =>
      if dims = [] ∧ dim.size = 1 then RealmShape.write ⟨rank, []⟩ 0 0
      else do
        let dimStride ← checkedProd sharding.factors
        let index ← computeTileIndex shard sharding
        let replication ← checkedDiv sharding.devices.size dimStride
        let _remainder ← checkedDiv shard replication
        writeTileBounds index 0 sharding.dims ⟨rank, []⟩

def computeTileBounds [RealmBuild] (shard : ℕ) (sharding : Sharding) : Exec RealmShape := do
  let rank ← selectRank sharding.numRealDims
    ("do not support arrays with " ++ toString sharding.numRealDims ++ " dimensions")
  computeTileBoundsOfRank rank shard sharding

end Zuku
