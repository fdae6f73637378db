import Zuku.ArrayTile
import Zuku.LocalElements
import Zuku.Store
import Zuku.UniqueIds

/-!
# Sharded arrays with their tiles

`ShardedArray::Create` makes an array without a tile on a processor outside of
the mesh.  On a processor of the mesh it has a tile created, counts the
allocation and reports all allocations if there is no memory left.
-/

namespace Zuku

open Checked Event ShardedArray

/-! ## Texts -/

def DeviceList.text (devices : DeviceList) : String :=
  "devices[" ++ toString devices.start ++ "..." ++ toString devices.stop ++ ")"

def ShardingDim.text (dim : ShardingDim) : String :=
  "ShardingDim(size=" ++ toString dim.size ++ ",shard=" ++ toString dim.sharding ++ ",perm=" ++
    toString dim.permutation ++ ")"

def Sharding.text (sharding : Sharding) : String :=
  "Sharding(" ++ sharding.devices.text ++ ",dims=\x7b" ++
    String.join (sharding.dims.map fun dim ↦ dim.text ++ ",") ++ "\x7d)"

def ShardedShape.text (shape : ShardedShape) : String :=
  "ShardedShape(type=" ++ toString shape.type.ctorIdx ++ "," ++ shape.sharding.text ++ ")"

def allocationFailureMessage (shape : ShardedShape) : String :=
  "Failed to allocate sharded shape " ++ shape.text

/-! ## Counts of allocations -/

abbrev AllocationCounts := ProcessorKey → AList fun _ : ShardedShape ↦ ℤ

namespace AllocationCounts

variable (counts : AllocationCounts)

/-- A count that is missing is inserted with the value zero when it is accessed. -/
def count (p : ProcessorKey) (shape : ShardedShape) : ℤ := ((counts p).lookup shape).getD 0

def add (p : ProcessorKey) (shape : ShardedShape) (n : ℤ) : AllocationCounts :=
  Function.update counts p ((counts p).insert shape (counts.count p shape + n))

/-- The lines of the report about a failed allocation. -/
def reported (p : ProcessorKey) : List (ShardedShape × ℤ) :=
  ((counts p).entries.map fun entry ↦ (entry.1, entry.2)).filter fun line ↦ decide (0 < line.2)

end AllocationCounts

def shardSize (shape : ShardedShape) : Exec ℕ := do
  let elements ← shardElements shape.sharding
  checkedMul (supportedTypeSizeOf shape.type) elements

def totalOfAllocations : List (ShardedShape × ℤ) → ℤ → Exec ℤ
  | [], total => pure total
  | (shape, count) :: lines, total => do
      let size ← shardSize shape
      let bytes ← checkedInt (size * count)
      let total ← checkedInt (total + bytes)
      totalOfAllocations lines total

/-! ## Creation and destruction -/

/-- What `ShardedArray::Create` is given, except the kind of memory. -/
structure ShardedArray.Ctor where
  assignedId : Option UInt64 := none
  name : Option String := none
  shardId : Option ℕ := none
  processor : Processor

/-- The fields of a `ShardedArray`; without a shard its id is `-1`. -/
structure CreatedArray where
  meshUniqueId : UInt64
  shape : ShardedShape
  shardId : ℤ
  processor : Processor
  name : Option String
  array : Option ArrayTile

structure ProcessState (ε : Type) where
  memory : TileMemory ε := {}
  nextIds : NextIds := fun _ ↦ 0
  allocationCounts : AllocationCounts := fun _ ↦ ∅

namespace CreatedArray

def uniqueId (array : CreatedArray) : UniqueId := ⟨array.meshUniqueId, array.shape.sharding.devices⟩

def hasTile (array : CreatedArray) : Bool := array.array.isSome

variable {ε : Type}

def construct (shape : ShardedShape) (ctor : Ctor) (array : Option ArrayTile)
    (state : ProcessState ε) : CreatedArray × ProcessState ε :=
  let (id, nextIds) :=
    allocateNextGlobalId ctor.processor shape.sharding ctor.assignedId state.nextIds
  ({ meshUniqueId := id
     shape := shape
     shardId := ctor.shardId.elim (-1) Nat.cast
     processor := ctor.processor
     name := ctor.name
     array := array }, { state with nextIds := nextIds })

def destroy (array : CreatedArray) (state : ProcessState ε) : ProcessState ε :=
  { state with
    allocationCounts := state.allocationCounts.add array.processor.key array.shape (-1) }

variable [TileCacheBuild] [RealmBuild]

/-- `ShardedArray::Create`, with the answers to the attempts to allocate a tile. -/
def create (shape : ShardedShape) (ctor : Ctor) (first second : Allocation ε)
    (state : ProcessState ε) : Except CreateFault (Store ε CreatedArray) × ProcessState ε :=
  let p := ctor.processor
  let withShard :=
    { ctor with shardId := ctor.shardId.or (shape.sharding.devices.shardId p.globalId) }
  match ShardedArray.create p ctor.shardId shape with
  | .error fault => (.error (.other fault), state)
  | .ok none =>
      let (array, state) := construct shape withShard none state
      (.ok (Store.create array), state)
  | .ok (some tileShape) =>
      match ArrayTile.create tileShape p first second state.memory with
      | (.ok (event, tile), memory) =>
          let counts := state.allocationCounts.add p.key shape 1
          let (array, state) := construct shape withShard (some tile)
            { state with memory := memory, allocationCounts := counts }
          (.ok (Store.deferredCreate event array), state)
      | (.error (.allocationFailure _), memory) =>
          -- the report is printed before the failure is thrown on
          match totalOfAllocations (state.allocationCounts.reported p.key) 0 with
          | .ok _ =>
              (.error (.allocationFailure (allocationFailureMessage shape)),
                { state with memory := memory })
          | .error fault => (.error (.other fault), { state with memory := memory })
      | (.error (.other fault), memory) => (.error (.other fault), { state with memory := memory })

inductive CreatedBy (shape : ShardedShape) (ctor : Ctor) (state : ProcessState ε) :
    Except CreateFault (Store ε CreatedArray) × ProcessState ε → Prop where
  | outside (shardId : Option ℕ) :
      CreatedBy shape ctor state
        (.ok (Store.create (construct shape { ctor with shardId := shardId } none state).1),
          (construct shape { ctor with shardId := shardId } none state).2)
  | inside (shardId : Option ℕ) (event : Event ε) (tile : ArrayTile) (memory : TileMemory ε) :
      CreatedBy shape ctor state
        (.ok (Store.deferredCreate event
          (construct shape { ctor with shardId := shardId } (some tile) state).1),
          { (construct shape { ctor with shardId := shardId } (some tile) state).2 with
            memory := memory
            allocationCounts := state.allocationCounts.add ctor.processor.key shape 1 })
  | failed (fault : CreateFault) (memory : TileMemory ε) :
      CreatedBy shape ctor state (.error fault, { state with memory := memory })

theorem createdBy (shape : ShardedShape) (ctor : Ctor) (first second : Allocation ε)
    (state : ProcessState ε) :
    CreatedBy shape ctor state (create shape ctor first second state) := by
  rw [create]
  dsimp only
  split
  case h_1 fault _ => exact .failed _ state.memory
  case h_2 => exact .outside _
  case h_3 tileShape _ =>
    split
    case h_1 event tile memory _ => exact .inside _ event tile memory
    case h_2 memory _ =>
      split
      · exact .failed _ memory
      · exact .failed _ memory
    case h_3 memory _ => exact .failed _ memory

end CreatedArray

end Zuku
