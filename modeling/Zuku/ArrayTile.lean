import Zuku.Event
import Zuku.ShardedArrayCreate

/-!
# Array tiles and the tile cache

`ArrayTile::Create` hands out a tile that was freed before, if the program was
built with `ZUKU_USE_TILE_CACHE` and the cache holds one, and has an instance
allocated otherwise.  When the allocation fails, the cached tiles of the
processor are deleted before the second attempt.
-/

namespace Zuku

open Checked Event

/-- Whether the program was built with `ZUKU_USE_TILE_CACHE`. -/
class TileCacheBuild where
  useTileCache : Bool

abbrev TileCacheBuild.withCache : TileCacheBuild := ⟨true⟩

/-- What `operator==` and the hash of processors look at. -/
structure ProcessorKey where
  type : ProcessorType
  globalId : ℕ
  deriving DecidableEq, Repr

def Processor.key (p : Processor) : ProcessorKey := ⟨p.type, p.globalId⟩

/-- What `operator==` and the hash of tile shapes look at. -/
structure TileKey where
  type : SupportedType
  dims : List ℕ
  deriving DecidableEq, Repr

def TileShape.key (shape : TileShape) : TileKey := ⟨shape.type, shape.dims⟩

/-- The types with which the elements of an instance are accessed. -/
inductive RealmTypeVariant where
  | int8 | int16 | int32 | int64
  deriving DecidableEq, Repr

/-- What a creation throws.  `ShardedArray::Create` catches allocation failures only. -/
inductive CreateFault where
  | allocationFailure (what : String)
  | other (fault : Fault)
  deriving DecidableEq, Repr

structure ArrayTile where
  instance_ : ℕ
  shape : TileShape
  type : RealmTypeVariant
  deriving DecidableEq, Repr

/-! ## Instances -/

/-- The answer of Realm to the creation of an instance.  The new instance is none
of those that exist. -/
structure Allocation (ε : Type) where
  ready : Event ε
  success : Bool
  name : Finset ℕ → ℕ
  name_notMem : ∀ existing, name existing ∉ existing

def Allocation.next {ε : Type} (ready : Event ε) (success : Bool) : Allocation ε where
  ready := ready
  success := success
  name existing := existing.sup id + 1
  name_notMem existing hmem := by
    have hle : existing.sup id + 1 ≤ existing.sup id := Finset.le_sup (f := id) hmem
    omega

inductive InstanceEvent (ε : Type) where
  | acquired
  | freed (free : Event ε)
  | destroyed (ev : Event ε)
  deriving DecidableEq

/-- A tile that was freed on a processor, with the event it was freed after. -/
structure CachedTile (ε : Type) where
  processor : ProcessorKey
  free : Event ε
  tile : ArrayTile

/-- The queues of the tile cache, one for every processor, type and dimensions,
are kept in one list in the order of the calls of `FreeTile`.  The history of the
instances, with the latest event first, is kept for the statement. -/
structure TileMemory (ε : Type) where
  cache : List (CachedTile ε) := []
  existing : Finset ℕ := ∅
  history : List (ℕ × InstanceEvent ε) := []

variable {ε : Type}

/-- The tile is in the queue of the processor for the shape. -/
def CachedTile.queuedFor (shape : TileShape) (p : Processor) (entry : CachedTile ε) : Bool :=
  decide (entry.processor = p.key) && decide (entry.tile.shape.key = shape.key)

namespace TileMemory

variable [TileCacheBuild] (memory : TileMemory ε)

def getTile (shape : TileShape) (p : Processor) : Option (Event ε × ArrayTile) × TileMemory ε :=
  if TileCacheBuild.useTileCache then
    match memory.cache.find? (CachedTile.queuedFor shape p) with
    | none => (none, memory)
    | some entry =>
        (some (entry.free, entry.tile), { memory with
          cache := memory.cache.eraseP (CachedTile.queuedFor shape p)
          history := (entry.tile.instance_, .acquired) :: memory.history })
  else (none, memory)

omit [TileCacheBuild] in
def deferredDeleteInstances (tile : ArrayTile) (ev : Event ε) : TileMemory ε :=
  { memory with
    existing := memory.existing.erase tile.instance_
    history := (tile.instance_, .destroyed ev) :: memory.history }

def freeTile (tile : ArrayTile) (free : Event ε) (p : Processor) : TileMemory ε :=
  let memory := { memory with history := (tile.instance_, .freed free) :: memory.history }
  if TileCacheBuild.useTileCache then
    { memory with cache := memory.cache ++ [⟨p.key, free, tile⟩] }
  else memory.deferredDeleteInstances tile free

def clearTiles (p : Processor) : TileMemory ε :=
  if TileCacheBuild.useTileCache then
    let cleared := memory.cache.filter fun entry ↦ decide (entry.processor = p.key)
    { cleared.foldl (fun memory entry ↦ memory.deferredDeleteInstances entry.tile entry.free)
        memory with
      cache := memory.cache.filter fun entry ↦ !decide (entry.processor = p.key) }
  else memory

omit [TileCacheBuild] in
def acquire (instance_ : ℕ) : TileMemory ε :=
  { memory with
    existing := insert instance_ memory.existing
    history := (instance_, .acquired) :: memory.history }

omit [TileCacheBuild] in
def tryAllocation (allocation : Allocation ε) : (Event ε × ℕ × Bool) × TileMemory ε :=
  let instance_ := allocation.name memory.existing
  ((allocation.ready, instance_, allocation.success),
    if allocation.success then memory.acquire instance_ else memory)

end TileMemory

namespace ArrayTile

def toRealmTypeVariant : SupportedType → Except CreateFault RealmTypeVariant
  | .pred | .s8 | .u8 => .ok .int8
  | .f16 | .bf16 | .s16 | .u16 => .ok .int16
  | .f32 | .s32 | .u32 => .ok .int32
  | .f64 | .s64 | .u64 | .c64 => .ok .int64
  | .c128 => .error (.other (.runtimeError "unsupported SupportedType"))

/-- The tile and the event after which it is ready; `first` and `second` are the
answers to the two attempts to allocate it. -/
def create [TileCacheBuild] (shape : TileShape) (p : Processor) (first second : Allocation ε)
    (memory : TileMemory ε) : Except CreateFault (Event ε × ArrayTile) × TileMemory ε :=
  match memory.getTile shape p with
  | (some cachedTile, memory) => (.ok cachedTile, memory)
  | (none, memory) =>
      match toRealmTypeVariant shape.type with
      | .error fault => (.error fault, memory)
      | .ok type =>
          match memory.tryAllocation first with
          | ((event, instance_, true), memory) => (.ok (event, ⟨instance_, shape, type⟩), memory)
          | ((_, _, false), memory) =>
              -- clear the tile cache to free up some memory
              match (memory.clearTiles p).tryAllocation second with
              | ((event, instance_, true), memory) =>
                  (.ok (event, ⟨instance_, shape, type⟩), memory)
              | ((_, _, false), memory) =>
                  (.error (.allocationFailure "failed allocating tile"), memory)

inductive CreatedBy [TileCacheBuild] (shape : TileShape) (p : Processor) (memory : TileMemory ε) :
    Except CreateFault (Event ε × ArrayTile) × TileMemory ε → Prop where
  | cached {entry : CachedTile ε} :
      memory.cache.find? (CachedTile.queuedFor shape p) = some entry →
      CreatedBy shape p memory (.ok (entry.free, entry.tile),
        { memory with
          cache := memory.cache.eraseP (CachedTile.queuedFor shape p)
          history := (entry.tile.instance_, .acquired) :: memory.history })
  | allocated {memory' : TileMemory ε} {allocation : Allocation ε} {type : RealmTypeVariant} :
      memory' = memory ∨ memory' = memory.clearTiles p →
      CreatedBy shape p memory
        (.ok (allocation.ready, ⟨allocation.name memory'.existing, shape, type⟩),
          memory'.acquire (allocation.name memory'.existing))
  | failed {memory' : TileMemory ε} {fault : CreateFault} :
      memory' = memory ∨ memory' = memory.clearTiles p →
      CreatedBy shape p memory (.error fault, memory')

section

variable [TileCacheBuild] {shape : TileShape} {p : Processor} {memory : TileMemory ε}

theorem create_of_queued (first second : Allocation ε) {entry : CachedTile ε}
    (huse : TileCacheBuild.useTileCache = true)
    (h : memory.cache.find? (CachedTile.queuedFor shape p) = some entry) :
    create shape p first second memory = (.ok (entry.free, entry.tile),
      { memory with
        cache := memory.cache.eraseP (CachedTile.queuedFor shape p)
        history := (entry.tile.instance_, .acquired) :: memory.history }) := by
  simp only [create, TileMemory.getTile, huse, h, if_true]

/-- A tile that is not in the cache is allocated. -/
theorem create_of_getTile (first second : Allocation ε)
    (h : memory.getTile shape p = (none, memory)) :
    CreatedBy shape p memory (create shape p first second memory) := by
  rw [create, h]
  cases toRealmTypeVariant shape.type with
  | error fault => exact .failed (Or.inl rfl)
  | ok type =>
      cases hfirst : first.success with
      | true =>
          simp only [TileMemory.tryAllocation, hfirst, if_true]
          exact .allocated (Or.inl rfl)
      | false =>
          simp only [TileMemory.tryAllocation, hfirst, Bool.false_eq_true, if_false]
          cases hsecond : second.success with
          | true =>
              simp only [if_true]
              exact .allocated (Or.inr rfl)
          | false =>
              simp only [Bool.false_eq_true, if_false]
              exact .failed (Or.inr rfl)

theorem createdBy (shape : TileShape) (p : Processor) (memory : TileMemory ε)
    (first second : Allocation ε) :
    CreatedBy shape p memory (create shape p first second memory) := by
  cases huse : TileCacheBuild.useTileCache with
  | false =>
      apply create_of_getTile
      simp only [TileMemory.getTile, huse, Bool.false_eq_true, if_false]
  | true =>
      cases hfind : memory.cache.find? (CachedTile.queuedFor shape p) with
      | none =>
          apply create_of_getTile
          simp only [TileMemory.getTile, huse, if_true, hfind]
      | some entry =>
          rw [create_of_queued first second huse hfind]
          exact .cached hfind

end

end ArrayTile

end Zuku
