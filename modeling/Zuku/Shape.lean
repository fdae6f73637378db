import Zuku.Library.Checked
import Zuku.Library.IndexedWrites
import Zuku.Library.MixedRadix

/-!
# Meshes, shardings and rectangles

Sizes, sharding factors, shard ids and device ids are natural numbers; the
bounds of a rectangle are integers, since the upper bound of an empty one may
be `-1`.  A negative permutation field is converted to a huge unsigned index by
the source, so it is out of range like any other large one.
-/

namespace Zuku

open Checked

/-- The largest rank the Realm build supports (`REALM_MAX_DIM`).  Ranks up to
four are compiled unconditionally. -/
class RealmBuild where
  maxDim : ℕ

/-- A build without rectangles of rank five. -/
abbrev RealmBuild.rankFour : RealmBuild := ⟨4⟩

inductive SupportedType where
  | pred | f16 | bf16 | f32 | f64
  | s8 | s16 | s32 | s64
  | u8 | u16 | u32 | u64
  | c64 | c128
  deriving DecidableEq, Repr

def supportedTypeSizeOf : SupportedType → ℕ
  | .pred | .s8 | .u8 => 1
  | .f16 | .bf16 | .s16 | .u16 => 2
  | .f32 | .s32 | .u32 => 4
  | .f64 | .s64 | .u64 | .c64 => 8
  | .c128 => 16

/-! ## Devices -/

inductive ProcessorType where
  | util | cpu | gpu | test
  deriving DecidableEq, Repr

structure Processor where
  type : ProcessorType
  localId : ℕ
  globalId : ℕ
  deriving DecidableEq, Repr

/-- The number of devices is an `int64_t`, with which products of sharding factors
are compared. -/
structure DeviceList where
  start : ℕ
  numDevices : Fin int64Bound
  deriving DecidableEq, Repr

namespace DeviceList

def stop (devices : DeviceList) : ℕ := devices.start + devices.numDevices

def size (devices : DeviceList) : ℕ := devices.numDevices

theorem size_lt (devices : DeviceList) : devices.size < int64Bound := devices.numDevices.isLt

def contains (devices : DeviceList) (deviceId : ℕ) : Bool :=
  decide (devices.start ≤ deviceId) && decide (deviceId < devices.stop)

def shardId (devices : DeviceList) (deviceId : ℕ) : Option ℕ :=
  if devices.contains deviceId then some (deviceId - devices.start) else none

def slice (devices : DeviceList) (offset numDevices : ℕ) : DeviceList :=
  ⟨devices.start + offset, Fin.ofNat int64Bound numDevices⟩

theorem size_slice (devices : DeviceList) (offset : ℕ) {numDevices : ℕ}
    (h : numDevices < int64Bound) : (devices.slice offset numDevices).size = numDevices :=
  Nat.mod_eq_of_lt h

theorem contains_eq_true (devices : DeviceList) (deviceId : ℕ) :
    devices.contains deviceId = true ↔
      devices.start ≤ deviceId ∧ deviceId < devices.start + devices.size := by
  rw [contains, Bool.and_eq_true, decide_eq_true_eq, decide_eq_true_eq]
  rfl

theorem contains_iff (devices : DeviceList) (deviceId : ℕ) :
    devices.contains deviceId = true ↔ ∃ s < devices.size, deviceId = devices.start + s := by
  rw [contains_eq_true]
  constructor
  · rintro ⟨hlo, hhi⟩
    exact ⟨deviceId - devices.start, by omega, by omega⟩
  · rintro ⟨s, hs, rfl⟩
    omega

theorem shardId_eq_some_iff (devices : DeviceList) (deviceId s : ℕ) :
    devices.shardId deviceId = some s ↔ s < devices.size ∧ deviceId = devices.start + s := by
  unfold shardId
  split
  case isTrue h =>
    rw [contains_eq_true] at h
    simp only [Option.some.injEq]
    omega
  case isFalse h =>
    rw [contains_eq_true] at h
    simp only [reduceCtorEq, false_iff]
    omega

theorem shardId_lt {devices : DeviceList} {deviceId s : ℕ} (h : s ∈ devices.shardId deviceId) :
    s < devices.size :=
  ((devices.shardId_eq_some_iff deviceId s).mp h).1

@[simp] theorem shardId_start_add (devices : DeviceList) {s : ℕ} (hs : s < devices.size) :
    devices.shardId (devices.start + s) = some s :=
  (devices.shardId_eq_some_iff _ s).mpr ⟨hs, rfl⟩

theorem isSome_shardId (devices : DeviceList) (deviceId : ℕ) :
    (devices.shardId deviceId).isSome = devices.contains deviceId := by
  unfold shardId
  split <;> simp_all

end DeviceList

/-! ## Shardings -/

structure ShardingDim where
  size : ℕ
  sharding : ℕ
  permutation : ℕ := 0
  deriving DecidableEq, Repr

/-- A replication dimension is not part of the real shape: it has size one and
a sharding factor of more than one. -/
def ShardingDim.isReplication (dim : ShardingDim) : Bool :=
  decide (dim.size = 1) && decide (1 < dim.sharding)

structure Sharding where
  dims : List ShardingDim
  devices : DeviceList
  deriving DecidableEq, Repr

namespace Sharding

def totalSharding (sharding : Sharding) : ℕ :=
  sharding.dims.foldl
    (fun total dim ↦ if 1 < dim.size then total * dim.sharding else total) 1

def numRealDims (sharding : Sharding) : ℕ :=
  if sharding.dims.any (fun dim ↦ decide (dim.size < dim.sharding)) then
    sharding.dims.length - 1
  else sharding.dims.length

def isPartiallyReplicated (sharding : Sharding) : Bool :=
  decide (1 < sharding.totalSharding) && decide (sharding.totalSharding < sharding.devices.size)

def fullySharded (sharding : Sharding) : Bool :=
  decide (sharding.totalSharding = sharding.devices.size)

def isReplicated (sharding : Sharding) : Bool := decide (sharding.totalSharding = 1)

/-- The sharding factors in storage order. -/
def factors (sharding : Sharding) : List ℕ := sharding.dims.map ShardingDim.sharding

/-- The permutation fields in storage order. -/
def permutations (sharding : Sharding) : List ℕ := sharding.dims.map ShardingDim.permutation

/-- The dimensions of the real shape. -/
def realDims (sharding : Sharding) : List ShardingDim :=
  sharding.dims.filter fun dim ↦ !dim.isReplication

/-- The number of copies of every element: the product of the replication factors. -/
def replication (sharding : Sharding) : ℕ :=
  ((sharding.dims.filter ShardingDim.isReplication).map ShardingDim.sharding).prod

@[simp] theorem length_factors (sharding : Sharding) :
    sharding.factors.length = sharding.dims.length := by simp [factors]

@[simp] theorem length_permutations (sharding : Sharding) :
    sharding.permutations.length = sharding.dims.length := by simp [permutations]

/-- What a sharding needs for its tiles to cut the array into equal boxes. -/
structure Tileable (sharding : Sharding) : Prop where
  size_pos : ∀ dim ∈ sharding.dims, 1 ≤ dim.size
  sharding_pos : ∀ dim ∈ sharding.dims, 1 ≤ dim.sharding
  bijective : IndexedWrites.Covers sharding.dims.length sharding.permutations
  divides : ∀ dim ∈ sharding.dims, dim.sharding ∣ dim.size ∨ dim.isReplication = true
  devices_eq : sharding.factors.prod = sharding.devices.size

instance (sharding : Sharding) : Decidable sharding.Tileable :=
  decidable_of_iff
    ((∀ dim ∈ sharding.dims, 1 ≤ dim.size) ∧ (∀ dim ∈ sharding.dims, 1 ≤ dim.sharding) ∧
      IndexedWrites.Covers sharding.dims.length sharding.permutations ∧
      (∀ dim ∈ sharding.dims, dim.sharding ∣ dim.size ∨ dim.isReplication = true) ∧
      sharding.factors.prod = sharding.devices.size)
    ⟨fun ⟨h₁, h₂, h₃, h₄, h₅⟩ ↦ ⟨h₁, h₂, h₃, h₄, h₅⟩,
      fun h ↦ ⟨h.size_pos, h.sharding_pos, h.bijective, h.divides, h.devices_eq⟩⟩

end Sharding

/-! ## Rectangles -/

/-- `Realm::Rect<rank, long long>` as the source fills it in: coordinate `k` of
`lo` and `hi` is the `k`-th entry of `bounds`, and coordinates from
`bounds.length` on have not been written. -/
structure RealmShape where
  rank : ℕ
  bounds : List (ℤ × ℤ)
  deriving DecidableEq, Repr

namespace RealmShape

/-- A variant of rectangles holds an unwritten one of rank one by default. -/
def unset : RealmShape := ⟨1, []⟩

/-- Write the next coordinate of `lo` and `hi`. -/
def write (rect : RealmShape) (lo hi : ℤ) : Exec RealmShape :=
  if rect.bounds.length < rect.rank then
    .ok { rect with bounds := rect.bounds ++ [(lo, hi)] }
  else .error .outOfRange

/-- Read a coordinate of `lo` and `hi`. -/
def read (rect : RealmShape) (dim : ℕ) : Exec (ℤ × ℤ) :=
  if dim < rect.rank then
    match rect.bounds[dim]? with
    | some interval => .ok interval
    | none => .error .uninitialized
  else .error .outOfRange

/-- The points of a rectangle all of whose coordinates have been written. -/
def Contains (rect : RealmShape) (point : List ℤ) : Prop :=
  rect.bounds.length = rect.rank ∧
    List.Forall₂ (fun x b ↦ b.1 ≤ x ∧ x ≤ b.2) point rect.bounds

instance (rect : RealmShape) (point : List ℤ) : Decidable (rect.Contains point) :=
  inferInstanceAs (Decidable (_ ∧ List.Forall₂ _ _ _))

end RealmShape

/-- The index space of the global array, over the real dimensions.  A scalar is
stored as a rectangle of rank one with a single point. -/
def Sharding.arrayShape (sharding : Sharding) : RealmShape :=
  if sharding.realDims = [] then ⟨1, [(0, 0)]⟩
  else ⟨sharding.realDims.length, sharding.realDims.map fun dim ↦ (0, (dim.size : ℤ) - 1)⟩

end Zuku
