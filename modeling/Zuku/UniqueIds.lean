import Zuku.Shape

/-!
# Unique ids of sharded arrays

Every process counts the arrays it constructs, with a counter for each mesh,
local processor id and processor type.  The unique id of an array keeps the
mesh and the value of the counter, so arrays of two processor types on the same
mesh get the same ids.
-/

namespace Zuku

structure GlobalIdKey where
  devices : DeviceList
  localProcId : ℕ
  procType : ProcessorType
  deriving DecidableEq, Repr

/-- What the constructor of a sharded array allocates an id from. -/
structure Construction where
  processor : Processor
  sharding : Sharding
  assignedId : Option UInt64 := none
  deriving DecidableEq, Repr

/-- The counters of the process, which start at zero. -/
abbrev NextIds := GlobalIdKey → UInt64

namespace ShardedArray

structure UniqueId where
  id : UInt64
  devices : DeviceList
  deriving DecidableEq, Repr

structure ReshardKey where
  srcId : UniqueId
  dstId : UniqueId
  srcShardId : ℕ
  dstShardId : ℕ
  deriving DecidableEq, Repr

/-- The key depends on the processor since the same sharded array may be
created on multiple processors. -/
def globalIdKey (p : Processor) (sharding : Sharding) : GlobalIdKey :=
  ⟨sharding.devices, p.localId, p.type⟩

/-- The counter wraps around. -/
def allocateNextGlobalId (p : Processor) (sharding : Sharding) (assignedId : Option UInt64)
    (nextIds : NextIds) : UInt64 × NextIds :=
  match assignedId with
  | some id => (id, nextIds)
  | none =>
      let key := globalIdKey p sharding
      (nextIds key, Function.update nextIds key (nextIds key + 1))

def construct (c : Construction) (nextIds : NextIds) : UniqueId × NextIds :=
  let (id, nextIds) := allocateNextGlobalId c.processor c.sharding c.assignedId nextIds
  (⟨id, c.sharding.devices⟩, nextIds)

/-- The unique ids of a sequence of constructions. -/
def uniqueIds : List Construction → NextIds → List UniqueId
  | [], _ => []
  | c :: cs, nextIds =>
      let (id, nextIds) := construct c nextIds
      id :: uniqueIds cs nextIds

end ShardedArray

namespace Construction

def key (c : Construction) : GlobalIdKey := ShardedArray.globalIdKey c.processor c.sharding

/-- The constructions on a mesh by one processor of the process, which is known
by its type and its local id. -/
def count (cs : List Construction) (key : GlobalIdKey) : ℕ := cs.countP fun c ↦ decide (c.key = key)

/-- The array that the construction at a place is a part of: its mesh, its
processor type, and how many its processor has created on the mesh before. -/
def logicalArray (cs : List Construction) (i : ℕ) : Option (DeviceList × ProcessorType × ℕ) :=
  cs[i]?.map fun c ↦ (c.sharding.devices, c.processor.type, count (cs.take i) c.key)

end Construction

open ShardedArray Construction

/-- Different logical arrays have different unique ids, and different pairs of
them have different reshard keys. -/
structure IdsSeparate (cs : List Construction) : Prop where
  unique : ∀ i < cs.length, ∀ j < cs.length, logicalArray cs i ≠ logicalArray cs j →
    (uniqueIds cs fun _ ↦ 0)[i]? ≠ (uniqueIds cs fun _ ↦ 0)[j]?
  reshardKey : ∀ src dst src' dst' : ℕ, ∀ srcId dstId srcId' dstId' : UniqueId,
    (uniqueIds cs fun _ ↦ 0)[src]? = some srcId → (uniqueIds cs fun _ ↦ 0)[dst]? = some dstId →
    (uniqueIds cs fun _ ↦ 0)[src']? = some srcId' →
    (uniqueIds cs fun _ ↦ 0)[dst']? = some dstId' →
    (logicalArray cs src, logicalArray cs dst) ≠ (logicalArray cs src', logicalArray cs dst') →
    ∀ srcShardId dstShardId,
      (⟨srcId, dstId, srcShardId, dstShardId⟩ : ReshardKey) ≠
        ⟨srcId', dstId', srcShardId, dstShardId⟩

/-! ## The id is the ordinal -/

theorem length_uniqueIds (cs : List Construction) (nextIds : NextIds) :
    (uniqueIds cs nextIds).length = cs.length := by
  induction cs generalizing nextIds with
  | nil => rfl
  | cons c cs ih => exact congrArg Nat.succ (ih _)

theorem construct_of_none {c : Construction} (h : c.assignedId = none) (nextIds : NextIds) :
    construct c nextIds = (⟨nextIds c.key, c.sharding.devices⟩,
      Function.update nextIds c.key (nextIds c.key + 1)) := by
  simp only [construct, allocateNextGlobalId, h]
  rfl

/-- A counter has advanced by the constructions with its key. -/
theorem getElem?_uniqueIds {cs : List Construction} (h : ∀ c ∈ cs, c.assignedId = none)
    (nextIds : NextIds) {i : ℕ} {c : Construction} (hc : cs[i]? = some c) :
    (uniqueIds cs nextIds)[i]? = some
      ⟨nextIds c.key + UInt64.ofNat (count (cs.take i) c.key), c.sharding.devices⟩ := by
  induction cs generalizing nextIds i with
  | nil => cases hc
  | cons d cs ih =>
      rw [uniqueIds, construct_of_none (h d List.mem_cons_self)]
      cases i with
      | zero =>
          obtain rfl := Option.some.inj hc
          simp [count]
      | succ i =>
          have hc : cs[i]? = some c := hc
          rw [List.getElem?_cons_succ, ih (fun e he ↦ h e (List.mem_cons_of_mem _ he)) _ hc,
            List.take_succ_cons]
          by_cases hkey : d.key = c.key
          · simp only [count, hkey, Function.update_self, List.countP_cons, decide_true, if_true]
            rw [UInt64.ofNat_add, add_assoc, add_comm 1]
            rfl
          · simp [count, hkey, Function.update_of_ne (Ne.symm hkey)]

theorem ofNat_eq_iff {a b : ℕ} (ha : a < 2 ^ 64) (hb : b < 2 ^ 64) :
    UInt64.ofNat a = UInt64.ofNat b ↔ a = b := by
  constructor
  · intro h
    have hmod := congrArg UInt64.toNat h
    rwa [UInt64.toNat_ofNat', UInt64.toNat_ofNat', Nat.mod_eq_of_lt ha,
      Nat.mod_eq_of_lt hb] at hmod
  · exact congrArg _

/-- Every ordinal below the number of constructions belongs to one of them. -/
theorem exists_ordinal {cs : List Construction} {key : GlobalIdKey} {n : ℕ}
    (hn : n < count cs key) :
    ∃ (i : ℕ) (c : Construction), cs[i]? = some c ∧ c.key = key ∧
      count (cs.take i) key = n := by
  induction cs generalizing n with
  | nil => exact absurd hn (Nat.not_lt_zero n)
  | cons d cs ih =>
      by_cases hkey : d.key = key
      · cases n with
        | zero => exact ⟨0, d, rfl, hkey, rfl⟩
        | succ n =>
            have hn : n < count cs key := by simpa [count, hkey] using hn
            obtain ⟨i, c, hc, hkeyC, hcount⟩ := ih hn
            refine ⟨i + 1, c, hc, hkeyC, ?_⟩
            rw [List.take_succ_cons]
            simpa [count, hkey] using hcount
      · have hn : n < count cs key := by simpa [count, hkey] using hn
        obtain ⟨i, c, hc, hkeyC, hcount⟩ := ih hn
        refine ⟨i + 1, c, hc, hkeyC, ?_⟩
        rw [List.take_succ_cons]
        simpa [count, hkey] using hcount

theorem count_take_lt {cs : List Construction} {i : ℕ} {c : Construction}
    (hc : cs[i]? = some c) : count (cs.take i) c.key < count cs c.key := by
  obtain ⟨hi, hget⟩ := List.getElem?_eq_some_iff.mp hc
  have hsplit : cs = cs.take i ++ c :: cs.drop (i + 1) := by
    rw [← hget, ← List.drop_eq_getElem_cons hi, List.take_append_drop]
  conv_rhs => rw [hsplit]
  rw [count, count, List.countP_append, List.countP_cons, decide_eq_true rfl, if_pos rfl]
  omega

section

variable {cs : List Construction} (hassigned : ∀ c ∈ cs, c.assignedId = none)

include hassigned

theorem uniqueId_at {i : ℕ} {c : Construction} (hc : cs[i]? = some c) :
    (uniqueIds cs fun _ ↦ 0)[i]? = some
      ⟨UInt64.ofNat (count (cs.take i) c.key), c.sharding.devices⟩ := by
  rw [getElem?_uniqueIds hassigned _ hc, zero_add]

/-- One type of processors on every mesh, and no counter that wraps around. -/
theorem idsSeparate_of_one_type
    (htype : ∀ c ∈ cs, ∀ d ∈ cs, c.sharding.devices = d.sharding.devices →
      c.processor.type = d.processor.type)
    (hcount : ∀ key, count cs key ≤ 2 ^ 64) : IdsSeparate cs := by
  have hlogical {i j : ℕ} (hi : i < cs.length) (hj : j < cs.length)
      (hid : (uniqueIds cs fun _ ↦ 0)[i]? = (uniqueIds cs fun _ ↦ 0)[j]?) :
      logicalArray cs i = logicalArray cs j := by
    have hc := List.getElem?_eq_getElem hi
    have hd := List.getElem?_eq_getElem hj
    rw [uniqueId_at hassigned hc, uniqueId_at hassigned hd, Option.some.injEq,
      UniqueId.mk.injEq] at hid
    obtain ⟨hid, hdevices⟩ := hid
    have hordinal := (ofNat_eq_iff ((count_take_lt hc).trans_le (hcount _))
      ((count_take_lt hd).trans_le (hcount _))).mp hid
    rw [logicalArray, logicalArray, hc, hd, Option.map_some, Option.map_some, hdevices,
      htype _ (List.getElem_mem hi) _ (List.getElem_mem hj) hdevices, hordinal]
  have hlt {i : ℕ} {id : UniqueId} (h : (uniqueIds cs fun _ ↦ 0)[i]? = some id) :
      i < cs.length := by
    obtain ⟨hi, -⟩ := List.getElem?_eq_some_iff.mp h
    rwa [length_uniqueIds] at hi
  constructor
  · intro i hi j hj hne hid
    exact hne (hlogical hi hj hid)
  · intro src dst src' dst' srcId dstId srcId' dstId' hsrc hdst hsrc' hdst' hne _ _ hkey
    obtain ⟨rfl, rfl, -, -⟩ := ReshardKey.mk.inj hkey
    apply hne
    rw [hlogical (hlt hsrc) (hlt hsrc') (hsrc.trans hsrc'.symm),
      hlogical (hlt hdst) (hlt hdst') (hdst.trans hdst'.symm)]

/-- The first arrays of two types on one mesh have the id zero. -/
theorem one_type_of_idsSeparate (h : IdsSeparate cs) {c d : Construction} (hc : c ∈ cs)
    (hd : d ∈ cs) (hdevices : c.sharding.devices = d.sharding.devices) :
    c.processor.type = d.processor.type := by
  have hfirst {e : Construction} (he : e ∈ cs) : ∃ (i : ℕ) (first : Construction),
      cs[i]? = some first ∧ first.key = e.key ∧ count (cs.take i) e.key = 0 := by
    apply exists_ordinal
    exact List.countP_pos_iff.mpr ⟨e, he, decide_eq_true rfl⟩
  obtain ⟨i, first, hi, hkey, hzero⟩ := hfirst hc
  obtain ⟨j, second, hj, hkey', hzero'⟩ := hfirst hd
  obtain ⟨hlt, -⟩ := List.getElem?_eq_some_iff.mp hi
  obtain ⟨hlt', -⟩ := List.getElem?_eq_some_iff.mp hj
  obtain ⟨hmesh, -, htype⟩ := GlobalIdKey.mk.inj hkey
  obtain ⟨hmesh', -, htype'⟩ := GlobalIdKey.mk.inj hkey'
  by_contra hne
  apply h.unique i hlt j hlt'
  · rw [logicalArray, logicalArray, hi, hj]
    intro hsame
    obtain ⟨-, hsame⟩ := Prod.mk.inj (Option.some.inj hsame)
    rw [Prod.mk.injEq, htype, htype'] at hsame
    exact hne hsame.1
  · rw [uniqueId_at hassigned hi, uniqueId_at hassigned hj, hkey, hkey', hzero, hzero', hmesh,
      hmesh', hdevices]

/-- A counter that has wrapped around gives the id zero twice. -/
theorem count_le_of_idsSeparate (h : IdsSeparate cs) (key : GlobalIdKey) :
    count cs key ≤ 2 ^ 64 := by
  by_contra hgt
  obtain ⟨i, first, hi, hkey, hzero⟩ := exists_ordinal (n := 0) (by omega : 0 < count cs key)
  obtain ⟨j, later, hj, hkey', hwrap⟩ :=
    exists_ordinal (n := 2 ^ 64) (by omega : 2 ^ 64 < count cs key)
  obtain ⟨hlt, -⟩ := List.getElem?_eq_some_iff.mp hi
  obtain ⟨hlt', -⟩ := List.getElem?_eq_some_iff.mp hj
  have hmesh : first.sharding.devices = later.sharding.devices :=
    congrArg GlobalIdKey.devices (hkey.trans hkey'.symm)
  apply h.unique i hlt j hlt'
  · rw [logicalArray, logicalArray, hi, hj, Option.map_some, Option.map_some, hkey, hkey', hzero,
      hwrap]
    simp
  · rw [uniqueId_at hassigned hi, uniqueId_at hassigned hj, hkey, hkey', hzero, hwrap, hmesh]
    rfl

end

/-- The ids separate the logical arrays exactly when every mesh is used by one
type of processors, and no processor creates more than `2 ^ 64` arrays on it. -/
theorem unique_ids_separate_iff (cs : List Construction)
    (hassigned : ∀ c ∈ cs, c.assignedId = none) :
    IdsSeparate cs ↔
      (∀ c ∈ cs, ∀ d ∈ cs, c.sharding.devices = d.sharding.devices →
        c.processor.type = d.processor.type) ∧
      ∀ key, count cs key ≤ 2 ^ 64 := by
  constructor
  · intro h
    exact ⟨fun c hc d hd ↦ one_type_of_idsSeparate hassigned h hc hd,
      count_le_of_idsSeparate hassigned h⟩
  · rintro ⟨htype, hcount⟩
    exact idsSeparate_of_one_type hassigned htype hcount

/-- Two processors that create two arrays each on one mesh. -/
theorem unique_ids_separate_two_processors :
    IdsSeparate [⟨⟨.cpu, 0, 0⟩, ⟨[⟨8, 2, 0⟩], ⟨0, 2⟩⟩, none⟩,
      ⟨⟨.cpu, 1, 1⟩, ⟨[⟨8, 2, 0⟩], ⟨0, 2⟩⟩, none⟩,
      ⟨⟨.cpu, 0, 0⟩, ⟨[⟨8, 2, 0⟩], ⟨0, 2⟩⟩, none⟩,
      ⟨⟨.cpu, 1, 1⟩, ⟨[⟨8, 2, 0⟩], ⟨0, 2⟩⟩, none⟩] :=
  (unique_ids_separate_iff [⟨⟨.cpu, 0, 0⟩, ⟨[⟨8, 2, 0⟩], ⟨0, 2⟩⟩, none⟩,
      ⟨⟨.cpu, 1, 1⟩, ⟨[⟨8, 2, 0⟩], ⟨0, 2⟩⟩, none⟩,
      ⟨⟨.cpu, 0, 0⟩, ⟨[⟨8, 2, 0⟩], ⟨0, 2⟩⟩, none⟩,
      ⟨⟨.cpu, 1, 1⟩, ⟨[⟨8, 2, 0⟩], ⟨0, 2⟩⟩, none⟩] (by decide)).mpr
    ⟨by decide, fun _ ↦ List.countP_le_length.trans (by norm_num)⟩

/-- A CPU array and a GPU array on the same mesh both have the id zero. -/
theorem not_unique_ids_separate_cpu_gpu :
    ¬ ∀ cs : List Construction, (∀ c ∈ cs, c.assignedId = none) → IdsSeparate cs := by
  intro h
  have hseparate := h [⟨⟨.cpu, 0, 0⟩, ⟨[⟨8, 2, 0⟩], ⟨0, 2⟩⟩, none⟩,
    ⟨⟨.gpu, 0, 0⟩, ⟨[⟨8, 2, 0⟩], ⟨0, 2⟩⟩, none⟩] (by decide)
  exact hseparate.unique 0 (by decide) 1 (by decide) (by decide) (by decide)

end Zuku
