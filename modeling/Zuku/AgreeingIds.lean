import Zuku.CreatedArray
import Zuku.Library.ListLookup
import Zuku.Library.StepRuns

/-!
# Agreeing ids

Processors of one type create the same sequence of arrays, each at its own pace
and after any number of failed attempts.  The id of an array is the number of
arrays created before it on the same mesh, on every processor.
-/

namespace Zuku

open Event ShardedArray StepRuns

/-- Processors of one type.  A process knows its processors by their local ids. -/
structure ProcessorSet (ι π : Type) where
  type : ProcessorType
  process : ι → π
  processor : ι → Processor
  type_eq : ∀ i, (processor i).type = type
  localId_inj : ∀ i j, process i = process j →
    (processor i).localId = (processor j).localId → i = j

/-- A processor attempts to create its next array. -/
structure CreationAttempt (ι ε : Type) where
  processor : ι
  name : Option String := none
  shardId : Option ℕ := none
  first : Allocation ε
  second : Allocation ε

/-- The processes, and the unique ids of the arrays that each processor has
created so far. -/
structure Creations (ι π ε : Type) where
  states : π → ProcessState ε := fun _ ↦ {}
  ids : ι → List UniqueId := fun _ ↦ []

def countOn (calls : List ShardedShape) (devices : DeviceList) : ℕ :=
  calls.countP fun shape ↦ decide (shape.sharding.devices = devices)

variable {ι π ε : Type} [DecidableEq ι] [DecidableEq π] [TileCacheBuild] [RealmBuild]

namespace Creations

/-- A call that fails is attempted again. -/
def step (set : ProcessorSet ι π) (calls : List ShardedShape) (creations : Creations ι π ε)
    (attempt : CreationAttempt ι ε) : Creations ι π ε :=
  let i := attempt.processor
  match calls[(creations.ids i).length]? with
  | none => creations
  | some shape =>
      let ctor : Ctor :=
        { name := attempt.name, shardId := attempt.shardId, processor := set.processor i }
      match CreatedArray.create shape ctor attempt.first attempt.second
        (creations.states (set.process i)) with
      | (.ok store, state) =>
          { states := Function.update creations.states (set.process i) state
            ids := Function.update creations.ids i
              (creations.ids i ++ (store.value.map CreatedArray.uniqueId).toList) }
      | (.error _, state) =>
          { creations with states := Function.update creations.states (set.process i) state }

def run (set : ProcessorSet ι π) (calls : List ShardedShape)
    (attempts : List (CreationAttempt ι ε)) : Creations ι π ε :=
  attempts.foldl (step set calls) {}

end Creations

def SameIds (ids : ι → List UniqueId) : Prop :=
  ∀ i j, ∀ n : ℕ, ∀ a ∈ (ids i)[n]?, ∀ b ∈ (ids j)[n]?, a = b

def DifferentIds (calls : List ShardedShape) (ids : ι → List UniqueId) (devices : DeviceList) :
    Prop :=
  ∀ i j, ∀ m n : ℕ, ∀ s ∈ calls[m]?, ∀ t ∈ calls[n]?,
    s.sharding.devices = devices → t.sharding.devices = devices → m ≠ n →
    ∀ a ∈ (ids i)[m]?, ∀ b ∈ (ids j)[n]?, a ≠ b

namespace Creations

/-! ## The next id -/

/-- The counters are where the created arrays have brought them. -/
structure CreationInv (set : ProcessorSet ι π) (calls : List ShardedShape)
    (creations : Creations ι π ε) : Prop where
  ids : ∀ i, ∀ n : ℕ, ∀ a ∈ (creations.ids i)[n]?, ∃ shape, calls[n]? = some shape ∧
    a = ⟨UInt64.ofNat (countOn (calls.take n) shape.sharding.devices), shape.sharding.devices⟩
  nextIds : ∀ i devices, (creations.states (set.process i)).nextIds
      ⟨devices, (set.processor i).localId, set.type⟩ =
    UInt64.ofNat (countOn (calls.take (creations.ids i).length) devices)

section

variable {set : ProcessorSet ι π} {calls : List ShardedShape} {creations : Creations ι π ε}

omit [TileCacheBuild] [RealmBuild] in
theorem countOn_take_succ {n : ℕ} {shape : ShardedShape} (h : calls[n]? = some shape)
    (devices : DeviceList) :
    countOn (calls.take (n + 1)) devices =
      countOn (calls.take n) devices + if shape.sharding.devices = devices then 1 else 0 := by
  rw [List.take_add_one, h, countOn, List.countP_append]
  by_cases heq : shape.sharding.devices = devices <;> simp [countOn, heq]

omit [DecidableEq ι] [TileCacheBuild] [RealmBuild] in
theorem CreationInv.failed (h : CreationInv set calls creations) {q : π} {state : ProcessState ε}
    (hstate : state.nextIds = (creations.states q).nextIds) :
    CreationInv set calls
      { creations with states := Function.update creations.states q state } := by
  refine ⟨h.ids, fun i devices ↦ ?_⟩
  rw [← h.nextIds i devices]
  by_cases hq : set.process i = q
  · subst hq
    simp only [Function.update_self, hstate]
  · simp only [Function.update_of_ne hq]

omit [TileCacheBuild] [RealmBuild] in
theorem CreationInv.created (h : CreationInv set calls creations) {i : ι} {shape : ShardedShape}
    (hshape : calls[(creations.ids i).length]? = some shape) {state : ProcessState ε}
    (hstate : state.nextIds =
      (allocateNextGlobalId (set.processor i) shape.sharding none
        (creations.states (set.process i)).nextIds).2) :
    CreationInv set calls
      { states := Function.update creations.states (set.process i) state
        ids := Function.update creations.ids i (creations.ids i ++
          [⟨(allocateNextGlobalId (set.processor i) shape.sharding none
            (creations.states (set.process i)).nextIds).1, shape.sharding.devices⟩]) } := by
  have hkey : globalIdKey (set.processor i) shape.sharding =
      ⟨shape.sharding.devices, (set.processor i).localId, set.type⟩ := by
    rw [globalIdKey, set.type_eq]
  constructor
  · intro j n a ha
    by_cases hj : j = i
    · subst hj
      simp only [Function.update_self] at ha
      rcases ListLookup.eq_or_getElem?_of_push ha with ⟨rfl, rfl⟩ | ha
      · refine ⟨shape, hshape, ?_⟩
        rw [allocateNextGlobalId, hkey, h.nextIds]
      · exact h.ids j n a ha
    · simp only [Function.update_of_ne hj] at ha
      exact h.ids j n a ha
  · intro j devices
    by_cases hprocess : set.process j = set.process i
    · simp only [hprocess, Function.update_self, hstate, allocateNextGlobalId, hkey]
      by_cases hj : j = i
      · subst hj
        rw [Function.update_self, List.length_append, List.length_singleton,
          countOn_take_succ hshape]
        by_cases hdevices : shape.sharding.devices = devices
        · rw [hdevices, Function.update_self, h.nextIds, if_pos rfl, UInt64.ofNat_add]
          rfl
        · have hne : (⟨devices, (set.processor j).localId, set.type⟩ : GlobalIdKey) ≠
              ⟨shape.sharding.devices, (set.processor j).localId, set.type⟩ := by
            simpa using Ne.symm hdevices
          rw [Function.update_of_ne hne, h.nextIds, if_neg hdevices, Nat.add_zero]
      · have hne : (⟨devices, (set.processor j).localId, set.type⟩ : GlobalIdKey) ≠
            ⟨shape.sharding.devices, (set.processor i).localId, set.type⟩ := by
          intro heq
          exact hj (set.localId_inj j i hprocess (GlobalIdKey.mk.inj heq).2.1)
        rw [Function.update_of_ne hne, Function.update_of_ne hj, ← hprocess, h.nextIds]
    · have hj : j ≠ i := by
        rintro rfl
        exact hprocess rfl
      simp only [Function.update_of_ne hprocess, Function.update_of_ne hj]
      exact h.nextIds j devices

theorem CreationInv.step (h : CreationInv set calls creations) (attempt : CreationAttempt ι ε) :
    CreationInv set calls (creations.step set calls attempt) := by
  rw [Creations.step]
  cases hshape : calls[(creations.ids attempt.processor).length]? with
  | none => exact h
  | some shape =>
      have hcreated := CreatedArray.createdBy shape
        { name := attempt.name, shardId := attempt.shardId,
          processor := set.processor attempt.processor }
        attempt.first attempt.second (creations.states (set.process attempt.processor))
      simp only
      generalize CreatedArray.create shape _ attempt.first attempt.second
        (creations.states (set.process attempt.processor)) = result at hcreated ⊢
      cases hcreated with
      | outside shardId => exact h.created hshape rfl
      | inside shardId event tile memory => exact h.created hshape rfl
      | failed fault memory => exact h.failed rfl

theorem creationInv_run (set : ProcessorSet ι π) (calls : List ShardedShape)
    (attempts : List (CreationAttempt ι ε)) : CreationInv set calls (run set calls attempts) := by
  apply @foldl_invariant _ _ _ _ (CreationInv set calls)
  · exact fun _ attempt h ↦ CreationInv.step h attempt
  · exact ⟨fun i n a ha ↦ by simp at ha, fun i devices ↦ by simp [countOn]⟩

omit [TileCacheBuild] [RealmBuild] in
/-- An array is counted for the arrays after it. -/
theorem countOn_take_lt {m n : ℕ} {shape : ShardedShape} (h : calls[m]? = some shape)
    (hmn : m < n) :
    countOn (calls.take m) shape.sharding.devices <
      countOn (calls.take n) shape.sharding.devices := by
  have hsucc := countOn_take_succ h shape.sharding.devices
  have hle : countOn (calls.take (m + 1)) shape.sharding.devices ≤
      countOn (calls.take n) shape.sharding.devices :=
    (List.take_prefix_take_left hmn).sublist.countP_le
  rw [if_pos rfl] at hsucc
  omega

/-- After every interleaving of attempts the ids agree, and they tell apart up to
`2 ^ 64` arrays on a mesh. -/
theorem idsAgree_run (set : ProcessorSet ι π) (calls : List ShardedShape)
    (attempts : List (CreationAttempt ι ε)) :
    SameIds (run set calls attempts).ids ∧
      ∀ devices, countOn calls devices ≤ 2 ^ 64 →
        DifferentIds calls (run set calls attempts).ids devices := by
  have hinv := creationInv_run set calls attempts
  constructor
  · intro i j n a ha b hb
    obtain ⟨s, hs, rfl⟩ := hinv.ids i n a ha
    obtain ⟨t, ht, rfl⟩ := hinv.ids j n b hb
    obtain rfl := Option.some.inj (hs.symm.trans ht)
    rfl
  · intro devices hcount i j m n s hs t ht hsdev htdev hne a ha b hb heq
    have hlt {k : ℕ} {shape : ShardedShape} (hk : calls[k]? = some shape)
        (hdev : shape.sharding.devices = devices) :
        countOn (calls.take k) devices < 2 ^ 64 := by
      obtain ⟨hlength, -⟩ := List.getElem?_eq_some_iff.mp hk
      have htake := countOn_take_lt hk hlength
      rw [List.take_length, hdev] at htake
      exact htake.trans_le hcount
    obtain ⟨s', hs', rfl⟩ := hinv.ids i m a ha
    obtain rfl := Option.some.inj (hs'.symm.trans hs)
    obtain ⟨t', ht', rfl⟩ := hinv.ids j n b hb
    obtain rfl := Option.some.inj (ht'.symm.trans ht)
    have hid := (UniqueId.mk.inj heq).1
    rw [hsdev, htdev] at hid
    have hcounts := (ofNat_eq_iff (hlt hs' hsdev) (hlt ht' htdev)).mp hid
    rcases Nat.lt_or_gt_of_ne hne with hmn | hnm
    · have hless := countOn_take_lt hs' hmn
      rw [hsdev, hcounts] at hless
      exact lt_irrefl _ hless
    · have hless := countOn_take_lt ht' hnm
      rw [htdev, hcounts] at hless
      exact lt_irrefl _ hless

end

/-- Two processors of one process; the second is not part of the mesh. -/
def twoProcessors : ProcessorSet Bool Unit where
  type := .cpu
  process _ := ()
  processor i := if i then ⟨.cpu, 1, 1⟩ else ⟨.cpu, 0, 0⟩
  type_eq i := by cases i <;> rfl
  localId_inj i j _ h := by cases i <;> cases j <;> simp_all

def oneDeviceShape : ShardedShape := ⟨.f32, ⟨[⟨4, 1, 0⟩], ⟨0, 1⟩⟩⟩

def retriedAttempts : List (CreationAttempt Bool ℕ) :=
  [{ processor := false, first := .next ∅ false, second := .next ∅ false },
    { processor := true, first := .next ∅ true, second := .next ∅ true },
    { processor := false, first := .next ∅ true, second := .next ∅ true },
    { processor := true, first := .next ∅ true, second := .next ∅ true },
    { processor := false, first := .next ∅ false, second := .next ∅ true }]

omit [TileCacheBuild] [RealmBuild] in
/-- The first attempt of the member of the mesh fails. -/
theorem idsAgree_retried :
    DifferentIds [oneDeviceShape, oneDeviceShape]
      (@run Bool Unit ℕ _ _ .withCache .rankFour twoProcessors [oneDeviceShape, oneDeviceShape]
        retriedAttempts).ids ⟨0, 1⟩ :=
  (@idsAgree_run Bool Unit ℕ _ _ .withCache .rankFour twoProcessors
    [oneDeviceShape, oneDeviceShape] retriedAttempts).2 ⟨0, 1⟩ (by decide)

/-! ## A counter that wraps around -/

/-- An attempt that succeeds, on the processor outside of the mesh. -/
def outsideAttempt : CreationAttempt Bool ℕ :=
  { processor := true, first := .next ∅ true, second := .next ∅ true }

theorem length_ids_outside {k n : ℕ} (hn : n ≤ k) :
    ((run twoProcessors (List.replicate k oneDeviceShape)
      (List.replicate n outsideAttempt)).ids true).length = n := by
  induction n with
  | zero => rfl
  | succ n ih =>
      have ih := ih (by omega)
      rw [run, List.replicate_succ', List.foldl_append, List.foldl_cons, List.foldl_nil]
      rw [run] at ih
      generalize List.foldl (step twoProcessors (List.replicate k oneDeviceShape)) {}
        (List.replicate n outsideAttempt) = creations at ih ⊢
      have hcall : (List.replicate k oneDeviceShape)[(creations.ids true).length]? =
          some oneDeviceShape := by
        rw [ih, List.getElem?_replicate, if_pos (by omega)]
      have hstep : (creations.step twoProcessors (List.replicate k oneDeviceShape)
          outsideAttempt).ids true = creations.ids true ++
            [⟨(creations.states ()).nextIds ⟨⟨0, 1⟩, 1, .cpu⟩, ⟨0, 1⟩⟩] := by
        simp only [step, outsideAttempt, hcall]
        rfl
      rw [hstep, List.length_append, ih, List.length_singleton]

theorem id_outside {k n : ℕ} (hn : n < k) :
    ((run twoProcessors (List.replicate k oneDeviceShape)
      (List.replicate k outsideAttempt)).ids true)[n]? = some ⟨UInt64.ofNat n, ⟨0, 1⟩⟩ := by
  have hlength : n < ((run twoProcessors (List.replicate k oneDeviceShape)
      (List.replicate k outsideAttempt)).ids true).length := by
    rw [length_ids_outside le_rfl]
    exact hn
  obtain ⟨shape, hshape, hid⟩ := (creationInv_run twoProcessors (List.replicate k oneDeviceShape)
    (List.replicate k outsideAttempt)).ids true n _ (List.getElem?_eq_getElem hlength)
  rw [List.getElem?_replicate, if_pos hn] at hshape
  obtain rfl := Option.some.inj hshape
  have hcount : countOn ((List.replicate k oneDeviceShape).take n) ⟨0, 1⟩ = n := by
    rw [List.take_replicate, Nat.min_eq_left hn.le, countOn, List.countP_replicate]
    rfl
  rw [List.getElem?_eq_getElem hlength, hid]
  exact congrArg (fun count ↦ some (⟨UInt64.ofNat count, ⟨0, 1⟩⟩ : UniqueId)) hcount

omit [TileCacheBuild] [RealmBuild] in
/-- Of `2 ^ 64 + 1` arrays the last one has the id of the first one. -/
theorem not_idsAgree_wrapped :
    ¬ ∀ (_ : TileCacheBuild) (_ : RealmBuild) (set : ProcessorSet Bool Unit)
      (calls : List ShardedShape) (attempts : List (CreationAttempt Bool ℕ)),
      SameIds (run set calls attempts).ids ∧
        ∀ devices, DifferentIds calls (run set calls attempts).ids devices := by
  intro h
  obtain ⟨k, hk⟩ : ∃ k, k = 2 ^ 64 + 1 := ⟨_, rfl⟩
  let _ : TileCacheBuild := .withCache
  let _ : RealmBuild := .rankFour
  obtain ⟨-, hdifferent⟩ := h .withCache .rankFour twoProcessors
    (List.replicate k oneDeviceShape) (List.replicate k outsideAttempt)
  have hcall {n : ℕ} (hn : n < k) :
      oneDeviceShape ∈ (List.replicate k oneDeviceShape)[n]? := by
    rw [Option.mem_def, List.getElem?_replicate, if_pos hn]
  have hfirst := id_outside (k := k) (n := 0) (by omega)
  have hlast := id_outside (k := k) (n := 2 ^ 64) (by omega)
  exact hdifferent ⟨0, 1⟩ true true 0 (2 ^ 64) _ (hcall (by omega)) _ (hcall (by omega)) rfl rfl
    (by omega) _ hfirst _ hlast rfl

end Creations

end Zuku
