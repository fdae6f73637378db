import Zuku.CreatedArray
import Zuku.Library.ListLookup
import Zuku.Library.StepRuns

/-!
# Counts of allocations

An allocation is counted when an array gets a tile, and the count goes down when
any array is destroyed.  The counts are those of the arrays in use as long as all
arrays that are destroyed own a tile.
-/

namespace Zuku

open StepRuns

namespace AllocationCounts

variable {counts : AllocationCounts}

theorem count_add (counts : AllocationCounts) (p q : ProcessorKey) (s t : ShardedShape) (n : ℤ) :
    (counts.add p s n).count q t = counts.count q t + if p = q ∧ s = t then n else 0 := by
  rw [count, add]
  by_cases hp : p = q
  · subst hp
    rw [Function.update_self]
    by_cases hs : s = t
    · subst hs
      rw [AList.lookup_insert, if_pos ⟨rfl, rfl⟩]
      rfl
    · rw [AList.lookup_insert_ne (Ne.symm hs), if_neg (fun h ↦ hs h.2), add_zero]
      rfl
  · rw [Function.update_of_ne (Ne.symm hp), if_neg (fun h ↦ hp h.1), add_zero]
    rfl

theorem mem_reported {p : ProcessorKey} {shape : ShardedShape} {n : ℤ} :
    (shape, n) ∈ counts.reported p ↔ 0 < n ∧ counts.count p shape = n := by
  rw [reported, List.mem_filter, decide_eq_true_eq, and_comm]
  refine and_congr_right fun hn ↦ ?_
  rw [List.mem_map, count]
  constructor
  · rintro ⟨entry, hentry, hline⟩
    obtain ⟨rfl, rfl⟩ := Prod.mk.inj hline
    rw [AList.mem_lookup_iff.mpr hentry]
    rfl
  · intro hcount
    cases hlookup : (counts p).lookup shape with
    | none =>
        rw [hlookup] at hcount
        exact absurd hcount hn.ne
    | some m =>
        rw [hlookup] at hcount
        obtain rfl : m = n := hcount
        exact ⟨⟨shape, m⟩, AList.mem_lookup_iff.mp hlookup, rfl⟩

end AllocationCounts

inductive ArrayCall (ε : Type) where
  | create (shape : ShardedShape) (ctor : ShardedArray.Ctor) (first second : Allocation ε)
  | destroy (i : ℕ)

/-- A process and the arrays that were created and have not been destroyed. -/
structure ArrayUse (ε : Type) where
  state : ProcessState ε := {}
  live : List CreatedArray := []

variable {ε : Type}

namespace ArrayUse

def step [TileCacheBuild] [RealmBuild] (use : ArrayUse ε) : ArrayCall ε → ArrayUse ε
  | .create shape ctor first second =>
      match CreatedArray.create shape ctor first second use.state with
      | (.ok store, state) => ⟨state, use.live ++ store.value.toList⟩
      | (.error _, state) => ⟨state, use.live⟩
  | .destroy i =>
      match use.live[i]? with
      | some array => ⟨array.destroy use.state, use.live.eraseIdx i⟩
      | none => use

variable (use : ArrayUse ε)

/-- The array is one of a shape on a processor, and owns a tile. -/
def allocated (p : ProcessorKey) (shape : ShardedShape) (array : CreatedArray) : Bool :=
  decide (array.processor.key = p) && decide (array.shape = shape) && array.hasTile

/-- The counts, and the report that is made from them, are those of the arrays
that own a tile. -/
structure Accurate : Prop where
  count_eq : ∀ p shape,
    use.state.allocationCounts.count p shape = use.live.countP (allocated p shape)
  nonneg : ∀ p shape, 0 ≤ use.state.allocationCounts.count p shape
  reported : ∀ p shape n, (shape, n) ∈ use.state.allocationCounts.reported p ↔
    0 < n ∧ (use.live.countP (allocated p shape) : ℤ) = n

def DestroysTile : ArrayCall ε → Prop
  | .create _ _ _ _ => True
  | .destroy i => ∀ array ∈ use.live[i]?, array.hasTile = true

/-! ## Accurate counts -/

section

variable {use : ArrayUse ε}

theorem accurate_of_count (h : ∀ p shape,
    use.state.allocationCounts.count p shape = use.live.countP (allocated p shape)) :
    use.Accurate where
  count_eq := h
  nonneg p shape := by
    rw [h]
    exact Int.natCast_nonneg _
  reported p shape n := by
    rw [AllocationCounts.mem_reported, h]

theorem accurate_empty : ({} : ArrayUse ε).Accurate :=
  accurate_of_count fun _ _ ↦ rfl

theorem allocated_iff {p : ProcessorKey} {shape : ShardedShape} {array : CreatedArray} :
    allocated p shape array = true ↔
      (array.processor.key = p ∧ array.shape = shape) ∧ array.hasTile = true := by
  rw [allocated, Bool.and_eq_true, Bool.and_eq_true, decide_eq_true_eq, decide_eq_true_eq]

/-- The arrays that own a tile, before and after one is destroyed. -/
theorem countP_eraseIdx_add {i : ℕ} {array : CreatedArray} (hi : use.live[i]? = some array)
    (p : CreatedArray → Bool) :
    (use.live.eraseIdx i).countP p + (if p array then 1 else 0) = use.live.countP p := by
  obtain ⟨hlt, rfl⟩ := List.getElem?_eq_some_iff.mp hi
  rw [← (List.getElem_cons_eraseIdx_perm hlt).countP_eq, List.countP_cons]

variable [TileCacheBuild] [RealmBuild]

theorem Accurate.create (h : use.Accurate) (shape : ShardedShape) (ctor : ShardedArray.Ctor)
    (first second : Allocation ε) : (use.step (.create shape ctor first second)).Accurate := by
  rw [step]
  have hcreated := CreatedArray.createdBy shape ctor first second use.state
  generalize CreatedArray.create shape ctor first second use.state = result at hcreated ⊢
  apply accurate_of_count
  intro p s
  cases hcreated with
  | outside shardId =>
      set array := (CreatedArray.construct shape { ctor with shardId := shardId } none
        use.state).1 with harray
      have hnot : ¬allocated p s array = true := by
        rw [allocated_iff]
        rintro ⟨-, htile⟩
        cases htile
      simp only [Store.create, Option.toList_some, List.countP_append, List.countP_singleton]
      rw [if_neg hnot]
      exact h.count_eq p s
  | inside shardId event tile memory =>
      set array := (CreatedArray.construct shape { ctor with shardId := shardId } (some tile)
        use.state).1 with harray
      have hcounted : allocated p s array = true ↔ ctor.processor.key = p ∧ shape = s := by
        rw [allocated_iff]
        exact and_iff_left rfl
      simp only [Store.deferredCreate, Option.toList_some, List.countP_append,
        List.countP_singleton]
      rw [AllocationCounts.count_add, h.count_eq]
      simp only [hcounted]
      push_cast
      rfl
  | failed fault memory => exact h.count_eq p s

theorem Accurate.destroy_iff (h : use.Accurate) (i : ℕ) :
    (use.step (.destroy i)).Accurate ↔ use.DestroysTile (.destroy i) := by
  rw [step, DestroysTile]
  cases hlive : use.live[i]? with
  | none =>
      refine ⟨fun _ array harray ↦ ?_, fun _ ↦ h⟩
      cases harray
  | some array =>
      have hcount (p : ProcessorKey) (s : ShardedShape) :
          (array.destroy use.state).allocationCounts.count p s =
            use.live.countP (allocated p s) +
              if array.processor.key = p ∧ array.shape = s then -1 else 0 := by
        rw [CreatedArray.destroy, AllocationCounts.count_add, h.count_eq]
      constructor
      · rintro hafter _ ⟨⟩
        -- without a tile its own count goes down, but not the number of arrays
        have hown := hafter.count_eq array.processor.key array.shape
        have hlive' := countP_eraseIdx_add hlive (allocated array.processor.key array.shape)
        simp only [hcount, true_and, if_true] at hown
        by_contra htile
        rw [if_neg (by rw [allocated_iff]; exact fun hall ↦ htile hall.2)] at hlive'
        omega
      · intro htile
        apply accurate_of_count
        intro p s
        have hlive' := countP_eraseIdx_add hlive (allocated p s)
        simp only [hcount]
        simp only [allocated_iff, htile array rfl, and_true] at hlive'
        split_ifs at hlive' ⊢ <;> omega

theorem Accurate.step_iff (h : use.Accurate) (action : ArrayCall ε) :
    (use.step action).Accurate ↔ use.DestroysTile action := by
  cases action with
  | create shape ctor first second => exact iff_of_true (h.create shape ctor first second) trivial
  | destroy i => exact h.destroy_iff i

end

variable [TileCacheBuild] [RealmBuild]

/-- The counts are those of the arrays that own a tile after every step of a run if
and only if every array that is destroyed owns one. -/
theorem accurate_run_iff (actions : List (ArrayCall ε)) :
    Along step (fun use action ↦ (use.step action).Accurate) ({} : ArrayUse ε) actions ↔
      Along step DestroysTile ({} : ArrayUse ε) actions :=
  along_congr (P := fun use action ↦ (step use action).Accurate) (Q := DestroysTile) (s := {})
    (fun _ action h ↦ Accurate.step_iff h action)
    (fun _ action h hdestroys ↦ (Accurate.step_iff h action).mpr hdestroys) accurate_empty actions

omit [TileCacheBuild] [RealmBuild] in
/-- An array on a processor outside of its mesh leaves the count at minus one. -/
theorem not_accurate_outside :
    ¬ ∀ (_ : TileCacheBuild) (_ : RealmBuild) (actions : List (ArrayCall ℕ)),
      Along step (fun use action ↦ (use.step action).Accurate) ({} : ArrayUse ℕ) actions := by
  intro h
  obtain ⟨-, haccurate, -⟩ := h .withCache .rankFour
    [.create ⟨.f32, ⟨[⟨4, 1, 0⟩], ⟨0, 1⟩⟩⟩ { processor := ⟨.cpu, 1, 1⟩ } (.next ∅ true)
      (.next ∅ true), .destroy 0]
  exact absurd (haccurate.nonneg ⟨.cpu, 1⟩ ⟨.f32, ⟨[⟨4, 1, 0⟩], ⟨0, 1⟩⟩⟩) (by decide)

end ArrayUse

end Zuku
