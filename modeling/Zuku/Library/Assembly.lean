import Mathlib

/-!
# Assembling a function from patches

A patch overwrites a function on a region.  Patches that agree with a function
`g` on their regions and together cover a set leave `g` on that set, in
whatever order they are applied.
-/

namespace Assembly

variable {X α : Type*}

structure Patch (X α : Type*) where
  region : Set X
  value : X → α

namespace Patch

open Classical in
noncomputable def apply (patch : Patch X α) (f : X → α) (x : X) : α :=
  if x ∈ patch.region then patch.value x else f x

theorem apply_of_mem {patch : Patch X α} {x : X} (h : x ∈ patch.region) (f : X → α) :
    patch.apply f x = patch.value x := if_pos h

theorem apply_of_notMem {patch : Patch X α} {x : X} (h : x ∉ patch.region) (f : X → α) :
    patch.apply f x = f x := if_neg h

end Patch

noncomputable def applyAll (patches : List (Patch X α)) (f : X → α) : X → α :=
  patches.foldl (fun f patch ↦ patch.apply f) f

/-- A value that is right stays right under patches that agree with `g`. -/
theorem applyAll_eq_of_eq {patches : List (Patch X α)} {g : X → α} {x : X}
    (hagree : ∀ patch ∈ patches, x ∈ patch.region → patch.value x = g x) (f : X → α)
    (hf : f x = g x) : applyAll patches f x = g x := by
  induction patches generalizing f with
  | nil => exact hf
  | cons patch patches ih =>
      refine ih (fun q hq ↦ hagree q (List.mem_cons_of_mem _ hq)) (patch.apply f) ?_
      by_cases hx : x ∈ patch.region
      · rw [Patch.apply_of_mem hx]
        exact hagree patch List.mem_cons_self hx
      · rw [Patch.apply_of_notMem hx]
        exact hf

theorem applyAll_eq_of_covered {patches : List (Patch X α)} {g : X → α} {x : X}
    (hagree : ∀ patch ∈ patches, x ∈ patch.region → patch.value x = g x)
    (hcovered : ∃ patch ∈ patches, x ∈ patch.region) (f : X → α) :
    applyAll patches f x = g x := by
  induction patches generalizing f with
  | nil => simp at hcovered
  | cons patch patches ih =>
      have hagree' := fun q hq ↦ hagree q (List.mem_cons_of_mem _ hq)
      by_cases hx : x ∈ patch.region
      · refine applyAll_eq_of_eq hagree' (patch.apply f) ?_
        rw [Patch.apply_of_mem hx]
        exact hagree patch List.mem_cons_self hx
      · obtain ⟨q, hq, hqx⟩ := hcovered
        rcases List.mem_cons.mp hq with rfl | hq
        · exact absurd hqx hx
        · exact ih hagree' ⟨q, hq, hqx⟩ (patch.apply f)

end Assembly
