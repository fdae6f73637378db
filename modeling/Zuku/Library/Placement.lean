import Mathlib

/-!
# Things in one place each

Things are kept in slots, one in each, and in queues.  If no thing is in two
places, it stays so when a thing is taken out of its place, and when one that is
nowhere is put into a place.
-/

namespace Placement

variable {κ θ τ : Type*}

/-- Where a thing is: in a slot, in a queue, or nowhere. -/
structure Placed (slots : κ → Option τ) (queues : θ → List τ) (place : τ → Option (κ ⊕ θ)) :
    Prop where
  slot : ∀ v t, slots v = some t → place t = some (.inl v)
  queued : ∀ q, ∀ t ∈ queues q, place t = some (.inr q)
  nodup : ∀ q, (queues q).Nodup

variable {slots : κ → Option τ} {queues : θ → List τ} {place : τ → Option (κ ⊕ θ)}

theorem placed_empty : Placed (fun _ : κ ↦ (none : Option τ)) (fun _ : θ ↦ []) fun _ ↦ none where
  slot v t h := by cases h
  queued q t h := by cases h
  nodup q := List.nodup_nil

/-- Two slots do not hold the same thing. -/
theorem Placed.slot_injective (h : Placed slots queues place) {v w : κ} {t : τ}
    (hv : slots v = some t) (hw : slots w = some t) : v = w := by
  have hplace := (h.slot v t hv).symm.trans (h.slot w t hw)
  exact Sum.inl.inj (Option.some.inj hplace)

/-- Queues that have lost things. -/
theorem Placed.sublist (h : Placed slots queues place) {queues' : θ → List τ}
    (hsublist : ∀ q, (queues' q).Sublist (queues q)) : Placed slots queues' place where
  slot := h.slot
  queued q t ht := h.queued q t ((hsublist q).subset ht)
  nodup q := (h.nodup q).sublist (hsublist q)

variable [DecidableEq κ] [DecidableEq θ] [DecidableEq τ]

omit [DecidableEq κ] [DecidableEq θ] in
/-- A thing stays where it is when one that is elsewhere is moved. -/
theorem update_of_elsewhere {t u : τ} {p : κ ⊕ θ} (hu : place u = some p) (ht : place t ≠ some p)
    (x : Option (κ ⊕ θ)) : Function.update place t x u = some p := by
  have hne : u ≠ t := by
    rintro rfl
    exact ht hu
  rwa [Function.update_of_ne hne]

omit [DecidableEq θ] in
theorem Placed.take (h : Placed slots queues place) {v : κ} {t : τ} (hv : slots v = some t) :
    Placed (Function.update slots v none) queues (Function.update place t none) where
  slot w u hw := by
    have hne : w ≠ v := by
      rintro rfl
      simp at hw
    rw [Function.update_of_ne hne] at hw
    apply update_of_elsewhere (h.slot w u hw)
    simp [h.slot v t hv, Ne.symm hne]
  queued q u hu := update_of_elsewhere (h.queued q u hu) (by simp [h.slot v t hv]) _
  nodup := h.nodup

omit [DecidableEq θ] in
theorem Placed.put (h : Placed slots queues place) (v : κ) {t : τ} (ht : place t = none) :
    Placed (Function.update slots v (some t)) queues
      (Function.update place t (some (.inl v))) where
  slot w u hw := by
    by_cases hwv : w = v
    · subst hwv
      obtain rfl : t = u := by simpa using hw
      exact Function.update_self ..
    · rw [Function.update_of_ne hwv] at hw
      exact update_of_elsewhere (h.slot w u hw) (by simp [ht]) _
  queued q u hu := update_of_elsewhere (h.queued q u hu) (by simp [ht]) _
  nodup := h.nodup

omit [DecidableEq κ] in
theorem Placed.pop (h : Placed slots queues place) {q : θ} {t : τ} {rest : List τ}
    (hq : queues q = t :: rest) :
    Placed slots (Function.update queues q rest) (Function.update place t none) := by
  have hplace : place t = some (.inr q) := h.queued q t (hq ▸ List.mem_cons_self)
  have hnodup := h.nodup q
  rw [hq, List.nodup_cons] at hnodup
  constructor
  · exact fun v u hv ↦ update_of_elsewhere (h.slot v u hv) (by simp [hplace]) _
  · intro r u hu
    by_cases hrq : r = q
    · subst hrq
      rw [Function.update_self] at hu
      have hne : u ≠ t := by
        rintro rfl
        exact hnodup.1 hu
      rw [Function.update_of_ne hne]
      exact h.queued r u (hq ▸ List.mem_cons_of_mem t hu)
    · rw [Function.update_of_ne hrq] at hu
      exact update_of_elsewhere (h.queued r u hu) (by simp [hplace, Ne.symm hrq]) _
  · intro r
    by_cases hrq : r = q
    · rw [hrq, Function.update_self]
      exact hnodup.2
    · rw [Function.update_of_ne hrq]
      exact h.nodup r

omit [DecidableEq κ] in
theorem Placed.push (h : Placed slots queues place) (q : θ) {t : τ} (ht : place t = none) :
    Placed slots (Function.update queues q (queues q ++ [t]))
      (Function.update place t (some (.inr q))) := by
  have hnot (r : θ) : t ∉ queues r := by
    intro hmem
    simp [h.queued r t hmem] at ht
  constructor
  · exact fun v u hv ↦ update_of_elsewhere (h.slot v u hv) (by simp [ht]) _
  · intro r u hu
    by_cases hrq : r = q
    · subst hrq
      rw [Function.update_self, List.mem_append, List.mem_singleton] at hu
      rcases hu with hu | rfl
      · exact update_of_elsewhere (h.queued r u hu) (by simp [ht]) _
      · exact Function.update_self ..
    · rw [Function.update_of_ne hrq] at hu
      exact update_of_elsewhere (h.queued r u hu) (by simp [ht]) _
  · intro r
    by_cases hrq : r = q
    · subst hrq
      rw [Function.update_self]
      exact (h.nodup r).append (List.nodup_singleton t)
        (List.disjoint_singleton.mpr (hnot r))
    · rw [Function.update_of_ne hrq]
      exact h.nodup r

end Placement
