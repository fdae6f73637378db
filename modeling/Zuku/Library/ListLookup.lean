import Mathlib

/-!
# Lists of objects

Objects are kept in a list by the number of their creation.  An update replaces
one of them and a creation adds one at the end.
-/

namespace ListLookup

variable {α : Type} {xs : List α} {i j : ℕ} {x y z : α}

/-- An element of a list with one element replaced. -/
theorem eq_or_getElem?_of_set (h : (xs.set i y)[j]? = some z) :
    (j = i ∧ z = y) ∨ (j ≠ i ∧ xs[j]? = some z) := by
  by_cases heq : j = i
  · subst heq
    have hlt : j < (xs.set j y).length := (List.getElem?_eq_some_iff.mp h).1
    rw [List.length_set] at hlt
    rw [List.getElem?_set_self hlt] at h
    exact Or.inl ⟨rfl, (Option.some.inj h).symm⟩
  · rw [List.getElem?_set_ne (Ne.symm heq)] at h
    exact Or.inr ⟨heq, h⟩

theorem getElem?_set_of_getElem? (hi : xs[i]? = some x) : (xs.set i y)[i]? = some y :=
  List.getElem?_set_self (List.getElem?_eq_some_iff.mp hi).1

theorem eq_or_getElem?_of_push (h : (xs ++ [y])[j]? = some z) :
    (j = xs.length ∧ z = y) ∨ xs[j]? = some z := by
  rcases Nat.lt_trichotomy j xs.length with hlt | rfl | hgt
  · exact Or.inr (by rwa [List.getElem?_append_left hlt] at h)
  · exact Or.inl ⟨rfl, by simpa using h.symm⟩
  · have hlength : (xs ++ [y]).length ≤ j := by
      rw [List.length_append]
      exact hgt
    rw [List.getElem?_eq_none hlength] at h
    exact absurd h (by simp)

theorem getElem?_push_of_getElem? (hj : xs[j]? = some z) : (xs ++ [y])[j]? = some z := by
  rwa [List.getElem?_append_left (List.getElem?_eq_some_iff.mp hj).1]

/-- A count after one element has been replaced. -/
theorem countP_set_add (hi : xs[i]? = some x) (p : α → Bool) :
    (xs.set i y).countP p + (if p x then 1 else 0) =
      xs.countP p + (if p y then 1 else 0) := by
  obtain ⟨hlt, rfl⟩ := List.getElem?_eq_some_iff.mp hi
  rw [List.countP_set hlt]
  have hpos : p xs[i] = true → 0 < xs.countP p := fun hp ↦
    List.countP_pos_iff.mpr ⟨xs[i], List.getElem_mem hlt, hp⟩
  split_ifs with hold hnew
  · have := hpos hold
    omega
  · have := hpos hold
    omega
  · omega
  · omega

/-- A sum after one element has been replaced. -/
theorem sum_map_set_add (hi : xs[i]? = some x) (f : α → ℕ) :
    ((xs.set i y).map f).sum + f x = (xs.map f).sum + f y := by
  obtain ⟨hlt, rfl⟩ := List.getElem?_eq_some_iff.mp hi
  have hset := ((List.set_perm_cons_eraseIdx hlt y).map f).sum_eq
  have hget := ((List.getElem_cons_eraseIdx_perm hlt).map f).sum_eq
  rw [List.map_cons, List.sum_cons] at hset hget
  omega

/-- An element that was found comes before the others. -/
theorem perm_cons_eraseP {p : α → Bool} (h : xs.find? p = some x) :
    xs.Perm (x :: xs.eraseP p) := by
  induction xs with
  | nil => cases h
  | cons y xs ih =>
      by_cases hy : p y = true
      · rw [List.find?_cons_of_pos hy] at h
        obtain rfl := Option.some.inj h
        rw [List.eraseP_cons_of_pos hy]
      · rw [List.find?_cons_of_neg hy] at h
        rw [List.eraseP_cons_of_neg hy]
        exact ((ih h).cons y).trans (.swap x y _)

/-- Two rearrangements that agree at every position but one agree there too. -/
theorem eq_of_perm_of_getElem?_eq {ys : List α} (h : xs.Perm ys)
    (hsame : ∀ j ≠ i, xs[j]? = ys[j]?) : xs = ys := by
  have hlength := h.length_eq
  apply List.ext_getElem?
  intro j
  by_cases hj : j = i
  case neg => exact hsame j hj
  subst hj
  by_cases hlt : j < xs.length
  case neg => rw [List.getElem?_eq_none (by omega), List.getElem?_eq_none (by omega)]
  have herase : xs.eraseIdx j = ys.eraseIdx j := by
    apply List.ext_getElem?
    intro k
    rw [List.getElem?_eraseIdx, List.getElem?_eraseIdx]
    split_ifs with hk
    · exact hsame k hk.ne
    · exact hsame (k + 1) (by omega)
  have hperm := ((List.getElem_cons_eraseIdx_perm hlt).trans h).trans
    (List.getElem_cons_eraseIdx_perm (hlength ▸ hlt)).symm
  rw [herase] at hperm
  have hsingle : [xs[j]].Perm [ys[j]] := (List.perm_append_right_iff (ys.eraseIdx j)).mp hperm
  rw [List.getElem?_eq_getElem hlt, List.getElem?_eq_getElem (hlength ▸ hlt),
    List.singleton_perm_singleton.mp hsingle]

end ListLookup
