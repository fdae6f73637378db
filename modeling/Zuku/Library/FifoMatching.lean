import Mathlib

/-!
# Matching two streams in order

Two streams arrive interleaved.  An arrival that finds the other side waiting
is matched with the oldest element there, and otherwise waits itself.  Whatever
the interleaving, the `k`-th element of one stream meets the `k`-th of the
other, and at most one side is waiting.
-/

namespace FifoMatching

variable {α β : Type*}

theorem zip_push_of_le {xs : List α} {ys : List β} (h : ys.length ≤ xs.length) (a : α) :
    (xs ++ [a]).zip ys = xs.zip ys := by
  induction xs generalizing ys with
  | nil =>
      obtain rfl : ys = [] := List.eq_nil_of_length_eq_zero (by simpa using h)
      rfl
  | cons x xs ih =>
      cases ys with
      | nil => rfl
      | cons y ys => simpa using ih (by simpa using h)

theorem zip_push_of_drop {xs : List α} {ys rest : List β} {b : β}
    (h : ys.drop xs.length = b :: rest) (a : α) :
    (xs ++ [a]).zip ys = xs.zip ys ++ [(a, b)] := by
  induction xs generalizing ys with
  | nil =>
      obtain rfl : ys = b :: rest := h
      simp
  | cons x xs ih =>
      cases ys with
      | nil => simp at h
      | cons y ys => simpa using ih (by simpa using h)

theorem drop_succ_of_drop {ys rest : List β} {b : β} {n : ℕ} (h : ys.drop n = b :: rest) :
    ys.drop (n + 1) = rest := by
  rw [← List.drop_drop, h, List.drop_one, List.tail_cons]

theorem lt_length_of_drop {ys rest : List β} {b : β} {n : ℕ} (h : ys.drop n = b :: rest) :
    n < ys.length := by
  by_contra hge
  simp [List.drop_eq_nil_of_le (Nat.le_of_not_lt hge)] at h

/-- The state after all arrivals of two streams: what waits on either side and
the pairs that were matched, oldest first. -/
structure Matching (lefts : List α) (rights : List β) (pendingLeft : List α)
    (pendingRight : List β) (matched : List (α × β)) : Prop where
  pendingLeft_eq : pendingLeft = lefts.drop rights.length
  pendingRight_eq : pendingRight = rights.drop lefts.length
  matched_eq : matched = lefts.zip rights

theorem matching_nil : Matching ([] : List α) ([] : List β) [] [] [] := ⟨rfl, rfl, rfl⟩

namespace Matching

variable {lefts : List α} {rights : List β} {pendingLeft : List α} {pendingRight : List β}
  {matched : List (α × β)} (h : Matching lefts rights pendingLeft pendingRight matched)

include h

/-- Never do both sides wait. -/
theorem one_side_empty : pendingLeft = [] ∨ pendingRight = [] := by
  rcases Nat.le_total lefts.length rights.length with hle | hle
  · exact Or.inl (h.pendingLeft_eq ▸ List.drop_eq_nil_of_le hle)
  · exact Or.inr (h.pendingRight_eq ▸ List.drop_eq_nil_of_le hle)

/-- While a right element waits, no left one does. -/
theorem pendingLeft_eq_nil {b : β} {rest : List β} (hpending : pendingRight = b :: rest) :
    pendingLeft = [] := by
  apply h.one_side_empty.resolve_right
  rw [hpending]
  exact List.cons_ne_nil b rest

/-- While a left element waits, no right one does. -/
theorem pendingRight_eq_nil {a : α} {rest : List α} (hpending : pendingLeft = a :: rest) :
    pendingRight = [] := by
  apply h.one_side_empty.resolve_left
  rw [hpending]
  exact List.cons_ne_nil a rest

/-- The `k`-th pair is made of the `k`-th elements of the two streams. -/
theorem getElem?_matched {k : ℕ} {pair : α × β} (hpair : matched[k]? = some pair) :
    lefts[k]? = some pair.1 ∧ rights[k]? = some pair.2 := by
  rw [h.matched_eq] at hpair
  exact List.getElem?_zip_eq_some.mp hpair

theorem length_matched : matched.length = min lefts.length rights.length := by
  rw [h.matched_eq, List.length_zip]

theorem rights_le_lefts (hempty : pendingRight = []) : rights.length ≤ lefts.length :=
  List.drop_eq_nil_iff.mp (h.pendingRight_eq.symm.trans hempty)

theorem lefts_le_rights (hempty : pendingLeft = []) : lefts.length ≤ rights.length :=
  List.drop_eq_nil_iff.mp (h.pendingLeft_eq.symm.trans hempty)

theorem length_matched_of_left (hempty : pendingLeft = []) : matched.length = lefts.length := by
  rw [h.length_matched, Nat.min_eq_left (h.lefts_le_rights hempty)]

theorem length_matched_of_right (hempty : pendingRight = []) : matched.length = rights.length := by
  rw [h.length_matched, Nat.min_eq_right (h.rights_le_lefts hempty)]

theorem pushLeft_wait (hempty : pendingRight = []) (a : α) :
    Matching (lefts ++ [a]) rights (pendingLeft ++ [a]) [] matched := by
  have hle := h.rights_le_lefts hempty
  refine ⟨?_, ?_, ?_⟩
  · rw [h.pendingLeft_eq, List.drop_append_of_le_length hle]
  · rw [List.drop_eq_nil_of_le (by rw [List.length_append]; omega)]
  · rw [h.matched_eq, zip_push_of_le hle]

theorem pushLeft_match {b : β} {rest : List β} (hpending : pendingRight = b :: rest) (a : α) :
    Matching (lefts ++ [a]) rights [] rest (matched ++ [(a, b)]) := by
  have hdrop := h.pendingRight_eq.symm.trans hpending
  have hlt := lt_length_of_drop hdrop
  refine ⟨?_, ?_, ?_⟩
  · rw [List.drop_eq_nil_of_le]
    rw [List.length_append, List.length_singleton]
    omega
  · rw [List.length_append, List.length_singleton, drop_succ_of_drop hdrop]
  · rw [h.matched_eq, zip_push_of_drop hdrop]

theorem pushRight_wait (hempty : pendingLeft = []) (b : β) :
    Matching lefts (rights ++ [b]) [] (pendingRight ++ [b]) matched := by
  have hle := h.lefts_le_rights hempty
  refine ⟨?_, ?_, ?_⟩
  · rw [List.drop_eq_nil_of_le (by rw [List.length_append]; omega)]
  · rw [h.pendingRight_eq, List.drop_append_of_le_length hle]
  · rw [h.matched_eq, ← List.zip_swap rights, ← List.zip_swap (rights ++ [b]), zip_push_of_le hle]

theorem pushRight_match {a : α} {rest : List α} (hpending : pendingLeft = a :: rest) (b : β) :
    Matching lefts (rights ++ [b]) rest [] (matched ++ [(a, b)]) := by
  have hdrop := h.pendingLeft_eq.symm.trans hpending
  have hlt := lt_length_of_drop hdrop
  refine ⟨?_, ?_, ?_⟩
  · rw [List.length_append, List.length_singleton, drop_succ_of_drop hdrop]
  · rw [List.drop_eq_nil_of_le]
    rw [List.length_append, List.length_singleton]
    omega
  · rw [h.matched_eq, ← List.zip_swap rights, ← List.zip_swap (rights ++ [b]),
      zip_push_of_drop hdrop, List.map_append]
    rfl

end Matching

end FifoMatching
