import Mathlib

/-!
# Logs with keys

A log consists of the entries of one position after another, and at a position no
two entries have the same key.  The number of an entry is how many entries with
its key come before it.  Two logs with the same keys at every position number
them in the same way.
-/

namespace KeyedLogs

variable {K E F : Type*} [DecidableEq K]

/-- The number of entries with a key before a position. -/
def numberBefore (side : ℕ → List (K × E)) (key : K) (i : ℕ) : ℕ :=
  (((List.range i).flatMap side).map Prod.fst).count key

section OneLog

variable (side : ℕ → List (K × E)) (key : K)

@[simp] theorem numberBefore_zero : numberBefore side key 0 = 0 := rfl

theorem numberBefore_succ (i : ℕ) :
    numberBefore side key (i + 1) =
      numberBefore side key i + ((side i).map Prod.fst).count key := by
  rw [numberBefore, List.range_succ, List.flatMap_append, List.map_append, List.count_append,
    List.flatMap_singleton]
  rfl

theorem numberBefore_mono : Monotone (numberBefore side key) := by
  apply monotone_nat_of_le_succ
  intro i
  rw [numberBefore_succ]
  exact Nat.le_add_right _ _

variable {side key}

/-- After an entry the number is larger. -/
theorem numberBefore_lt {i j : ℕ} (hkey : key ∈ (side i).map Prod.fst) (hij : i < j) :
    numberBefore side key i < numberBefore side key j := by
  have hsucc : numberBefore side key (i + 1) ≤ numberBefore side key j :=
    numberBefore_mono side key hij
  have hpos := List.count_pos_iff.mpr hkey
  rw [numberBefore_succ] at hsucc
  omega

theorem eq_of_numberBefore_eq {i j : ℕ} (hi : key ∈ (side i).map Prod.fst)
    (hj : key ∈ (side j).map Prod.fst)
    (h : numberBefore side key i = numberBefore side key j) : i = j := by
  rcases Nat.lt_trichotomy i j with hlt | heq | hlt
  · exact absurd h (numberBefore_lt hi hlt).ne
  · exact heq
  · exact absurd h (numberBefore_lt hj hlt).ne'

/-- An entry in the whole log, with its number. -/
theorem exists_getElem? {i n : ℕ} (hi : i < n) {entry : K × E} (hentry : entry ∈ side i)
    (hnodup : ((side i).map Prod.fst).Nodup) :
    ∃ m, ((List.range n).flatMap side)[m]? = some entry ∧
      ((((List.range n).flatMap side).take m).map Prod.fst).count entry.1 =
        numberBefore side entry.1 i := by
  obtain ⟨before, after, hside⟩ := List.append_of_mem hentry
  obtain ⟨rest, rfl⟩ := Nat.exists_eq_add_of_lt hi
  have hsplit : (List.range (i + rest + 1)).flatMap side =
      ((List.range i).flatMap side ++ before) ++ entry :: (after ++
        ((List.range rest).map (i + 1 + ·)).flatMap side) := by
    rw [show i + rest + 1 = (i + 1) + rest by omega, List.range_add, List.range_succ]
    simp [hside]
  have hbefore : (before.map Prod.fst).count entry.1 = 0 := by
    rw [List.count_eq_zero]
    intro hmem
    rw [hside, List.map_append, List.map_cons, List.nodup_append] at hnodup
    exact hnodup.2.2 _ hmem _ List.mem_cons_self rfl
  refine ⟨((List.range i).flatMap side ++ before).length, ?_, ?_⟩
  · rw [hsplit, List.getElem?_append_right le_rfl, Nat.sub_self]
    rfl
  · rw [hsplit, List.take_left, List.map_append, List.count_append, hbefore, Nat.add_zero]
    rfl

end OneLog

/-- Logs with the same keys at every position number them in the same way. -/
theorem numberBefore_congr {side : ℕ → List (K × E)} {side' : ℕ → List (K × F)} {key : K} {i : ℕ}
    (hnodup : ∀ k < i, ((side k).map Prod.fst).Nodup)
    (hnodup' : ∀ k < i, ((side' k).map Prod.fst).Nodup)
    (h : ∀ k < i, key ∈ (side k).map Prod.fst ↔ key ∈ (side' k).map Prod.fst) :
    numberBefore side key i = numberBefore side' key i := by
  induction i with
  | zero => rfl
  | succ i ih =>
      rw [numberBefore_succ, numberBefore_succ,
        ih (fun k hk ↦ hnodup k (Nat.lt_succ_of_lt hk))
          (fun k hk ↦ hnodup' k (Nat.lt_succ_of_lt hk)) fun k hk ↦ h k (Nat.lt_succ_of_lt hk)]
      have hiff := h i (Nat.lt_succ_self i)
      by_cases hkey : key ∈ (side i).map Prod.fst
      · rw [List.count_eq_one_of_mem (hnodup i (Nat.lt_succ_self i)) hkey,
          List.count_eq_one_of_mem (hnodup' i (Nat.lt_succ_self i)) (hiff.mp hkey)]
      · rw [List.count_eq_zero_of_not_mem hkey,
          List.count_eq_zero_of_not_mem fun hkey' ↦ hkey (hiff.mpr hkey')]

end KeyedLogs
