import Zuku.Library.Checked

/-!
# Tables of blocks

The blocks of a family are put one after another into a table.  A block starts
where the blocks before it end, so that the position of an element is the start
of its block plus its index there.  A list is distributed over the blocks by
updating, for each element, the block that its key names.
-/

namespace BlockTable

open Checked

universe u

variable {α β : Type u} {block : ℕ → List α} {b n i k : ℕ}

def table (block : ℕ → List α) (n : ℕ) : List α := (List.range n).flatMap block

/-- Where a block starts, and where the table of the blocks before it ends. -/
def start (block : ℕ → List α) (b : ℕ) : ℕ := (table block b).length

theorem table_succ (block : ℕ → List α) (n : ℕ) :
    table block (n + 1) = table block n ++ block n := by
  rw [table, List.range_succ, List.flatMap_append, List.flatMap_singleton, table]

theorem start_succ (block : ℕ → List α) (b : ℕ) :
    start block (b + 1) = start block b + (block b).length := by
  rw [start, table_succ, List.length_append, start]

theorem table_prefix (block : ℕ → List α) {m : ℕ} (h : m ≤ n) :
    table block m <+: table block n := by
  induction n, h using Nat.le_induction with
  | base => exact List.prefix_rfl
  | succ n _ ih =>
      rw [table_succ]
      exact ih.trans (List.prefix_append _ _)

theorem getElem?_table (hb : b < n) (hi : i < (block b).length) :
    (table block n)[start block b + i]? = (block b)[i]? := by
  obtain ⟨rest, hrest⟩ := table_prefix block (Nat.succ_le_of_lt hb)
  rw [← hrest, table_succ, List.append_assoc, start,
    List.getElem?_append_right (Nat.le_add_right _ _), Nat.add_sub_cancel_left,
    List.getElem?_append_left hi]

theorem flatMap_positions (block : ℕ → List α) (n : ℕ) :
    ((List.range n).flatMap fun b ↦ List.range' (start block b) (block b).length) =
      List.range (start block n) := by
  induction n with
  | zero => rfl
  | succ n ih =>
      rw [List.range_succ, List.flatMap_append, List.flatMap_singleton, ih, start_succ,
        List.range_eq_range', List.range_eq_range']
      simpa using @List.range'_append 0 (start block n) (block n).length 1

theorem exists_block (h : k < start block n) :
    ∃ b < n, ∃ i < (block b).length, k = start block b + i := by
  have hmem : k ∈ List.range (start block n) := List.mem_range.mpr h
  rw [← flatMap_positions block n, List.mem_flatMap] at hmem
  obtain ⟨b, hb, hk⟩ := hmem
  rw [List.mem_range'_1] at hk
  exact ⟨b, List.mem_range.mp hb, k - start block b, by omega, by omega⟩

/-- The elements of a list, grouped by a key. -/
theorem perm_table_filter {key : α → ℕ} {xs : List α} (h : ∀ x ∈ xs, key x < n) :
    (table (fun b ↦ xs.filter fun x ↦ decide (key x = b)) n).Perm xs := by
  have hbelow (m : ℕ) : (table (fun b ↦ xs.filter fun x ↦ decide (key x = b)) m).Perm
      (xs.filter fun x ↦ decide (key x < m)) := by
    induction m with
    | zero => simp [table]
    | succ m ih =>
        have hsplit := List.filter_append_perm (fun x ↦ decide (key x < m))
          (xs.filter fun x ↦ decide (key x < m + 1))
        rw [List.filter_filter, List.filter_filter] at hsplit
        rw [table_succ]
        refine (ih.append_right _).trans (List.Perm.trans (.of_eq ?_) hsplit)
        congr 1
        · exact List.filter_congr fun x _ ↦ by grind
        · exact List.filter_congr fun x _ ↦ by grind
  have hall : (xs.filter fun x ↦ decide (key x < n)) = xs :=
    List.filter_eq_self.mpr fun x hx ↦ decide_eq_true (h x hx)
  exact (hbelow n).trans (.of_eq hall)

/-! ## Distributing a list -/

def modifyAt (xs : List α) (i : ℕ) (f : α → α) : Exec (List α) := do
  let x ← vectorAt xs i
  vectorSet xs i (f x)

theorem modifyAt_range_map {f : ℕ → α} {g : α → α} (hk : k < n) :
    modifyAt ((List.range n).map f) k g =
      .ok ((List.range n).map fun b ↦ if k = b then g (f b) else f b) := by
  have hat : vectorAt ((List.range n).map f) k = .ok (f k) := by
    rw [vectorAt_eq_ok_iff, List.getElem?_map, List.getElem?_range hk, Option.map_some]
  rw [modifyAt, hat, ok_bind, vectorSet_of_lt (by simpa using hk)]
  congr 1
  apply List.ext_getElem (by simp)
  intro b _ hb
  rw [List.getElem_set]
  split_ifs with h
  · subst h
    simp
  · simp [h]

/-- Every block is updated with the elements of its key, in their order. -/
theorem foldlM_modifyAt {key : β → ℕ} {update : α → β → α} {xs : List β}
    (h : ∀ x ∈ xs, key x < n) (f : ℕ → α) :
    xs.foldlM (fun blocks x ↦ modifyAt blocks (key x) (update · x)) ((List.range n).map f) =
      .ok ((List.range n).map fun b ↦
        (xs.filter fun x ↦ decide (key x = b)).foldl update (f b)) := by
  induction xs generalizing f with
  | nil => rfl
  | cons x xs ih =>
      have hx : key x < n := h x List.mem_cons_self
      rw [List.foldlM_cons, modifyAt_range_map hx, ok_bind,
        ih (fun y hy ↦ h y (List.mem_cons_of_mem x hy))]
      congr 1
      apply List.map_congr_left
      intro b _
      by_cases hb : key x = b
      · rw [if_pos hb, List.filter_cons_of_pos (by simpa using hb), List.foldl_cons]
      · rw [if_neg hb, List.filter_cons_of_neg (by simpa using hb)]

end BlockTable
