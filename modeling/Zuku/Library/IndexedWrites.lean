import Mathlib

/-!
# Writing a vector in an arbitrary order

`writeAll xs ws` performs the writes `xs[i] = a` of the list `ws` from left to
right.  When the positions written are a permutation of all positions, the
result does not depend on the old contents: it holds each value at its own
position and is a permutation of the values.
-/

namespace IndexedWrites

variable {α : Type*}

def writeAll (xs : List α) (ws : List (ℕ × α)) : List α :=
  ws.foldl (fun xs w ↦ xs.set w.1 w.2) xs

@[simp] theorem writeAll_nil (xs : List α) : writeAll xs [] = xs := rfl

@[simp] theorem writeAll_cons (xs : List α) (w : ℕ × α) (ws : List (ℕ × α)) :
    writeAll xs (w :: ws) = writeAll (xs.set w.1 w.2) ws := rfl

@[simp] theorem length_writeAll (xs : List α) (ws : List (ℕ × α)) :
    (writeAll xs ws).length = xs.length := by
  induction ws generalizing xs with
  | nil => rfl
  | cons w ws ih => simp [ih]

theorem getElem?_writeAll_of_notMem {xs : List α} {ws : List (ℕ × α)} {i : ℕ}
    (h : i ∉ ws.map Prod.fst) : (writeAll xs ws)[i]? = xs[i]? := by
  induction ws generalizing xs with
  | nil => rfl
  | cons w ws ih =>
      simp only [List.map_cons, List.mem_cons, not_or] at h
      rw [writeAll_cons, ih h.2, List.getElem?_set_ne (Ne.symm h.1)]

theorem getElem?_writeAll_of_mem {xs : List α} {ws : List (ℕ × α)}
    (hnodup : (ws.map Prod.fst).Nodup) {i : ℕ} {a : α} (hmem : (i, a) ∈ ws)
    (hi : i < xs.length) : (writeAll xs ws)[i]? = some a := by
  induction ws generalizing xs with
  | nil => simp at hmem
  | cons w ws ih =>
      simp only [List.map_cons, List.nodup_cons] at hnodup
      rcases List.mem_cons.mp hmem with rfl | hmem
      · rw [writeAll_cons, getElem?_writeAll_of_notMem hnodup.1]
        simp [hi]
      · exact ih hnodup.2 hmem (by simpa using hi)

/-- The positions of a list of writes are all positions, each once. -/
def Covers (n : ℕ) (positions : List ℕ) : Prop := positions.Perm (List.range n)

instance (n : ℕ) (positions : List ℕ) : Decidable (Covers n positions) :=
  inferInstanceAs (Decidable (List.Perm _ _))

theorem Covers.nodup {n : ℕ} {ps : List ℕ} (h : Covers n ps) : ps.Nodup :=
  (List.Perm.nodup_iff h).mpr List.nodup_range

theorem Covers.length_eq {n : ℕ} {ps : List ℕ} (h : Covers n ps) : ps.length = n := by
  simpa using List.Perm.length_eq h

theorem Covers.mem_iff {n : ℕ} {ps : List ℕ} (h : Covers n ps) {i : ℕ} : i ∈ ps ↔ i < n := by
  simpa using List.Perm.mem_iff h

theorem Covers.lt_of_getElem? {n : ℕ} {ps : List ℕ} (h : Covers n ps) {p i : ℕ}
    (hp : ps[p]? = some i) : i < n :=
  h.mem_iff.mp (List.mem_of_getElem? hp)

theorem Covers.exists_getElem? {n : ℕ} {ps : List ℕ} (h : Covers n ps) {i : ℕ} (hi : i < n) :
    ∃ p < n, ps[p]? = some i := by
  obtain ⟨p, hp, hpi⟩ := List.getElem_of_mem (h.mem_iff.mpr hi)
  exact ⟨p, h.length_eq ▸ hp, by rw [List.getElem?_eq_getElem hp, hpi]⟩

section

variable {n : ℕ} {xs : List α} {ps : List ℕ} {vs : List α}

theorem map_fst_zip_of_covers (hps : Covers n ps) (hvs : vs.length = n) :
    (ps.zip vs).map Prod.fst = ps := by
  rw [List.map_fst_zip]
  rw [hps.length_eq, hvs]

theorem getElem?_writeAll_zip (hps : Covers n ps) (hvs : vs.length = n) (hxs : xs.length = n)
    {k i : ℕ} (hk : ps[k]? = some i) : (writeAll xs (ps.zip vs))[i]? = vs[k]? := by
  have hkn : k < vs.length := by
    obtain ⟨hlt, -⟩ := List.getElem?_eq_some_iff.mp hk
    rw [hvs, ← hps.length_eq]
    exact hlt
  have hzip : (ps.zip vs)[k]? = some (i, vs[k]) :=
    List.getElem?_zip_eq_some.mpr ⟨hk, List.getElem?_eq_getElem hkn⟩
  rw [List.getElem?_eq_getElem hkn]
  apply getElem?_writeAll_of_mem
  · rw [map_fst_zip_of_covers hps hvs]
    exact hps.nodup
  · exact List.mem_of_getElem? hzip
  · rw [hxs]
    exact hps.lt_of_getElem? hk

/-- A vector written at every position is a rearrangement of the values. -/
theorem writeAll_zip_perm (hps : Covers n ps) (hvs : vs.length = n) (hxs : xs.length = n) :
    (writeAll xs (ps.zip vs)).Perm vs := by
  set out := writeAll xs (ps.zip vs) with hout
  have hlen : out.length = n := by rw [hout, length_writeAll, hxs]
  have hvs' : vs.map some = ps.map (out[·]?) := by
    refine List.ext_getElem? fun k ↦ ?_
    rw [List.getElem?_map, List.getElem?_map]
    cases hk : ps[k]? with
    | none =>
        have hge := List.getElem?_eq_none_iff.mp hk
        rw [List.getElem?_eq_none_iff.mpr (by rw [hvs, ← hps.length_eq]; exact hge)]
        rfl
    | some i =>
        have hkn : k < vs.length := by
          obtain ⟨hlt, -⟩ := List.getElem?_eq_some_iff.mp hk
          rw [hvs, ← hps.length_eq]
          exact hlt
        simp only [Option.map_some, hout, getElem?_writeAll_zip hps hvs hxs hk]
        rw [List.getElem?_eq_getElem hkn]
        rfl
  have hout' : out.map some = (List.range n).map (out[·]?) := by
    refine List.ext_getElem? fun k ↦ ?_
    rw [List.getElem?_map, List.getElem?_map]
    by_cases hk : k < n
    · rw [List.getElem?_range hk, List.getElem?_eq_getElem (hlen ▸ hk)]
      simp [List.getElem?_eq_getElem (show k < out.length from hlen ▸ hk)]
    · have hle : out.length ≤ k := by omega
      have hrange : (List.range n).length ≤ k := by simpa using hk
      rw [List.getElem?_eq_none hle, List.getElem?_eq_none hrange]
      rfl
  have hperm : (out.map some).Perm (vs.map some) := by
    rw [hout', hvs']
    exact (hps.map _).symm
  have h := hperm.filterMap id
  simpa [List.filterMap_map] using h

end

end IndexedWrites
