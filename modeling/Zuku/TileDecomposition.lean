import Zuku.TileBounds

/-!
# The tiles of all shards cover the array exactly

A point of the array lies in the rectangles of exactly as many shards as the
replication factor says, because these are the shards whose index is the tile
coordinates of the point completed by any replica number.
-/

namespace Zuku

open Checked IndexedWrites MixedRadix

/-! ## Membership in a tile -/

theorem mem_interval_iff {dim : ShardingDim} (hext : 0 < dim.size / dim.sharding) (i : ℕ) (x : ℤ) :
    ((dim.interval i).1 ≤ x ∧ x ≤ (dim.interval i).2) ↔
      x / ((dim.size / dim.sharding : ℕ) : ℤ) = i := by
  have hpos : (0 : ℤ) < ((dim.size / dim.sharding : ℕ) : ℤ) := by exact_mod_cast hext
  rw [Int.ediv_eq_iff_of_pos hpos]
  simp only [ShardingDim.interval]
  rw [mul_comm (i : ℤ)]
  constructor <;> rintro ⟨h₁, h₂⟩ <;> constructor <;> linarith

theorem extent_pos {dim : ShardingDim} (hsize : 1 ≤ dim.size) (hdvd : dim.sharding ∣ dim.size) :
    0 < dim.size / dim.sharding :=
  Nat.div_pos (Nat.le_of_dvd hsize hdvd) (Nat.pos_of_dvd_of_pos hdvd hsize)

theorem forall₂_tileIntervals_iff (dims : List ShardingDim) (index : List ℕ) (point : List ℤ)
    (hlen : index.length = dims.length)
    (hext : ∀ dim ∈ dims, dim.isReplication = false → 0 < dim.size / dim.sharding) :
    List.Forall₂ (fun (x : ℤ) (b : ℤ × ℤ) ↦ b.1 ≤ x ∧ x ≤ b.2) point (tileIntervals dims index) ↔
      point.length = (dims.filter fun dim ↦ !dim.isReplication).length ∧
        ownerIndex dims point = (realIndex dims index).map (↑) := by
  induction dims generalizing index point with
  | nil => cases point <;> simp [tileIntervals, ownerIndex, realIndex]
  | cons dim dims ih =>
      cases index with
      | nil => simp at hlen
      | cons i index =>
          have hlen' : index.length = dims.length := by simpa using hlen
          have hext' : ∀ d ∈ dims, d.isReplication = false → 0 < d.size / d.sharding :=
            fun d hd ↦ hext d (List.mem_cons_of_mem _ hd)
          cases hr : dim.isReplication with
          | true =>
              simpa [tileIntervals, ownerIndex, realIndex, hr] using ih index point hlen' hext'
          | false =>
              cases point with
              | nil => simp [tileIntervals, hr]
              | cons x point =>
                  have hdim := mem_interval_iff (hext dim List.mem_cons_self hr) i x
                  simp only [tileIntervals, ownerIndex, realIndex, hr, Bool.false_eq_true, if_false,
                    List.forall₂_cons, hdim, ih index point hlen' hext', List.map_cons,
                    List.cons.injEq]
                  simp [hr]
                  tauto

section

variable {sharding : Sharding}

theorem extents_of_realDims (h : sharding.Tileable) :
    ∀ dim ∈ sharding.dims, dim.isReplication = false → 0 < dim.size / dim.sharding :=
  fun dim hdim hr ↦ extent_pos (h.size_pos dim hdim) (dvd_of_not_isReplication h hdim hr)

theorem tileBounds_contains_iff (h : sharding.Tileable) (hreal : sharding.realDims ≠ [])
    (shard : ℕ) (point : List ℤ) :
    (sharding.tileBounds shard).Contains point ↔
      point.length = sharding.realDims.length ∧ ownerIndex sharding.dims point =
        (realIndex sharding.dims (sharding.tileIndex shard)).map (↑) := by
  rw [Sharding.tileBounds, if_neg hreal, RealmShape.Contains,
    forall₂_tileIntervals_iff _ _ _ (by simp) (extents_of_realDims h)]
  have hlen := length_tileIntervals sharding.dims (sharding.tileIndex shard) (by simp)
  simp only [Sharding.realDims] at hlen ⊢
  tauto

/-! ## The tile coordinates of a point of the array -/

theorem div_extent_lt {dim : ShardingDim} (hdvd : dim.sharding ∣ dim.size) {x : ℤ}
    (hlo : 0 ≤ x) (hhi : x ≤ (dim.size : ℤ) - 1) :
    ∃ c < dim.sharding, x / ((dim.size / dim.sharding : ℕ) : ℤ) = c := by
  lift x to ℕ using hlo
  have hx : x < dim.size / dim.sharding * dim.sharding := by
    rw [Nat.div_mul_cancel hdvd]
    omega
  exact ⟨x / (dim.size / dim.sharding), Nat.div_lt_of_lt_mul hx, by norm_cast⟩

theorem ownerIndex_digits (dims : List ShardingDim)
    (hdvd : ∀ dim ∈ dims, dim.isReplication = false → dim.sharding ∣ dim.size) (point : List ℤ)
    (hpoint : List.Forall₂ (fun (x : ℤ) (b : ℤ × ℤ) ↦ b.1 ≤ x ∧ x ≤ b.2) point
      ((dims.filter fun dim ↦ !dim.isReplication).map fun dim ↦ (0, (dim.size : ℤ) - 1))) :
    ∃ coords : List ℕ, ownerIndex dims point = coords.map (↑) ∧
      Digits ((dims.filter fun dim ↦ !dim.isReplication).map ShardingDim.sharding) coords := by
  induction dims generalizing point with
  | nil => exact ⟨[], by simp [ownerIndex], by simp⟩
  | cons dim dims ih =>
      have hdvd' : ∀ d ∈ dims, d.isReplication = false → d.sharding ∣ d.size :=
        fun d hd ↦ hdvd d (List.mem_cons_of_mem _ hd)
      cases hr : dim.isReplication with
      | true =>
          obtain ⟨coords, howner, hdigits⟩ := ih hdvd' point (by simpa [hr] using hpoint)
          exact ⟨coords, by simpa [ownerIndex, hr] using howner, by simpa [hr] using hdigits⟩
      | false =>
          cases point with
          | nil => simp [hr] at hpoint
          | cons x point =>
              rw [List.filter_cons_of_pos (by simp [hr]), List.map_cons,
                List.forall₂_cons] at hpoint
              obtain ⟨c, hc, hxc⟩ := div_extent_lt (hdvd dim List.mem_cons_self hr)
                hpoint.1.1 hpoint.1.2
              obtain ⟨coords, howner, hdigits⟩ := ih hdvd' point hpoint.2
              refine ⟨c :: coords, ?_, ?_⟩
              · simp only [ownerIndex, hr, Bool.false_eq_true, if_false, hxc, howner, List.map_cons]
              · rw [List.filter_cons_of_pos (by simp [hr]), List.map_cons, digits_cons]
                exact ⟨hc, hdigits⟩

/-! ## Counting the indices with given tile coordinates -/

theorem sum_map_range_ite (b c n : ℕ) (hc : c < b) :
    ((List.range b).map fun i ↦ if i = c then n else 0).sum = n := by
  have hsum : ((List.range b).map fun i ↦ if i = c then n else 0).sum =
      ∑ i ∈ Finset.range b, if i = c then n else 0 := rfl
  rw [hsum, Finset.sum_ite_eq' (Finset.range b) c, if_pos (Finset.mem_range.mpr hc)]

theorem countP_cells (dims : List ShardingDim) (coords : List ℕ)
    (hcoords :
      Digits ((dims.filter fun dim ↦ !dim.isReplication).map ShardingDim.sharding) coords) :
    (cells (dims.map ShardingDim.sharding)).countP
        (fun index ↦ decide (realIndex dims index = coords)) =
      ((dims.filter ShardingDim.isReplication).map ShardingDim.sharding).prod := by
  induction dims generalizing coords with
  | nil =>
      cases coords with
      | nil => simp [cells, realIndex]
      | cons c coords => simp [Digits] at hcoords
  | cons dim dims ih =>
      rw [List.map_cons, cells, List.countP_flatMap]
      cases hr : dim.isReplication with
      | true =>
          have hrest := ih coords (by simpa [hr] using hcoords)
          rw [List.filter_cons_of_pos hr, List.map_cons, List.prod_cons, ← hrest]
          simp [Function.comp_def, List.countP_map, realIndex, hr]
      | false =>
          rw [List.filter_cons_of_pos (by simp [hr]), List.map_cons] at hcoords
          cases coords with
          | nil => simp [Digits] at hcoords
          | cons c coords =>
              obtain ⟨hc, hrest⟩ := digits_cons.mp hcoords
              have hcount : ∀ i, (List.countP (fun index ↦ decide (realIndex (dim :: dims) index =
                  c :: coords)) ∘ fun d ↦ (cells (dims.map ShardingDim.sharding)).map (d :: ·)) i =
                  if i = c then (cells (dims.map ShardingDim.sharding)).countP
                    (fun index ↦ decide (realIndex dims index = coords)) else 0 := by
                intro i
                by_cases hic : i = c <;>
                  simp [Function.comp_def, List.countP_map, realIndex, hr, hic]
              rw [List.map_congr_left fun i _ ↦ hcount i, sum_map_range_ite _ _ _ hc,
                ih coords hrest, List.filter_cons_of_neg (by simp [hr])]

theorem card_filter_range (n : ℕ) (p : ℕ → Prop) [DecidablePred p] :
    ((Finset.range n).filter p).card = (List.range n).countP (fun s ↦ decide (p s)) := by
  rw [List.countP_eq_length_filter]
  rfl

/-- A point of the array is in the tiles that have the coordinates of its owner. -/
theorem exists_owner_coords (h : sharding.Tileable) (hreal : sharding.realDims ≠ [])
    {point : List ℤ} (hpoint : sharding.arrayShape.Contains point) :
    point.length = sharding.realDims.length ∧ ∃ coords,
      Digits ((sharding.dims.filter fun dim ↦ !dim.isReplication).map ShardingDim.sharding)
        coords ∧
      ∀ s, (sharding.tileBounds s).Contains point ↔
        realIndex sharding.dims (sharding.tileIndex s) = coords := by
  rw [Sharding.arrayShape, if_neg hreal] at hpoint
  obtain ⟨coords, howner, hdigits⟩ := ownerIndex_digits sharding.dims
    (fun dim hdim ↦ dvd_of_not_isReplication h hdim) point hpoint.2
  have hlen : point.length = sharding.realDims.length := by
    simpa using List.Forall₂.length_eq hpoint.2
  refine ⟨hlen, coords, hdigits, fun s ↦ ?_⟩
  rw [tileBounds_contains_iff h hreal, howner]
  constructor
  · rintro ⟨-, hmap⟩
    exact (List.map_injective_iff.mpr Nat.cast_injective hmap).symm
  · intro heq
    exact ⟨hlen, by rw [heq]⟩

/-- The shards whose rectangle holds a given point of the array. -/
theorem card_tiles_containing (h : sharding.Tileable) (hreal : sharding.realDims ≠ [])
    {point : List ℤ} (hpoint : sharding.arrayShape.Contains point) :
    ((Finset.range sharding.devices.size).filter
      fun s ↦ (sharding.tileBounds s).Contains point).card = sharding.replication := by
  obtain ⟨-, coords, hdigits, hiff⟩ := exists_owner_coords h hreal hpoint
  have hperm := map_tileIndex_perm_cells h.bijective
  calc
    _ = (List.range sharding.devices.size).countP
          (fun s ↦ decide (realIndex sharding.dims (sharding.tileIndex s) = coords)) := by
      simp only [card_filter_range, hiff]
    _ = ((List.range sharding.factors.prod).map sharding.tileIndex).countP
          (fun index ↦ decide (realIndex sharding.dims index = coords)) := by
      rw [List.countP_map, h.devices_eq]
      rfl
    _ = (cells sharding.factors).countP
          (fun index ↦ decide (realIndex sharding.dims index = coords)) := hperm.countP_eq _
    _ = sharding.replication := countP_cells sharding.dims coords hdigits

/-- Two tiles with a common point are the same rectangle. -/
theorem tileBounds_eq_of_common_point (h : sharding.Tileable) {s t : ℕ} {point : List ℤ}
    (hs : (sharding.tileBounds s).Contains point) (ht : (sharding.tileBounds t).Contains point) :
    sharding.tileBounds s = sharding.tileBounds t := by
  by_cases hreal : sharding.realDims = []
  · simp [Sharding.tileBounds, hreal]
  · have hs' := ((tileBounds_contains_iff h hreal s point).mp hs).2
    have ht' := ((tileBounds_contains_iff h hreal t point).mp ht).2
    have heq : realIndex sharding.dims (sharding.tileIndex s) =
        realIndex sharding.dims (sharding.tileIndex t) :=
      List.map_injective_iff.mpr Nat.cast_injective (hs'.symm.trans ht')
    simp only [Sharding.tileBounds, if_neg hreal,
      tileIntervals_congr sharding.dims _ _ (by simp) (by simp) heq]

theorem interval_subset {dim : ShardingDim} (hdvd : dim.sharding ∣ dim.size) {i : ℕ}
    (hi : i < dim.sharding) {x : ℤ}
    (hx : (dim.interval i).1 ≤ x ∧ x ≤ (dim.interval i).2) :
    0 ≤ x ∧ x ≤ (dim.size : ℤ) - 1 := by
  have hle : dim.size / dim.sharding * (i + 1) ≤ dim.size := by
    calc
      dim.size / dim.sharding * (i + 1) ≤ dim.size / dim.sharding * dim.sharding :=
        Nat.mul_le_mul_left _ hi
      _ = dim.size := Nat.div_mul_cancel hdvd
  have hle' : ((dim.size / dim.sharding : ℕ) : ℤ) * i + ((dim.size / dim.sharding : ℕ) : ℤ) ≤
      (dim.size : ℤ) := by
    exact_mod_cast (Nat.mul_succ _ _ ▸ hle)
  have hnonneg : (0 : ℤ) ≤ ((dim.size / dim.sharding : ℕ) : ℤ) * i := by positivity
  obtain ⟨h₁, h₂⟩ := hx
  simp only [ShardingDim.interval] at h₁ h₂
  constructor <;> linarith

theorem forall₂_array_of_tile (dims : List ShardingDim) (index : List ℕ) (point : List ℤ)
    (hdvd : ∀ dim ∈ dims, dim.isReplication = false → dim.sharding ∣ dim.size)
    (hindex : Digits (dims.map ShardingDim.sharding) index)
    (hpoint : List.Forall₂ (fun (x : ℤ) (b : ℤ × ℤ) ↦ b.1 ≤ x ∧ x ≤ b.2) point
      (tileIntervals dims index)) :
    List.Forall₂ (fun (x : ℤ) (b : ℤ × ℤ) ↦ b.1 ≤ x ∧ x ≤ b.2) point
      ((dims.filter fun dim ↦ !dim.isReplication).map fun dim ↦ (0, (dim.size : ℤ) - 1)) := by
  induction dims generalizing index point with
  | nil => simpa [tileIntervals] using hpoint
  | cons dim dims ih =>
      cases index with
      | nil => simp [Digits] at hindex
      | cons i index =>
          have hdvd' : ∀ d ∈ dims, d.isReplication = false → d.sharding ∣ d.size :=
            fun d hd ↦ hdvd d (List.mem_cons_of_mem _ hd)
          rw [List.map_cons, digits_cons] at hindex
          cases hr : dim.isReplication with
          | true =>
              simp only [tileIntervals, hr, if_true] at hpoint
              simpa [hr] using ih index point hdvd' hindex.2 hpoint
          | false =>
              simp only [tileIntervals, hr, Bool.false_eq_true, if_false] at hpoint
              rw [List.filter_cons_of_pos (by simp [hr]), List.map_cons]
              cases hpoint with
              | cons hx hrest =>
                  exact .cons (interval_subset (hdvd dim List.mem_cons_self hr) hindex.1 hx)
                    (ih index _ hdvd' hindex.2 hrest)

theorem arrayShape_contains_of_tile (h : sharding.Tileable) {s : ℕ}
    (hs : s < sharding.devices.size) {point : List ℤ}
    (hpoint : (sharding.tileBounds s).Contains point) : sharding.arrayShape.Contains point := by
  by_cases hreal : sharding.realDims = []
  · simpa [Sharding.tileBounds, Sharding.arrayShape, hreal] using hpoint
  · rw [Sharding.tileBounds, if_neg hreal] at hpoint
    rw [Sharding.arrayShape, if_neg hreal]
    refine ⟨by simp, ?_⟩
    exact forall₂_array_of_tile sharding.dims _ point
      (fun dim hdim ↦ dvd_of_not_isReplication h hdim)
      (tileIndex_digits h.bijective (h.devices_eq ▸ hs)) hpoint.2

end

/-! ## The decomposition -/

/-- Every shard id has a tile index and a rectangle; the indices number the box
of tile indices, the rectangles lie in the array, each element is in as many of
them as there are replicas, and two of them coincide or are disjoint. -/
theorem tile_decomposition_exact [RealmBuild] (sharding : Sharding) (h : sharding.Tileable)
    (hone : sharding.AtMostOneReplication) (hlower : 1 ≤ sharding.realDims.length)
    (hupper : sharding.realDims.length ≤ 4) :
    (∃ index : ℕ → List ℕ,
      (∀ s < sharding.devices.size, computeTileIndex s sharding = .ok (index s)) ∧
        Set.BijOn index {s | s < sharding.devices.size}
          {idx | Digits sharding.factors idx}) ∧
    (∃ bounds : ℕ → RealmShape,
      (∀ s < sharding.devices.size, computeTileBounds s sharding = .ok (bounds s)) ∧
        (∀ s < sharding.devices.size, ∀ point,
          (bounds s).Contains point → sharding.arrayShape.Contains point) ∧
        (∀ point, sharding.arrayShape.Contains point →
          ((Finset.range sharding.devices.size).filter
            fun s ↦ (bounds s).Contains point).card = sharding.replication) ∧
        (∀ s < sharding.devices.size, ∀ t < sharding.devices.size,
          bounds s = bounds t ∨
            ∀ point, ¬((bounds s).Contains point ∧ (bounds t).Contains point))) := by
  have hreal : sharding.realDims ≠ [] := by
    intro hnil
    simp [hnil] at hlower
  constructor
  · refine ⟨sharding.tileIndex, fun s _ ↦ h.computeTileIndex_eq s, ?_⟩
    rw [← h.devices_eq]
    refine ⟨fun s hs ↦ tileIndex_digits h.bijective hs,
      fun s hs t ht heq ↦ tileIndex_injOn h.bijective hs ht heq, fun idx hidx ↦ ?_⟩
    exact ⟨sharding.tileShard idx, tileShard_lt h.bijective hidx,
      tileIndex_tileShard h.bijective hidx⟩
  · refine ⟨sharding.tileBounds, fun s hs ↦ computeTileBounds_eq h hone (Or.inl hupper) hs,
      fun s hs point ↦ arrayShape_contains_of_tile h hs,
      fun point hpoint ↦ card_tiles_containing h hreal hpoint, fun s _ t _ ↦ ?_⟩
    by_cases hcommon : ∃ point,
        (sharding.tileBounds s).Contains point ∧ (sharding.tileBounds t).Contains point
    · obtain ⟨point, hs, ht⟩ := hcommon
      exact Or.inl (tileBounds_eq_of_common_point h hs ht)
    · exact Or.inr (not_exists.mp hcommon)

theorem tile_decomposition_exact_permuted :
    ∃ bounds : ℕ → RealmShape,
      (∀ s < 24, @computeTileBounds .rankFour s
        ⟨[⟨8, 2, 2⟩, ⟨1, 4, 0⟩, ⟨9, 3, 1⟩], ⟨0, 24⟩⟩ = .ok (bounds s)) ∧
      ((Finset.range 24).filter fun s ↦ (bounds s).Contains [3, 8]).card = 4 := by
  let _ : RealmBuild := .rankFour
  obtain ⟨bounds, hbounds, -, hcard, -⟩ :=
    (tile_decomposition_exact ⟨[⟨8, 2, 2⟩, ⟨1, 4, 0⟩, ⟨9, 3, 1⟩], ⟨0, 24⟩⟩
      (by decide) (by decide) (by decide) (by decide)).2
  exact ⟨bounds, hbounds, hcard _ (by decide)⟩

end Zuku
