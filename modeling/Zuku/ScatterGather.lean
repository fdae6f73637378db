import Zuku.ReshardConfig
import Zuku.TileIndex

/-!
# Scatter-gather between two factors of one dimension

A shard on the side with the larger factor has one slice, for the shard whose
index is the quotient of its own.  A shard on the other side has one slice for
each index it multiplies out to.  The two sides name the same slices exactly
when the smaller factor divides the larger one: otherwise the last indices of
the larger side are never multiplied out to.
-/

namespace Zuku

open Checked MixedRadix

/-- All slices that some processor is told to send. -/
def fromSourceSlices [RealmBuild] (src dst : Sharding) : Set SliceConfig :=
  {slice | ∃ p config, determineShardingConfig p src dst = .ok (.scatterGather config) ∧
    slice ∈ config.fromSource}

/-- All slices that some processor is told to receive. -/
def toTargetSlices [RealmBuild] (src dst : Sharding) : Set SliceConfig :=
  {slice | ∃ p config, determineShardingConfig p src dst = .ok (.scatterGather config) ∧
    slice ∈ config.toTarget}

structure ScatterGatherMatches [RealmBuild] (src dst : Sharding) : Prop where
  slices_eq : fromSourceSlices src dst = toTargetSlices src dst
  in_mesh : ∀ slice ∈ fromSourceSlices src dst,
    slice.srcShard < src.devices.size ∧ slice.dstShard < dst.devices.size

/-! ## The dimension that differs -/

theorem differingDims_same (pairs : List (ShardingDim × ShardingDim)) (k : ℕ)
    (found : ℕ × Option ℕ) :
    found.1 ≤ (differingDims pairs k found).1 ∧
      ((differingDims pairs k found).1 = found.1 →
        (∀ pair ∈ pairs, pair.1 = pair.2) ∧ differingDims pairs k found = found) := by
  induction pairs generalizing k found with
  | nil => exact ⟨le_rfl, fun _ ↦ ⟨by simp, rfl⟩⟩
  | cons pair pairs ih =>
      obtain ⟨x, y⟩ := pair
      rw [differingDims]
      by_cases hxy : x = y
      · obtain ⟨hle, hsame⟩ := ih (k + 1) found
        simp only [hxy, ne_eq, not_true_eq_false, if_false]
        refine ⟨hle, fun heq ↦ ?_⟩
        obtain ⟨hpairs, hfound⟩ := hsame heq
        exact ⟨by simpa using hpairs, hfound⟩
      · obtain ⟨hle, -⟩ := ih (k + 1) (found.1 + 1, some k)
        rw [if_pos hxy]
        exact ⟨by omega, fun heq ↦ by omega⟩

theorem differingDims_one {pairs : List (ShardingDim × ShardingDim)} {k : ℕ}
    (h : (differingDims pairs k (0, none)).1 = 1) :
    ∃ i, (differingDims pairs k (0, none)).2 = some (k + i) ∧ i < pairs.length ∧
      ∀ j ≠ i, ∀ pair, pairs[j]? = some pair → pair.1 = pair.2 := by
  induction pairs generalizing k with
  | nil => simp [differingDims] at h
  | cons pair pairs ih =>
      obtain ⟨x, y⟩ := pair
      rw [differingDims] at h ⊢
      by_cases hxy : x = y
      · simp only [hxy, ne_eq, not_true_eq_false, if_false] at h ⊢
        obtain ⟨i, hi, hlt, hsame⟩ := ih h
        refine ⟨i + 1, by rw [hi]; congr 1; omega, by simpa using hlt, fun j hj pair hpair ↦ ?_⟩
        cases j with
        | zero =>
            obtain rfl : (y, y) = pair := by simpa using hpair
            rfl
        | succ j => exact hsame j (by omega) pair (by simpa using hpair)
      · rw [if_pos hxy] at h ⊢
        obtain ⟨-, hsame⟩ := differingDims_same pairs (k + 1) (0 + 1, some k)
        obtain ⟨hpairs, hfound⟩ := hsame h
        refine ⟨0, by rw [hfound]; rfl, by simp, fun j hj pair hpair ↦ ?_⟩
        cases j with
        | zero => exact absurd rfl hj
        | succ j => exact hpairs pair (List.mem_of_getElem? (by simpa using hpair))

/-- Pairs that agree come from the same dimension at the same position. -/
theorem getElem?_dims_eq {src dst : Sharding} (hlen : src.dims.length = dst.dims.length)
    {dim : ℕ} (hsame : ∀ j ≠ dim, ∀ pair, (src.dims.zip dst.dims)[j]? = some pair →
      pair.1 = pair.2) {j : ℕ} (hj : j ≠ dim) : src.dims[j]? = dst.dims[j]? := by
  by_cases hlt : j < src.dims.length
  · have hpair : (src.dims.zip dst.dims)[j]? = some (src.dims[j], dst.dims[j]) :=
      List.getElem?_zip_eq_some.mpr ⟨List.getElem?_eq_getElem hlt, List.getElem?_eq_getElem _⟩
    have heq : src.dims[j] = dst.dims[j] := hsame j hj _ hpair
    rw [List.getElem?_eq_getElem hlt, List.getElem?_eq_getElem (hlen ▸ hlt), heq]
  · rw [List.getElem?_eq_none (by omega), List.getElem?_eq_none (by omega)]

/-- The two shardings have the same dimensions, but for the factor of one. -/
structure DifferAt (src dst : Sharding) (dim a b : ℕ) : Prop where
  factors_src : src.factors[dim]? = some a
  factors_dst : dst.factors = src.factors.set dim b

theorem DifferAt.symm {src dst : Sharding} {dim a b : ℕ} (h : DifferAt src dst dim a b) :
    DifferAt dst src dim b a := by
  obtain ⟨hlt, ha⟩ := List.getElem?_eq_some_iff.mp h.factors_src
  refine ⟨by rw [h.factors_dst, List.getElem?_set_self hlt], ?_⟩
  rw [h.factors_dst, List.set_set, ← ha, List.set_getElem_self]

theorem pos_of_prod_pos {sharding : Sharding} (h : 0 < sharding.factors.prod) :
    ∀ shardingDim ∈ sharding.dims, 1 ≤ shardingDim.sharding := by
  intro shardingDim hdim
  by_contra hzero
  have hmem : 0 ∈ sharding.factors :=
    List.mem_map.mpr ⟨shardingDim, hdim, by omega⟩
  exact h.ne' (List.prod_eq_zero hmem)

/-- Positive factors in the differing dimension make both meshes empty or neither. -/
theorem prod_eq_zero_iff {src dst : Sharding} {dim a b : ℕ} (h : DifferAt src dst dim a b)
    (ha : 0 < a) (hb : 0 < b) :
    src.factors.prod = 0 ↔ dst.factors.prod = 0 := by
  have hzero : ∀ {src dst : Sharding} {a b : ℕ}, DifferAt src dst dim a b → 0 < a →
      src.factors.prod = 0 → dst.factors.prod = 0 := by
    intro src dst a b h ha hprod
    obtain ⟨j, hj⟩ := List.getElem?_of_mem (List.prod_eq_zero_iff.mp hprod)
    have hne : dim ≠ j := by
      rintro rfl
      rw [h.factors_src, Option.some.injEq] at hj
      omega
    apply List.prod_eq_zero
    rw [h.factors_dst]
    exact List.mem_of_getElem? (by rw [List.getElem?_set_ne hne]; exact hj)
  exact ⟨hzero h ha, hzero h.symm hb⟩

theorem dvd_iff_forall_dims {src dst : Sharding} {dim a b : ℕ} (h : DifferAt src dst dim a b) :
    (∀ pair ∈ src.factors.zip dst.factors, pair.1 ∣ pair.2 ∨ pair.2 ∣ pair.1) ↔ a ∣ b ∨ b ∣ a := by
  have hzip : ∀ j x, (src.factors.zip dst.factors)[j]? = some x →
      (j = dim ∧ x = (a, b)) ∨ x.1 = x.2 := by
    intro j x hx
    obtain ⟨hsrc, hdst⟩ := List.getElem?_zip_eq_some.mp hx
    by_cases hj : j = dim
    · subst hj
      rw [h.factors_src, Option.some.injEq] at hsrc
      rw [h.symm.factors_src, Option.some.injEq] at hdst
      exact Or.inl ⟨rfl, Prod.ext hsrc.symm hdst.symm⟩
    · rw [h.factors_dst, List.getElem?_set_ne (Ne.symm hj), hsrc, Option.some.injEq] at hdst
      exact Or.inr hdst
  constructor
  · intro hall
    exact hall (a, b) (List.mem_of_getElem? (List.getElem?_zip_eq_some.mpr
      ⟨h.factors_src, h.symm.factors_src⟩))
  · intro hdvd pair hpair
    obtain ⟨j, hj⟩ := List.getElem?_of_mem hpair
    rcases hzip j pair hj with ⟨-, rfl⟩ | heq
    · exact hdvd
    · exact Or.inl heq.dvd

theorem scatterGather_branch [RealmBuild] {p : Processor} {src dst : Sharding}
    {config : ScatterGatherConfig}
    (h : determineShardingConfig p src dst = .ok (.scatterGather config)) :
    src.dims.length = dst.dims.length ∧
      determineScatterGatherConfig p src dst = .ok (.scatterGather config) := by
  cases plannedBy_of_eq_ok h with
  | scatterGather hlen hrun => exact ⟨hlen, hrun⟩

/-- Where the planner chooses a scatter-gather, every processor gets it for the
one dimension that differs. -/
theorem exists_scatterGather_dim [RealmBuild] {src dst : Sharding}
    (hconfig : ∀ p, ∃ config, determineShardingConfig p src dst = .ok (.scatterGather config)) :
    ∃ dim a b, DifferAt src dst dim a b ∧ ∀ p config,
      determineShardingConfig p src dst = .ok (.scatterGather config) →
      getScatterGatherConfig dim (src.devices.shardId p.globalId)
        (dst.devices.shardId p.globalId) src dst = .ok config := by
  obtain ⟨config₀, hconfig₀⟩ := hconfig ⟨.test, 0, 0⟩
  obtain ⟨hlen, hbranch⟩ := scatterGather_branch hconfig₀
  have hone : (differingDims (src.dims.zip dst.dims) 0 (0, none)).1 = 1 := by
    unfold determineScatterGatherConfig at hbranch
    split at hbranch
    split at hbranch
    · rename_i heq hone
      rw [heq]
      exact hone
    · simp at hbranch
  obtain ⟨dim, hdim, hlt, hsame⟩ := differingDims_one hone
  rw [Nat.zero_add] at hdim
  have hsrc : dim < src.dims.length := by simp at hlt; omega
  have hdst : dim < dst.dims.length := by omega
  refine ⟨dim, src.dims[dim].sharding, dst.dims[dim].sharding, ⟨?_, ?_⟩, fun p config h ↦ ?_⟩
  · simp [Sharding.factors, List.getElem?_eq_getElem hsrc]
  · apply List.ext_getElem?
    intro j
    by_cases hj : j = dim
    · subst hj
      simp [Sharding.factors, hsrc, hdst]
    · rw [List.getElem?_set_ne (Ne.symm hj)]
      simp only [Sharding.factors, List.getElem?_map]
      rw [getElem?_dims_eq hlen hsame hj]
  · obtain ⟨-, h⟩ := scatterGather_branch h
    have hvalue : differingDims (src.dims.zip dst.dims) 0 (0, none) = (1, some dim) :=
      Prod.ext hone hdim
    simp only [determineScatterGatherConfig, hvalue, if_true, optionalValue_some, ok_bind] at h
    obtain ⟨_, hrun, h⟩ := bind_eq_ok_iff.mp h
    obtain rfl : _ = config := by simpa using h
    exact hrun

/-! ## The slices of either side -/

/-- Both sides have positive factors and their dimensions in storage order,
and the factor `a` of dimension `dim` on the fine side is the larger one. -/
structure Refines (fine coarse : Sharding) (dim a b : ℕ) : Prop where
  differ : DifferAt fine coarse dim a b
  lt : b < a
  order_fine : fine.StorageOrder
  order_coarse : coarse.StorageOrder
  pos_fine : ∀ shardingDim ∈ fine.dims, 1 ≤ shardingDim.sharding
  pos_coarse : ∀ shardingDim ∈ coarse.dims, 1 ≤ shardingDim.sharding
  fits_fine : fine.factors.prod < int64Bound
  fits_coarse : coarse.factors.prod < int64Bound

def tileBox [RealmBuild] (fine : Sharding) (index : List ℕ) : RealmShape :=
  (makeTileBox index fine).toOption.getD RealmShape.unset

/-- Every tile of the fine side has a box. -/
def HasBoxes [RealmBuild] (fine : Sharding) : Prop :=
  ∀ index, Digits fine.factors index → makeTileBox index fine = .ok (tileBox fine index)

/-- The shard of the other side and the box, for a shard of the fine side. -/
def folded [RealmBuild] (dim q : ℕ) (fine coarse : Sharding) (shard : ℕ) : ℕ × RealmShape :=
  (coarse.tileShard (foldDigit dim q (fine.tileIndex shard)), tileBox fine (fine.tileIndex shard))

/-- The shards of the other side and the boxes, for a shard of the coarse side. -/
def unfolded [RealmBuild] (dim q : ℕ) (fine coarse : Sharding) (shard : ℕ) :
    List (ℕ × RealmShape) :=
  (List.range q).map fun slice ↦
    (fine.tileShard (unfoldDigit dim q slice (coarse.tileIndex shard)),
      tileBox fine (unfoldDigit dim q slice (coarse.tileIndex shard)))

/-! ## What the planner computes -/

section

variable [RealmBuild] {fine coarse : Sharding} {dim q : ℕ}

theorem foldedSlice_eq_ok (hbijective : IndexedWrites.Covers fine.dims.length fine.permutations)
    (hpos : ∀ shardingDim ∈ fine.dims, 1 ≤ shardingDim.sharding)
    (hfits : fine.factors.prod < int64Bound) (hlen : coarse.dims.length = fine.dims.length)
    (hdim : dim < fine.dims.length) (hq : 0 < q)
    {f : ℕ} {box : RealmShape} (hbox : makeTileBox (fine.tileIndex f) fine = .ok box) :
    foldedSlice dim q f fine coarse =
      .ok (encode coarse.factors (foldDigit dim q (fine.tileIndex f)), box) := by
  have hdim : dim < (fine.tileIndex f).length := by simpa using hdim
  have hfold : (fine.tileIndex f).set dim ((fine.tileIndex f)[dim] / q) =
      foldDigit dim q (fine.tileIndex f) := by
    rw [foldDigit, List.getD_eq_getElem _ _ hdim]
  rw [foldedSlice, computeTileIndex_eq hbijective hpos hfits, ok_bind, hbox, ok_bind,
    vectorAt_of_getElem? (List.getElem?_eq_getElem hdim), ok_bind, checkedDiv_of_pos hq, ok_bind,
    vectorSet_of_lt hdim, ok_bind, hfold, computeTileShard_eq (by simp [hlen])]
  rfl

theorem unfoldedSlices_eq_ok
    (hbijective : IndexedWrites.Covers coarse.dims.length coarse.permutations)
    (hpos : ∀ shardingDim ∈ coarse.dims, 1 ≤ shardingDim.sharding)
    (hfits : coarse.factors.prod < int64Bound) (hlen : coarse.dims.length = fine.dims.length)
    (hdim : dim < fine.dims.length) {c : ℕ}
    {box : List ℕ → RealmShape} (hbox : ∀ slice < q,
      makeTileBox (unfoldDigit dim q slice (coarse.tileIndex c)) fine =
        .ok (box (unfoldDigit dim q slice (coarse.tileIndex c)))) :
    unfoldedSlices dim q c fine coarse = .ok ((List.range q).map fun slice ↦
      (encode fine.factors (unfoldDigit dim q slice (coarse.tileIndex c)),
        box (unfoldDigit dim q slice (coarse.tileIndex c)))) := by
  have hdim : dim < (coarse.tileIndex c).length := by simpa [hlen] using hdim
  rw [unfoldedSlices, computeTileIndex_eq hbijective hpos hfits, ok_bind,
    vectorAt_of_getElem? (List.getElem?_eq_getElem hdim), ok_bind]
  refine mapM_eq_ok_map fun slice hslice ↦ ?_
  have hunfold : (coarse.tileIndex c).set dim ((coarse.tileIndex c)[dim] * q + slice) =
      unfoldDigit dim q slice (coarse.tileIndex c) := by
    rw [unfoldDigit, List.getD_eq_getElem _ _ hdim]
  rw [vectorSet_of_lt hdim, ok_bind, hunfold, hbox slice (List.mem_range.mp hslice), ok_bind,
    computeTileShard_eq (by simp [hlen])]
  rfl

variable {src dst : Sharding} {x y : ShardingDim} {srcShard dstShard : Option ℕ}

variable (srcShard dstShard) in
/-- The source has the larger factor. -/
theorem getScatterGatherConfig_of_lt (hx : src.dims[dim]? = some x) (hy : dst.dims[dim]? = some y)
    (hpos : 0 < y.sharding) (hlt : y.sharding < x.sharding) {fold : ℕ → ℕ × RealmShape}
    {unfold : ℕ → List (ℕ × RealmShape)}
    (hfold : ∀ s ∈ srcShard,
      foldedSlice dim (x.sharding / y.sharding) s src dst = .ok (fold s))
    (hunfold : ∀ t ∈ dstShard,
      unfoldedSlices dim (x.sharding / y.sharding) t src dst = .ok (unfold t)) :
    getScatterGatherConfig dim srcShard dstShard src dst =
      .ok ⟨srcShard.elim [] fun s ↦ [⟨s, (fold s).1, (fold s).2⟩],
        dstShard.elim [] fun t ↦ (unfold t).map fun slice ↦ ⟨slice.1, t, slice.2⟩⟩ := by
  have hquotient : 0 < x.sharding / y.sharding := Nat.div_pos hlt.le hpos
  have hposSrc : 0 < x.sharding := by omega
  simp only [getScatterGatherConfig, vectorAt_of_getElem? hx, vectorAt_of_getElem? hy, ok_bind,
    assertThat_of hlt.ne', if_pos hlt, checkedDiv_of_pos hpos, checkedDiv_of_pos hposSrc]
  rw [whenSome_eq_ok fun s hs ↦ ?_, ok_bind, whenSome_eq_ok fun t ht ↦ ?_, ok_bind]
  · rfl
  · rw [hunfold t ht]
    rfl
  · rw [hfold s hs, ok_bind, checkedMod_of_pos hquotient]
    rfl

variable (srcShard dstShard) in
/-- The destination has the larger factor. -/
theorem getScatterGatherConfig_of_gt (hx : src.dims[dim]? = some x) (hy : dst.dims[dim]? = some y)
    (hpos : 0 < x.sharding) (hlt : x.sharding < y.sharding) {fold : ℕ → ℕ × RealmShape}
    {unfold : ℕ → List (ℕ × RealmShape)}
    (hfold : ∀ t ∈ dstShard,
      foldedSlice dim (y.sharding / x.sharding) t dst src = .ok (fold t))
    (hunfold : ∀ s ∈ srcShard,
      unfoldedSlices dim (y.sharding / x.sharding) s dst src = .ok (unfold s)) :
    getScatterGatherConfig dim srcShard dstShard src dst =
      .ok ⟨srcShard.elim [] fun s ↦ (unfold s).map fun slice ↦ ⟨s, slice.1, slice.2⟩,
        dstShard.elim [] fun t ↦ [⟨(fold t).1, t, (fold t).2⟩]⟩ := by
  have hposDst : 0 < y.sharding := by omega
  simp only [getScatterGatherConfig, vectorAt_of_getElem? hx, vectorAt_of_getElem? hy, ok_bind,
    assertThat_of hlt.ne, if_neg (Nat.not_lt.mpr hlt.le), checkedDiv_of_pos hpos,
    checkedDiv_of_pos hposDst]
  rw [whenSome_eq_ok fun t ht ↦ ?_, ok_bind, whenSome_eq_ok fun s hs ↦ ?_, ok_bind]
  · rfl
  · rw [hunfold s hs]
    rfl
  · rw [hfold t ht]
    rfl

/-- A configuration is returned only when both sides have their slices. -/
theorem slices_of_config_lt (hx : src.dims[dim]? = some x) (hy : dst.dims[dim]? = some y)
    (hpos : 0 < y.sharding) (hlt : y.sharding < x.sharding) {config : ScatterGatherConfig}
    (hrun : getScatterGatherConfig dim srcShard dstShard src dst = .ok config) :
    (∀ s ∈ srcShard, ∃ slice,
      foldedSlice dim (x.sharding / y.sharding) s src dst = .ok slice) ∧
    ∀ t ∈ dstShard, ∃ slices,
      unfoldedSlices dim (x.sharding / y.sharding) t src dst = .ok slices := by
  have hposSrc : 0 < x.sharding := by omega
  simp only [getScatterGatherConfig, vectorAt_of_getElem? hx, vectorAt_of_getElem? hy, ok_bind,
    assertThat_of hlt.ne', if_pos hlt, checkedDiv_of_pos hpos, checkedDiv_of_pos hposSrc] at hrun
  obtain ⟨_, hsource, hrun⟩ := bind_eq_ok_iff.mp hrun
  obtain ⟨_, htarget, -⟩ := bind_eq_ok_iff.mp hrun
  constructor
  · rintro s rfl
    obtain ⟨slice, hslice, -⟩ := bind_eq_ok_iff.mp hsource
    exact ⟨slice, hslice⟩
  · rintro t rfl
    obtain ⟨slices, hslices, -⟩ := bind_eq_ok_iff.mp htarget
    exact ⟨slices, hslices⟩

theorem slices_of_config_gt (hx : src.dims[dim]? = some x) (hy : dst.dims[dim]? = some y)
    (hpos : 0 < x.sharding) (hlt : x.sharding < y.sharding) {config : ScatterGatherConfig}
    (hrun : getScatterGatherConfig dim srcShard dstShard src dst = .ok config) :
    (∀ t ∈ dstShard, ∃ slice,
      foldedSlice dim (y.sharding / x.sharding) t dst src = .ok slice) ∧
    ∀ s ∈ srcShard, ∃ slices,
      unfoldedSlices dim (y.sharding / x.sharding) s dst src = .ok slices := by
  have hposDst : 0 < y.sharding := by omega
  simp only [getScatterGatherConfig, vectorAt_of_getElem? hx, vectorAt_of_getElem? hy, ok_bind,
    assertThat_of hlt.ne, if_neg (Nat.not_lt.mpr hlt.le), checkedDiv_of_pos hpos,
    checkedDiv_of_pos hposDst] at hrun
  obtain ⟨_, htarget, hrun⟩ := bind_eq_ok_iff.mp hrun
  obtain ⟨_, hsource, -⟩ := bind_eq_ok_iff.mp hrun
  constructor
  · rintro t rfl
    obtain ⟨slice, hslice, -⟩ := bind_eq_ok_iff.mp htarget
    exact ⟨slice, hslice⟩
  · rintro s rfl
    obtain ⟨slices, hslices, -⟩ := bind_eq_ok_iff.mp hsource
    exact ⟨slices, hslices⟩

end

/-! ## Folding and unfolding -/

section

variable {fine coarse : Sharding} {dim a b : ℕ}

namespace Refines

variable (h : Refines fine coarse dim a b)

include h

theorem factors_coarse : coarse.factors[dim]? = some b := h.differ.symm.factors_src

theorem b_pos : 0 < b := by
  obtain ⟨shardingDim, hdim, rfl⟩ :=
    List.mem_map.mp (List.mem_of_getElem? h.factors_coarse)
  exact h.pos_coarse shardingDim hdim

theorem quotient_pos : 0 < a / b := Nat.div_pos h.lt.le h.b_pos

theorem length_eq : coarse.dims.length = fine.dims.length := by
  rw [← Sharding.length_factors, h.differ.factors_dst, List.length_set, Sharding.length_factors]

theorem dim_lt : dim < fine.dims.length := by
  obtain ⟨hlt, -⟩ := List.getElem?_eq_some_iff.mp h.differ.factors_src
  simpa using hlt

theorem unfold_digits {index : List ℕ} (hindex : Digits coarse.factors index) {slice : ℕ}
    (hslice : slice < a / b) : Digits fine.factors (unfoldDigit dim (a / b) slice index) := by
  have hdigits := hindex.unfold h.factors_coarse (Nat.mul_div_le a b) hslice
  rwa [← h.differ.symm.factors_dst] at hdigits

theorem fold_digits (hdvd : b ∣ a) {index : List ℕ} (hindex : Digits fine.factors index) :
    Digits coarse.factors (foldDigit dim (a / b) index) := by
  have hdigits := hindex.fold h.differ.factors_src (Nat.mul_div_cancel' hdvd).ge
  rwa [← h.differ.factors_dst] at hdigits

/-- The two sides pair the same shards when the factors divide. -/
theorem eq_folded_iff [RealmBuild] (hdvd : b ∣ a) {f c : ℕ} (hf : f < fine.factors.prod)
    (hc : c < coarse.factors.prod) (bounds : RealmShape) :
    (c, bounds) = folded dim (a / b) fine coarse f ↔
      (f, bounds) ∈ unfolded dim (a / b) fine coarse c := by
  have hfine := tileIndex_digits h.order_fine.covers hf
  have hcoarse := tileIndex_digits h.order_coarse.covers hc
  have hdimFine : dim < (fine.tileIndex f).length := by simpa using h.dim_lt
  have hdimCoarse : dim < (coarse.tileIndex c).length := by simpa [h.length_eq] using h.dim_lt
  simp only [folded, unfolded, List.mem_map, List.mem_range, Prod.mk.injEq]
  constructor
  · rintro ⟨rfl, rfl⟩
    refine ⟨(fine.tileIndex f).getD dim 0 % (a / b), Nat.mod_lt _ h.quotient_pos, ?_⟩
    rw [tileIndex_tileShard h.order_coarse.covers (h.fold_digits hdvd hfine),
      unfoldDigit_foldDigit hdimFine, tileShard_tileIndex h.order_fine.covers hf]
    exact ⟨rfl, rfl⟩
  · rintro ⟨slice, hslice, rfl, rfl⟩
    rw [tileIndex_tileShard h.order_fine.covers (h.unfold_digits hcoarse hslice),
      foldDigit_unfoldDigit hdimCoarse hslice, tileShard_tileIndex h.order_coarse.covers hc]
    exact ⟨rfl, rfl⟩

/-- When they do not divide, the first index past the last multiple is left out. -/
theorem exists_not_unfolded [RealmBuild] (hdvd : ¬ b ∣ a) :
    ∃ f < fine.factors.prod, ∀ c < coarse.factors.prod, ∀ bounds,
      (f, bounds) ∉ unfolded dim (a / b) fine coarse c := by
  have hpast : b * (a / b) < a :=
    lt_of_le_of_ne (Nat.mul_div_le a b) fun heq ↦ hdvd ⟨a / b, heq.symm⟩
  have hprod : 0 < fine.factors.prod := List.prod_pos fun c hc ↦ by
    obtain ⟨shardingDim, hdim, rfl⟩ := List.mem_map.mp hc
    exact h.pos_fine shardingDim hdim
  have hindex := (tileIndex_digits h.order_fine.covers hprod).set hpast dim
  obtain ⟨hlt, ha⟩ := List.getElem?_eq_some_iff.mp h.differ.factors_src
  have hsame : fine.factors.set dim a = fine.factors := by rw [← ha, List.set_getElem_self]
  rw [hsame] at hindex
  refine ⟨fine.tileShard _, tileShard_lt h.order_fine.covers hindex, fun c hc bounds hmem ↦ ?_⟩
  obtain ⟨slice, hslice, heq⟩ := List.mem_map.mp hmem
  have hslice : slice < a / b := List.mem_range.mp hslice
  have hcoarse := tileIndex_digits h.order_coarse.covers hc
  have hsame := congrArg fine.tileIndex (congrArg Prod.fst heq)
  simp only at hsame
  rw [tileIndex_tileShard h.order_fine.covers (h.unfold_digits hcoarse hslice),
    tileIndex_tileShard h.order_fine.covers hindex] at hsame
  have hdigit := congrArg (fun index ↦ index.getD dim 0) hsame
  have hdimFine : dim < (fine.tileIndex 0).length := by simpa using h.dim_lt
  have hdimCoarse : dim < (coarse.tileIndex c).length := by simpa [h.length_eq] using h.dim_lt
  simp only [unfoldDigit, List.getD_eq_getElem?_getD, List.getElem?_set_self hdimFine,
    List.getElem?_set_self hdimCoarse, Option.getD_some] at hdigit
  have hdigitLt := hcoarse.getD_lt h.factors_coarse
  rw [List.getD_eq_getElem?_getD] at hdigitLt
  have hle := Nat.mul_le_mul_right (a / b) (Nat.succ_le_of_lt hdigitLt)
  rw [Nat.succ_mul] at hle
  omega

theorem folded_iff_unfolded [RealmBuild] :
    (∀ f c bounds, f < fine.factors.prod ∧ (c, bounds) = folded dim (a / b) fine coarse f ↔
      c < coarse.factors.prod ∧ (f, bounds) ∈ unfolded dim (a / b) fine coarse c) ↔ b ∣ a := by
  constructor
  · intro hiff
    by_contra hdvd
    obtain ⟨f, hf, hnot⟩ := h.exists_not_unfolded hdvd
    obtain ⟨hc, hmem⟩ := (hiff f _ _).mp ⟨hf, rfl⟩
    exact hnot _ hc _ hmem
  · intro hdvd f c bounds
    constructor
    · rintro ⟨hf, heq⟩
      have hc : c < coarse.factors.prod := by
        obtain rfl := congrArg Prod.fst heq
        exact tileShard_lt h.order_coarse.covers
          (h.fold_digits hdvd (tileIndex_digits h.order_fine.covers hf))
      exact ⟨hc, (h.eq_folded_iff hdvd hf hc bounds).mp heq⟩
    · rintro ⟨hc, hmem⟩
      have hf : f < fine.factors.prod := by
        obtain ⟨slice, hslice, heq⟩ := List.mem_map.mp hmem
        obtain rfl := congrArg Prod.fst heq
        exact tileShard_lt h.order_fine.covers
          (h.unfold_digits (tileIndex_digits h.order_coarse.covers hc) (List.mem_range.mp hslice))
      exact ⟨hf, (h.eq_folded_iff hdvd hf hc bounds).mpr hmem⟩

/-- A tile that was folded has its box. -/
theorem hasBoxes [RealmBuild]
    (hrun : ∀ f < fine.factors.prod, ∃ slice, foldedSlice dim (a / b) f fine coarse = .ok slice) :
    HasBoxes fine := by
  intro index hindex
  obtain ⟨slice, hslice⟩ := hrun _ (tileShard_lt h.order_fine.covers hindex)
  rw [foldedSlice, computeTileIndex_eq h.order_fine.covers h.pos_fine h.fits_fine, ok_bind,
    tileIndex_tileShard h.order_fine.covers hindex] at hslice
  obtain ⟨bounds, hbounds, -⟩ := bind_eq_ok_iff.mp hslice
  rw [tileBox, hbounds]
  rfl

theorem foldedSlice_eq [RealmBuild] (hboxes : HasBoxes fine) {f : ℕ}
    (hf : f < fine.factors.prod) :
    foldedSlice dim (a / b) f fine coarse = .ok (folded dim (a / b) fine coarse f) := by
  have hindex := tileIndex_digits h.order_fine.covers hf
  rw [foldedSlice_eq_ok h.order_fine.covers h.pos_fine h.fits_fine h.length_eq h.dim_lt
    h.quotient_pos (hboxes _ hindex),
    ← tileShard_of_storageOrder h.order_coarse (by simp [h.length_eq])]
  rfl

theorem unfoldedSlices_eq [RealmBuild] (hboxes : HasBoxes fine) {c : ℕ}
    (hc : c < coarse.factors.prod) :
    unfoldedSlices dim (a / b) c fine coarse = .ok (unfolded dim (a / b) fine coarse c) := by
  have hindex := tileIndex_digits h.order_coarse.covers hc
  rw [unfoldedSlices_eq_ok h.order_coarse.covers h.pos_coarse h.fits_coarse h.length_eq h.dim_lt
    fun slice hslice ↦ hboxes _ (h.unfold_digits hindex hslice), unfolded, Except.ok.injEq]
  apply List.map_congr_left
  intro slice _
  rw [tileShard_of_storageOrder h.order_fine (by simp [h.length_eq])]

end Refines

/-! ## The configuration -/

theorem exists_dim_of_factors {sharding : Sharding} (h : sharding.factors[dim]? = some a) :
    ∃ shardingDim, sharding.dims[dim]? = some shardingDim ∧ shardingDim.sharding = a := by
  rwa [Sharding.factors, List.getElem?_map, Option.map_eq_some_iff] at h

variable [RealmBuild] {srcShard dstShard : Option ℕ}

theorem getScatterGatherConfig_contract (h : Refines fine coarse dim a b)
    (hboxes : HasBoxes fine) (hsrc : ∀ s ∈ srcShard, s < fine.factors.prod)
    (hdst : ∀ t ∈ dstShard, t < coarse.factors.prod) :
    getScatterGatherConfig dim srcShard dstShard fine coarse =
      .ok ⟨srcShard.elim [] fun s ↦
          [⟨s, (folded dim (a / b) fine coarse s).1, (folded dim (a / b) fine coarse s).2⟩],
        dstShard.elim [] fun t ↦
          (unfolded dim (a / b) fine coarse t).map fun slice ↦ ⟨slice.1, t, slice.2⟩⟩ := by
  obtain ⟨x, hx, rfl⟩ := exists_dim_of_factors h.differ.factors_src
  obtain ⟨y, hy, rfl⟩ := exists_dim_of_factors h.factors_coarse
  apply getScatterGatherConfig_of_lt srcShard dstShard hx hy h.b_pos h.lt
  · intro s hs
    exact h.foldedSlice_eq hboxes (hsrc s hs)
  · intro t ht
    exact h.unfoldedSlices_eq hboxes (hdst t ht)

theorem getScatterGatherConfig_expand (h : Refines fine coarse dim a b)
    (hboxes : HasBoxes fine) (hsrc : ∀ s ∈ srcShard, s < coarse.factors.prod)
    (hdst : ∀ t ∈ dstShard, t < fine.factors.prod) :
    getScatterGatherConfig dim srcShard dstShard coarse fine =
      .ok ⟨srcShard.elim [] fun s ↦
          (unfolded dim (a / b) fine coarse s).map fun slice ↦ ⟨s, slice.1, slice.2⟩,
        dstShard.elim [] fun t ↦
          [⟨(folded dim (a / b) fine coarse t).1, t, (folded dim (a / b) fine coarse t).2⟩]⟩ := by
  obtain ⟨x, hx, rfl⟩ := exists_dim_of_factors h.differ.factors_src
  obtain ⟨y, hy, rfl⟩ := exists_dim_of_factors h.factors_coarse
  apply getScatterGatherConfig_of_gt srcShard dstShard hy hx h.b_pos h.lt
  · intro t ht
    exact h.foldedSlice_eq hboxes (hdst t ht)
  · intro s hs
    exact h.unfoldedSlices_eq hboxes (hsrc s hs)

theorem factors_of_getScatterGatherConfig {src dst : Sharding} {config : ScatterGatherConfig}
    (h : DifferAt src dst dim a b)
    (hrun : getScatterGatherConfig dim srcShard dstShard src dst = .ok config) :
    0 < a ∧ 0 < b ∧ a ≠ b := by
  obtain ⟨x, hx, rfl⟩ := exists_dim_of_factors h.factors_src
  obtain ⟨y, hy, rfl⟩ := exists_dim_of_factors h.symm.factors_src
  rw [getScatterGatherConfig, vectorAt_of_getElem? hx, ok_bind, vectorAt_of_getElem? hy,
    ok_bind] at hrun
  obtain ⟨_, hne, hrun⟩ := bind_eq_ok_iff.mp hrun
  have hne := assertThat_eq_ok_iff.mp hne
  split at hrun
  · rename_i hlt
    obtain ⟨_, hdiv, -⟩ := bind_eq_ok_iff.mp hrun
    have hpos := (checkedDiv_eq_ok_iff.mp hdiv).1
    exact ⟨by omega, hpos, hne⟩
  · obtain ⟨_, hdiv, -⟩ := bind_eq_ok_iff.mp hrun
    have hpos := (checkedDiv_eq_ok_iff.mp hdiv).1
    exact ⟨hpos, by omega, hne⟩

theorem getScatterGatherConfig_none {src dst : Sharding} {config : ScatterGatherConfig}
    (hrun : getScatterGatherConfig dim none none src dst = .ok config) : config = ⟨[], []⟩ := by
  obtain ⟨x, -, hrun⟩ := bind_eq_ok_iff.mp hrun
  obtain ⟨y, -, hrun⟩ := bind_eq_ok_iff.mp hrun
  obtain ⟨_, -, hrun⟩ := bind_eq_ok_iff.mp hrun
  split at hrun
  · obtain ⟨_, -, hrun⟩ := bind_eq_ok_iff.mp hrun
    obtain ⟨_, -, hrun⟩ := bind_eq_ok_iff.mp hrun
    exact (Except.ok.inj hrun).symm
  · obtain ⟨_, -, hrun⟩ := bind_eq_ok_iff.mp hrun
    obtain ⟨_, -, hrun⟩ := bind_eq_ok_iff.mp hrun
    exact (Except.ok.inj hrun).symm

theorem hasBoxes_of_contract (h : Refines fine coarse dim a b)
    (hrun : ∀ f < fine.factors.prod, ∃ dstShard config,
      getScatterGatherConfig dim (some f) dstShard fine coarse = .ok config) : HasBoxes fine := by
  refine h.hasBoxes fun f hf ↦ ?_
  obtain ⟨dstShard, config, hconfig⟩ := hrun f hf
  obtain ⟨x, hx, rfl⟩ := exists_dim_of_factors h.differ.factors_src
  obtain ⟨y, hy, rfl⟩ := exists_dim_of_factors h.factors_coarse
  exact (slices_of_config_lt hx hy h.b_pos h.lt hconfig).1 f rfl

theorem hasBoxes_of_expand (h : Refines fine coarse dim a b)
    (hrun : ∀ f < fine.factors.prod, ∃ srcShard config,
      getScatterGatherConfig dim srcShard (some f) coarse fine = .ok config) : HasBoxes fine := by
  refine h.hasBoxes fun f hf ↦ ?_
  obtain ⟨srcShard, config, hconfig⟩ := hrun f hf
  obtain ⟨x, hx, rfl⟩ := exists_dim_of_factors h.differ.factors_src
  obtain ⟨y, hy, rfl⟩ := exists_dim_of_factors h.factors_coarse
  exact (slices_of_config_gt hy hx h.b_pos h.lt hconfig).1 f rfl

end

/-! ## All processors -/

theorem exists_processor (devices : DeviceList) {s : ℕ} (hs : s < devices.size) :
    ∃ p : Processor, devices.shardId p.globalId = some s :=
  ⟨⟨.test, s, devices.start + s⟩, devices.shardId_start_add hs⟩

section

variable [RealmBuild] {src dst : Sharding} {dim a b : ℕ}

/-- The slices of all processors, from those of one processor: a send names the
shard that sends it and a receive the shard that receives it. -/
theorem matches_iff_of_plan {sends receives : ℕ → List SliceConfig}
    (hplan : ∀ p, determineShardingConfig p src dst = .ok (.scatterGather
      ⟨(src.devices.shardId p.globalId).elim [] sends,
        (dst.devices.shardId p.globalId).elim [] receives⟩))
    (hsend : ∀ s, ∀ slice ∈ sends s, slice.srcShard = s)
    (hreceive : ∀ t, ∀ slice ∈ receives t, slice.dstShard = t) :
    ScatterGatherMatches src dst ↔ ∀ slice,
      (∃ s < src.devices.size, slice ∈ sends s) ↔ ∃ t < dst.devices.size, slice ∈ receives t := by
  have hside (devices : DeviceList) (side : ℕ → List SliceConfig) (slice : SliceConfig) :
      (∃ p : Processor, slice ∈ (devices.shardId p.globalId).elim [] side) ↔
        ∃ s < devices.size, slice ∈ side s := by
    constructor
    · rintro ⟨p, hp⟩
      cases hs : devices.shardId p.globalId with
      | none => simp [hs] at hp
      | some s =>
          rw [hs] at hp
          exact ⟨s, DeviceList.shardId_lt hs, hp⟩
    · rintro ⟨s, hs, hslice⟩
      obtain ⟨p, hp⟩ := exists_processor devices hs
      refine ⟨p, ?_⟩
      rw [hp]
      exact hslice
  have hall (part : ScatterGatherConfig → List SliceConfig) (slice : SliceConfig) :
      (∃ p config, determineShardingConfig p src dst = .ok (.scatterGather config) ∧
        slice ∈ part config) ↔
      ∃ p : Processor, slice ∈ part ⟨(src.devices.shardId p.globalId).elim [] sends,
        (dst.devices.shardId p.globalId).elim [] receives⟩ := by
    apply exists_congr
    intro p
    rw [hplan p]
    simp
  have hsends (slice : SliceConfig) :
      slice ∈ fromSourceSlices src dst ↔ ∃ s < src.devices.size, slice ∈ sends s :=
    (hall _ slice).trans (hside _ _ slice)
  have hreceives (slice : SliceConfig) :
      slice ∈ toTargetSlices src dst ↔ ∃ t < dst.devices.size, slice ∈ receives t :=
    (hall _ slice).trans (hside _ _ slice)
  constructor
  · intro hmatch slice
    rw [← hsends, ← hreceives, hmatch.slices_eq]
  · intro hslices
    refine ⟨Set.ext fun slice ↦ ?_, fun slice hslice ↦ ?_⟩
    · rw [hsends, hreceives]
      exact hslices slice
    · obtain ⟨s, hs, hsent⟩ := (hsends slice).mp hslice
      obtain ⟨t, ht, hreceived⟩ := (hslices slice).mp ⟨s, hs, hsent⟩
      rw [hsend s slice hsent, hreceive t slice hreceived]
      exact ⟨hs, ht⟩

/-- The slices of the fine side are those of the coarse side when the factors
divide, and only then.  `make` puts the shards of the two sides in their places. -/
theorem slices_eq_iff {fine coarse : Sharding} (h : Refines fine coarse dim a b)
    (make : ℕ → ℕ → RealmShape → SliceConfig)
    (hmake : ∀ f c bounds f' c' bounds', make f c bounds = make f' c' bounds' →
      f = f' ∧ c = c' ∧ bounds = bounds') :
    (∀ slice,
      (∃ f < fine.factors.prod, slice ∈ [make f (folded dim (a / b) fine coarse f).1
        (folded dim (a / b) fine coarse f).2]) ↔
      ∃ c < coarse.factors.prod, slice ∈ (unfolded dim (a / b) fine coarse c).map
        fun part ↦ make part.1 c part.2) ↔ b ∣ a := by
  have hfine : ∀ f c bounds, (∃ f' < fine.factors.prod,
      make f c bounds ∈ [make f' (folded dim (a / b) fine coarse f').1
        (folded dim (a / b) fine coarse f').2]) ↔
      f < fine.factors.prod ∧ (c, bounds) = folded dim (a / b) fine coarse f := by
    intro f c bounds
    constructor
    · rintro ⟨f', hf', hmem⟩
      obtain ⟨rfl, hc, hbounds⟩ := hmake _ _ _ _ _ _ (List.mem_singleton.mp hmem)
      exact ⟨hf', Prod.ext hc hbounds⟩
    · rintro ⟨hf, heq⟩
      exact ⟨f, hf, by rw [← heq]; exact List.mem_singleton_self _⟩
  have hcoarse : ∀ f c bounds, (∃ c' < coarse.factors.prod,
      make f c bounds ∈ (unfolded dim (a / b) fine coarse c').map
        fun part ↦ make part.1 c' part.2) ↔
      c < coarse.factors.prod ∧ (f, bounds) ∈ unfolded dim (a / b) fine coarse c := by
    intro f c bounds
    constructor
    · rintro ⟨c', hc', hmem⟩
      obtain ⟨part, hpart, heq⟩ := List.mem_map.mp hmem
      obtain ⟨rfl, rfl, rfl⟩ := hmake _ _ _ _ _ _ heq
      exact ⟨hc', hpart⟩
    · rintro ⟨hc, hpart⟩
      exact ⟨c, hc, List.mem_map.mpr ⟨_, hpart, rfl⟩⟩
  rw [← h.folded_iff_unfolded]
  constructor
  · intro hslices f c bounds
    rw [← hfine, ← hcoarse]
    exact hslices _
  · intro hparts slice
    constructor
    · rintro ⟨f, hf, hmem⟩
      obtain rfl := List.mem_singleton.mp hmem
      rw [hcoarse]
      exact (hparts _ _ _).mp ⟨hf, rfl⟩
    · rintro ⟨c, hc, hmem⟩
      obtain ⟨part, hpart, rfl⟩ := List.mem_map.mp hmem
      rw [hfine]
      exact (hparts _ _ _).mpr ⟨hc, hpart⟩

theorem plan_of_config
    (hconfig : ∀ p, ∃ config, determineShardingConfig p src dst = .ok (.scatterGather config))
    (hrun : ∀ p config, determineShardingConfig p src dst = .ok (.scatterGather config) →
      getScatterGatherConfig dim (src.devices.shardId p.globalId)
        (dst.devices.shardId p.globalId) src dst = .ok config)
    {plan : Processor → ScatterGatherConfig}
    (hplan : ∀ p, getScatterGatherConfig dim (src.devices.shardId p.globalId)
        (dst.devices.shardId p.globalId) src dst = .ok (plan p)) (p : Processor) :
    determineShardingConfig p src dst = .ok (.scatterGather (plan p)) := by
  obtain ⟨config, hp⟩ := hconfig p
  have heq := (hrun p config hp).symm.trans (hplan p)
  rw [hp, Except.ok.inj heq]

theorem matches_of_contract (h : Refines src dst dim a b)
    (hsrc : src.factors.prod = src.devices.size) (hdst : dst.factors.prod = dst.devices.size)
    (hconfig : ∀ p, ∃ config, determineShardingConfig p src dst = .ok (.scatterGather config))
    (hrun : ∀ p config, determineShardingConfig p src dst = .ok (.scatterGather config) →
      getScatterGatherConfig dim (src.devices.shardId p.globalId)
        (dst.devices.shardId p.globalId) src dst = .ok config) :
    ScatterGatherMatches src dst ↔ b ∣ a := by
  have hboxes : HasBoxes src := hasBoxes_of_contract h fun f hf ↦ by
    obtain ⟨p, hp⟩ := exists_processor src.devices (hsrc ▸ hf)
    obtain ⟨config, hconfig⟩ := hconfig p
    exact ⟨_, config, hp ▸ hrun p config hconfig⟩
  have hplan := plan_of_config hconfig hrun fun p ↦ getScatterGatherConfig_contract h hboxes
    (fun s hs ↦ hsrc ▸ DeviceList.shardId_lt hs) (fun t ht ↦ hdst ▸ DeviceList.shardId_lt ht)
  rw [matches_iff_of_plan hplan, ← hsrc, ← hdst]
  · exact slices_eq_iff h (fun f c bounds ↦ ⟨f, c, bounds⟩) (by simp)
  · intro s slice hslice
    rw [List.mem_singleton.mp hslice]
  · intro t slice hslice
    obtain ⟨part, -, rfl⟩ := List.mem_map.mp hslice
    rfl

theorem matches_of_expand (h : Refines dst src dim a b)
    (hsrc : src.factors.prod = src.devices.size) (hdst : dst.factors.prod = dst.devices.size)
    (hconfig : ∀ p, ∃ config, determineShardingConfig p src dst = .ok (.scatterGather config))
    (hrun : ∀ p config, determineShardingConfig p src dst = .ok (.scatterGather config) →
      getScatterGatherConfig dim (src.devices.shardId p.globalId)
        (dst.devices.shardId p.globalId) src dst = .ok config) :
    ScatterGatherMatches src dst ↔ b ∣ a := by
  have hboxes : HasBoxes dst := hasBoxes_of_expand h fun f hf ↦ by
    obtain ⟨p, hp⟩ := exists_processor dst.devices (hdst ▸ hf)
    obtain ⟨config, hconfig⟩ := hconfig p
    exact ⟨_, config, hp ▸ hrun p config hconfig⟩
  have hplan := plan_of_config hconfig hrun fun p ↦ getScatterGatherConfig_expand h hboxes
    (fun s hs ↦ hsrc ▸ DeviceList.shardId_lt hs) (fun t ht ↦ hdst ▸ DeviceList.shardId_lt ht)
  rw [matches_iff_of_plan hplan, ← hsrc, ← hdst,
    ← slices_eq_iff h (fun f c bounds ↦ ⟨c, f, bounds⟩) (by simp)]
  · exact forall_congr' fun slice ↦ Iff.comm
  · intro s slice hslice
    obtain ⟨part, -, rfl⟩ := List.mem_map.mp hslice
    rfl
  · intro t slice hslice
    rw [List.mem_singleton.mp hslice]

/-- Without devices nobody sends or receives. -/
theorem matches_of_empty (hsrc : src.devices.size = 0) (hdst : dst.devices.size = 0)
    (hrun : ∀ p config, determineShardingConfig p src dst = .ok (.scatterGather config) →
      getScatterGatherConfig dim (src.devices.shardId p.globalId)
        (dst.devices.shardId p.globalId) src dst = .ok config) :
    ScatterGatherMatches src dst := by
  have hnone : ∀ (devices : DeviceList) (id : ℕ), devices.size = 0 → devices.shardId id = none := by
    intro devices id hsize
    refine Option.eq_none_iff_forall_not_mem.mpr fun s hs ↦ ?_
    have := DeviceList.shardId_lt hs
    omega
  have hslices : ∀ p config,
      determineShardingConfig p src dst = .ok (.scatterGather config) → config = ⟨[], []⟩ := by
    intro p config hp
    have hp := hrun p config hp
    rw [hnone _ _ hsrc, hnone _ _ hdst] at hp
    exact getScatterGatherConfig_none hp
  refine ⟨?_, ?_⟩
  · ext slice
    constructor
    · rintro ⟨p, config, hp, hmem⟩
      simp [hslices p config hp] at hmem
    · rintro ⟨p, config, hp, hmem⟩
      simp [hslices p config hp] at hmem
  · rintro slice ⟨p, config, hp, hmem⟩
    simp [hslices p config hp] at hmem

end

/-- Sends and receives of a scatter-gather match exactly when in every
dimension one of the two factors divides the other, or there are no devices. -/
theorem scatter_gather_matches_iff [RealmBuild] (src dst : Sharding)
    (hsrcOrder : src.StorageOrder) (hdstOrder : dst.StorageOrder)
    (hsrc : src.factors.prod = src.devices.size) (hdst : dst.factors.prod = dst.devices.size)
    (hconfig : ∀ p, ∃ config, determineShardingConfig p src dst = .ok (.scatterGather config)) :
    ScatterGatherMatches src dst ↔ src.devices.size = 0 ∨
      ∀ pair ∈ src.factors.zip dst.factors, pair.1 ∣ pair.2 ∨ pair.2 ∣ pair.1 := by
  obtain ⟨dim, a, b, hdiffer, hrun⟩ := exists_scatterGather_dim hconfig
  obtain ⟨config₀, hconfig₀⟩ := hconfig ⟨.test, 0, 0⟩
  obtain ⟨ha, hb, hne⟩ := factors_of_getScatterGatherConfig hdiffer (hrun _ _ hconfig₀)
  rw [dvd_iff_forall_dims hdiffer]
  by_cases hempty : src.devices.size = 0
  · have hempty' : dst.devices.size = 0 := by
      rw [← hdst, ← prod_eq_zero_iff hdiffer ha hb, hsrc, hempty]
    exact iff_of_true (matches_of_empty hempty hempty' hrun) (Or.inl hempty)
  have hposSrc : 0 < src.factors.prod := by omega
  have hposDst : 0 < dst.factors.prod :=
    Nat.pos_of_ne_zero fun hzero ↦ hposSrc.ne' ((prod_eq_zero_iff hdiffer ha hb).mpr hzero)
  rw [or_iff_right hempty]
  rcases Nat.lt_or_gt_of_ne hne with hlt | hlt
  · have hrefines : Refines dst src dim b a := ⟨hdiffer.symm, hlt, hdstOrder, hsrcOrder,
      pos_of_prod_pos hposDst, pos_of_prod_pos hposSrc, factors_fit hdst, factors_fit hsrc⟩
    rw [matches_of_expand hrefines hsrc hdst hconfig hrun]
    exact ⟨Or.inl, fun h ↦ h.resolve_right (Nat.not_dvd_of_pos_of_lt ha hlt)⟩
  · have hrefines : Refines src dst dim a b := ⟨hdiffer, hlt, hsrcOrder, hdstOrder,
      pos_of_prod_pos hposSrc, pos_of_prod_pos hposDst, factors_fit hsrc, factors_fit hdst⟩
    rw [matches_of_contract hrefines hsrc hdst hconfig hrun]
    exact ⟨Or.inr, fun h ↦ h.resolve_left (Nat.not_dvd_of_pos_of_lt hb hlt)⟩

theorem hasBoxes_of_cells [RealmBuild] {fine : Sharding}
    (h : ∀ index ∈ cells fine.factors, makeTileBox index fine = .ok (tileBox fine index)) :
    HasBoxes fine :=
  fun index hindex ↦ h index (mem_cells.mpr hindex)

theorem exists_config_of_contract [RealmBuild] {src dst : Sharding} {dim a b : ℕ}
    (h : Refines src dst dim a b) (hboxes : HasBoxes src)
    (hsrc : src.factors.prod = src.devices.size) (hdst : dst.factors.prod = dst.devices.size)
    (hbranch : ∀ p, determineShardingConfig p src dst =
      getScatterGatherConfig dim (src.devices.shardId p.globalId)
        (dst.devices.shardId p.globalId) src dst >>= fun config ↦ pure (.scatterGather config)) :
    ∀ p, ∃ config, determineShardingConfig p src dst = .ok (.scatterGather config) := by
  intro p
  rw [hbranch, getScatterGatherConfig_contract h hboxes
    (fun s hs ↦ hsrc ▸ DeviceList.shardId_lt hs) (fun t ht ↦ hdst ▸ DeviceList.shardId_lt ht)]
  exact ⟨_, rfl⟩

/-- Eight rows over four devices, gathered pairwise onto two. -/
theorem scatter_gather_matches_four_two :
    @ScatterGatherMatches .rankFour ⟨[⟨8, 4, 0⟩, ⟨3, 3, 1⟩], ⟨0, 12⟩⟩
      ⟨[⟨8, 2, 0⟩, ⟨3, 3, 1⟩], ⟨2, 6⟩⟩ := by
  have hboxes : @HasBoxes .rankFour ⟨[⟨8, 4, 0⟩, ⟨3, 3, 1⟩], ⟨0, 12⟩⟩ :=
    @hasBoxes_of_cells .rankFour _ (by decide)
  let _ : RealmBuild := .rankFour
  have hrefines : Refines ⟨[⟨8, 4, 0⟩, ⟨3, 3, 1⟩], ⟨0, 12⟩⟩ ⟨[⟨8, 2, 0⟩, ⟨3, 3, 1⟩], ⟨2, 6⟩⟩
      0 4 2 :=
    ⟨⟨rfl, rfl⟩, by decide, by decide, by decide, by decide, by decide, by decide, by decide⟩
  exact (scatter_gather_matches_iff ⟨[⟨8, 4, 0⟩, ⟨3, 3, 1⟩], ⟨0, 12⟩⟩
    ⟨[⟨8, 2, 0⟩, ⟨3, 3, 1⟩], ⟨2, 6⟩⟩ (by decide) (by decide) (by decide) (by decide)
    (exists_config_of_contract hrefines hboxes (by decide) (by decide) fun p ↦ rfl)).mpr
    (Or.inr (by decide))

/-- Six rows over three devices do not gather onto two: one third is a half
too many, and the last of the three is sent but never expected. -/
theorem not_scatter_gather_matches_three_two :
    ¬ ∀ (_ : RealmBuild) (src dst : Sharding),
      src.dims.map ShardingDim.size = dst.dims.map ShardingDim.size →
      src.StorageOrder → dst.StorageOrder → src.Tileable → dst.Tileable →
      (∀ p, ∃ config, determineShardingConfig p src dst = .ok (.scatterGather config)) →
      ScatterGatherMatches src dst := by
  intro h
  have hboxes : @HasBoxes .rankFour ⟨[⟨6, 3, 0⟩], ⟨0, 3⟩⟩ :=
    @hasBoxes_of_cells .rankFour _ (by decide)
  let _ : RealmBuild := .rankFour
  have hrefines : Refines ⟨[⟨6, 3, 0⟩], ⟨0, 3⟩⟩ ⟨[⟨6, 2, 0⟩], ⟨0, 2⟩⟩ 0 3 2 :=
    ⟨⟨rfl, rfl⟩, by decide, by decide, by decide, by decide, by decide, by decide, by decide⟩
  have hbranch : ∀ p, determineShardingConfig p ⟨[⟨6, 3, 0⟩], ⟨0, 3⟩⟩ ⟨[⟨6, 2, 0⟩], ⟨0, 2⟩⟩ =
      getScatterGatherConfig 0 (DeviceList.shardId ⟨0, 3⟩ p.globalId)
        (DeviceList.shardId ⟨0, 2⟩ p.globalId) ⟨[⟨6, 3, 0⟩], ⟨0, 3⟩⟩ ⟨[⟨6, 2, 0⟩], ⟨0, 2⟩⟩ >>=
        fun config ↦ pure (.scatterGather config) := fun p ↦ rfl
  have hconfig := exists_config_of_contract hrefines hboxes (by decide) (by decide) hbranch
  have hmatch := h .rankFour _ _ (by decide) (by decide) (by decide) (by decide) (by decide) hconfig
  have hdvd := (matches_of_contract hrefines (by decide) (by decide) hconfig
    fun p config hp ↦ ?_).mp hmatch
  · exact absurd hdvd (by decide)
  · rw [hbranch] at hp
    obtain ⟨config', hrun, hp⟩ := bind_eq_ok_iff.mp hp
    obtain rfl : config' = config := by simpa using hp
    exact hrun

end Zuku
