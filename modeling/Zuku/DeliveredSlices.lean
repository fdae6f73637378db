import Zuku.DeliveredTiles
import Zuku.DifferingDimension
import Zuku.SliceBounds

/-!
# Slices that are delivered

A scatter-gather between two shardings that differ in one factor, with at most a
trailing replication dimension.  When the sends and receives match, one of the
factors divides the other, and the slices of a tile of the coarser side are the
tiles of the finer side.
-/

namespace Zuku

open Checked MixedRadix

/-- Only the last dimension in storage order may be a replication dimension. -/
def Sharding.ReplicationLast (sharding : Sharding) : Prop :=
  ∀ dim ∈ sharding.dims.dropLast, dim.isReplication = false

instance (sharding : Sharding) : Decidable sharding.ReplicationLast :=
  inferInstanceAs (Decidable (∀ dim ∈ sharding.dims.dropLast, _))

/-- The rectangle of a tile index, at the position among the real dimensions. -/
def realBox (sharding : Sharding) (index : List ℕ) : RealmShape :=
  ⟨sharding.realDims.length, boxIntervals sharding index⟩

theorem zipWith_take_length {α β γ : Type} (f : α → β → γ) (xs : List α) (ys : List β) :
    List.zipWith f xs (ys.take xs.length) = List.zipWith f xs ys := by
  induction xs generalizing ys with
  | nil => rfl
  | cons x xs ih => cases ys <;> simp [ih]

section

variable {sharding : Sharding}

theorem contains_realBox_iff {index : List ℕ} (hlen : index.length = sharding.dims.length)
    (point : List ℤ) :
    (realBox sharding index).Contains point ↔
      List.Forall₂ (fun (v : ℤ) (b : ℤ × ℤ) ↦ b.1 ≤ v ∧ v ≤ b.2) point
        (List.zipWith ShardingDim.interval sharding.realDims index) := by
  have hle : sharding.realDims.length ≤ index.length := hlen ▸ List.length_filter_le _ _
  rw [realBox, RealmShape.Contains, and_iff_right]
  · rfl
  · simp [boxIntervals, hle]

theorem realBox_tileIndex (hlast : sharding.ReplicationLast) (hreal : sharding.realDims ≠ [])
    (s : ℕ) : realBox sharding (sharding.tileIndex s) = sharding.tileBounds s := by
  have hlength : (sharding.tileIndex s).length = sharding.dims.length := by simp
  have htake := take_eq_realIndex sharding.dims hlast hlength
  rw [Sharding.tileBounds, if_neg hreal, tileIntervals_eq_zipWith _ _ (by simp), ← htake,
    zipWith_take_length]
  rfl

/-- The replication dimension, if there is one, follows the real ones. -/
theorem realDims_eq_or (hlast : sharding.ReplicationLast) :
    sharding.dims = sharding.realDims ∨
      ∃ r, r.isReplication = true ∧ sharding.dims = sharding.realDims ++ [r] := by
  have hself (dims : List ShardingDim) (h : ∀ dim ∈ dims, dim.isReplication = false) :
      dims.filter (fun dim ↦ !dim.isReplication) = dims :=
    List.filter_eq_self.mpr fun dim hdim ↦ by simp [h dim hdim]
  rcases List.eq_nil_or_concat sharding.dims with hnil | ⟨init, r, hdims⟩
  · left
    rw [Sharding.realDims, hnil]
    rfl
  · rw [List.concat_eq_append] at hdims
    have hinit : ∀ dim ∈ init, dim.isReplication = false := by
      intro dim hdim
      apply hlast
      rw [hdims, List.dropLast_concat]
      exact hdim
    rw [Sharding.realDims, hdims, List.filter_append, hself init hinit]
    cases hr : r.isReplication with
    | false => exact Or.inl (by simp [hr])
    | true => exact Or.inr ⟨r, hr, by simp [hr]⟩

theorem realDims_of_eq {dims : List ShardingDim} (hdims : sharding.dims = dims)
    (h : ∀ dim ∈ dims, dim.isReplication = false) : sharding.realDims = dims := by
  rw [Sharding.realDims, hdims]
  exact List.filter_eq_self.mpr fun dim hdim ↦ by simp [h dim hdim]

theorem realDims_of_eq_append {dims : List ShardingDim} {r : ShardingDim}
    (hdims : sharding.dims = dims ++ [r]) (h : ∀ dim ∈ dims, dim.isReplication = false)
    (hr : r.isReplication = true) : sharding.realDims = dims := by
  rw [Sharding.realDims, hdims, List.filter_append,
    List.filter_eq_self.mpr fun dim hdim ↦ by simp [h dim hdim]]
  simp [hr]

theorem isReplication_of_mem_realDims {dim : ShardingDim} (h : dim ∈ sharding.realDims) :
    dim.isReplication = false := by
  simpa using (List.mem_filter.mp h).2

end

/-! ## The differing dimension among the real ones -/

/-- The differing dimension is cut on both sides, or is the replication
dimension of both. -/
inductive RecutReal (fine coarse : Sharding) (dim : ℕ) (x y : ShardingDim) : Prop where
  | cut : fine.realDims[dim]? = some x → coarse.realDims = fine.realDims.set dim y →
      RecutReal fine coarse dim x y
  | copies : fine.realDims.length ≤ dim → coarse.realDims = fine.realDims →
      RecutReal fine coarse dim x y

theorem recutReal_of_set {fine coarse : Sharding} {dim : ℕ} {x y : ShardingDim}
    (hdim : fine.dims[dim]? = some x) (hcoarse : coarse.dims = fine.dims.set dim y)
    (hlast : fine.ReplicationLast) (hsame : x.isReplication = y.isReplication) :
    RecutReal fine coarse dim x y := by
  have hset : ∀ d ∈ fine.realDims.set dim y, y.isReplication = false → d.isReplication = false := by
    intro d hd hy
    rcases List.mem_or_eq_of_mem_set hd with hd | rfl
    · exact isReplication_of_mem_realDims hd
    · exact hy
  rcases realDims_eq_or hlast with hdims | ⟨r, hr, hdims⟩
  · -- all dimensions are real
    have hx : fine.realDims[dim]? = some x := hdims ▸ hdim
    have hy : y.isReplication = false := by
      rw [← hsame]
      exact isReplication_of_mem_realDims (List.mem_of_getElem? hx)
    refine .cut hx (realDims_of_eq ?_ fun d hd ↦ hset d hd hy)
    rw [hcoarse, hdims]
  · have hx := hdim
    rw [hdims] at hx
    by_cases hlt : dim < fine.realDims.length
    · rw [List.getElem?_append_left hlt] at hx
      have hy : y.isReplication = false := by
        rw [← hsame]
        exact isReplication_of_mem_realDims (List.mem_of_getElem? hx)
      refine .cut hx (realDims_of_eq_append (r := r) ?_ (fun d hd ↦ hset d hd hy) hr)
      rw [hcoarse, hdims, List.set_append_left _ _ hlt]
    · have hge : fine.realDims.length ≤ dim := Nat.le_of_not_lt hlt
      rw [List.getElem?_append_right hge] at hx
      obtain ⟨hzero, rfl⟩ : dim - fine.realDims.length = 0 ∧ r = x := by
        cases hk : dim - fine.realDims.length with
        | zero => simpa [hk] using hx
        | succ k => simp [hk] at hx
      refine .copies hge (realDims_of_eq_append (r := y) ?_
        (fun d hd ↦ isReplication_of_mem_realDims hd) (hsame ▸ hr))
      rw [hcoarse, hdims, List.set_append_right _ _ hge, hzero]
      rfl

theorem eq_set_of_getElem? {α : Type} {xs ys : List α} (hlen : xs.length = ys.length) {i : ℕ}
    {y : α} (hy : ys[i]? = some y) (h : ∀ j ≠ i, xs[j]? = ys[j]?) : ys = xs.set i y := by
  obtain ⟨hlt, rfl⟩ := List.getElem?_eq_some_iff.mp hy
  apply List.ext_getElem?
  intro j
  by_cases hj : i = j
  · subst hj
    rw [hy, List.getElem?_set_self (hlen ▸ hlt)]
  · rw [List.getElem?_set_ne hj, h j (Ne.symm hj)]

namespace SameArray

variable [RealmBuild] {src dst : Sharding} (h : SameArray src dst)

include h

theorem symm : SameArray dst src :=
  ⟨h.dst_tileable, h.src_tileable, h.dst_one, h.src_one, h.sizes_eq.symm,
    h.length_realDims ▸ h.supported⟩

/-- With as many real dimensions on both sides, a dimension is replicated on
both sides or on neither. -/
theorem isReplication_eq {dim : ℕ} {x y : ShardingDim} (hx : src.dims[dim]? = some x)
    (hset : dst.dims = src.dims.set dim y) : x.isReplication = y.isReplication := by
  obtain ⟨hlt, hget⟩ := List.getElem?_eq_some_iff.mp hx
  have hcount := h.length_realDims
  rw [Sharding.realDims, Sharding.realDims, ← List.countP_eq_length_filter,
    ← List.countP_eq_length_filter, hset, List.countP_set hlt, hget] at hcount
  cases hxr : x.isReplication with
  | true => cases hyr : y.isReplication <;> simp [hxr, hyr] at hcount ⊢
  | false =>
      have hpos : 0 < src.dims.countP fun dim ↦ !dim.isReplication :=
        List.countP_pos_iff.mpr ⟨x, List.mem_of_getElem? hx, by simp [hxr]⟩
      cases hyr : y.isReplication with
      | false => rfl
      | true =>
          simp only [hxr, hyr, Bool.not_false, Bool.not_true, if_true, Bool.false_eq_true,
            if_false] at hcount
          omega

theorem size_eq {dim : ℕ} {x y : ShardingDim} (hreal : RecutReal src dst dim x y)
    (hx : src.dims[dim]? = some x) (hset : dst.dims = src.dims.set dim y)
    (hlast : src.ReplicationLast) : x.size = y.size := by
  cases hreal with
  | cut hdim hdims =>
      have hsizes := congrArg (·[dim]?) h.sizes_eq
      obtain ⟨hlt, hget⟩ := List.getElem?_eq_some_iff.mp hdim
      simpa [hdims, hget, hlt] using hsizes
  | copies hge hdims =>
      have hxr : x.isReplication = true := by
        by_contra hxr
        rw [Bool.not_eq_true] at hxr
        rcases realDims_eq_or hlast with hall | ⟨r, hr, hall⟩ <;> rw [hall] at hx
        · rw [List.getElem?_eq_none hge] at hx
          cases hx
        · rw [List.getElem?_append_right hge] at hx
          obtain rfl := List.mem_singleton.mp (List.mem_of_getElem? hx)
          rw [hr] at hxr
          cases hxr
      have hyr := h.isReplication_eq hx hset
      rw [hxr] at hyr
      have hone {dim : ShardingDim} (hdim : dim.isReplication = true) : dim.size = 1 := by
        rw [ShardingDim.isReplication, Bool.and_eq_true, decide_eq_true_eq] at hdim
        exact hdim.1
      rw [hone hxr, hone hyr.symm]

/-- The dimension that the planner counts. -/
theorem exists_recut (hlength : src.dims.length = dst.dims.length) (hlast : src.ReplicationLast)
    {last : Option ℕ} (hone : differingDims (src.dims.zip dst.dims) 0 (0, none) = (1, last)) :
    ∃ dim x y, last = some dim ∧ Recut src dst dim x y ∧ RecutReal src dst dim x y := by
  obtain ⟨dim, x, y, hdim, hx, hy, hne, hsame⟩ := exists_differing_dim hlength hone
  have hset := eq_set_of_getElem? hlength hy hsame
  have hreal := recutReal_of_set hx hset hlast (h.isReplication_eq hx hset)
  have hsize := h.size_eq hreal hx hset hlast
  have hpermutation := congrArg (·[dim]?)
    (permutation_eq h.src_tileable.bijective h.dst_tileable.bijective hlength hsame)
  simp only [Sharding.permutations, List.getElem?_map, hx, hy, Option.map_some,
    Option.some.injEq] at hpermutation
  refine ⟨dim, x, y, hdim, ⟨hx, hset, hsize, hpermutation, fun hsharding ↦ hne ?_⟩, hreal⟩
  cases x
  cases y
  simp_all

end SameArray

/-! ## The sharding of the real dimensions -/

theorem totalSharding_eq_prod {sharding : Sharding} (h : sharding.Tileable) :
    sharding.totalSharding = (sharding.realDims.map ShardingDim.sharding).prod := by
  have hloop (dims : List ShardingDim) (total : ℕ) (hmem : ∀ dim ∈ dims, dim ∈ sharding.dims) :
      dims.foldl (fun total dim ↦ if 1 < dim.size then total * dim.sharding else total) total =
        total * ((dims.filter fun dim ↦ !dim.isReplication).map ShardingDim.sharding).prod := by
    induction dims generalizing total with
    | nil => simp
    | cons dim dims ih =>
        have hdim := hmem dim List.mem_cons_self
        have hpos := h.sharding_pos dim hdim
        rw [List.foldl_cons, ih _ fun d hd ↦ hmem d (List.mem_cons_of_mem _ hd)]
        cases hr : dim.isReplication with
        | true =>
            rw [List.filter_cons_of_neg (by simp [hr])]
            rw [ShardingDim.isReplication, Bool.and_eq_true, decide_eq_true_eq] at hr
            rw [if_neg (by omega)]
        | false =>
            rw [List.filter_cons_of_pos (by simp [hr]), List.map_cons, List.prod_cons, ← mul_assoc]
            have hsize := h.size_pos dim hdim
            rw [ShardingDim.isReplication, Bool.and_eq_false_iff, decide_eq_false_iff_not,
              decide_eq_false_iff_not] at hr
            split
            · rfl
            · have hone : dim.sharding = 1 := by omega
              rw [hone, mul_one]
  rw [Sharding.totalSharding, hloop _ _ fun _ hdim ↦ hdim, one_mul, Sharding.realDims]

theorem totalSharding_pos {sharding : Sharding} (h : sharding.Tileable) :
    0 < sharding.totalSharding := by
  rw [totalSharding_eq_prod h]
  apply List.prod_pos
  intro factor hfactor
  obtain ⟨dim, hdim, rfl⟩ := List.mem_map.mp hfactor
  exact h.sharding_pos dim (List.mem_of_mem_filter hdim)

/-- The finer side is cut, unless both sides are replicated. -/
theorem one_lt_totalSharding {fine coarse : Sharding} {dim : ℕ} {x y : ShardingDim}
    (hfine : fine.Tileable) (hcoarse : coarse.Tileable) (hreal : RecutReal fine coarse dim x y)
    (hy : 1 ≤ y.sharding) (hlt : y.sharding < x.sharding)
    (hnot : ¬(fine.isReplicated = true ∧ coarse.isReplicated = true)) :
    1 < fine.totalSharding := by
  have hpos := totalSharding_pos hfine
  cases hreal with
  | cut hdim _ =>
      have hmem : x.sharding ∈ fine.realDims.map ShardingDim.sharding :=
        List.mem_map_of_mem (List.mem_of_getElem? hdim)
      have hdvd : x.sharding ∣ fine.totalSharding := by
        rw [totalSharding_eq_prod hfine]
        exact List.dvd_prod hmem
      have hle := Nat.le_of_dvd hpos hdvd
      omega
  | copies _ hdims =>
      have htotal : coarse.totalSharding = fine.totalSharding := by
        rw [totalSharding_eq_prod hfine, totalSharding_eq_prod hcoarse, hdims]
      by_contra hle
      have hone : fine.totalSharding = 1 := by omega
      exact hnot ⟨decide_eq_true hone, decide_eq_true (htotal.trans hone)⟩

/-! ## Both sides of a scatter-gather -/

theorem take_unfoldDigit {dim q k n : ℕ} (hdim : dim < n) (index : List ℕ) :
    (unfoldDigit dim q k index).take n = unfoldDigit dim q k (index.take n) := by
  rw [unfoldDigit, unfoldDigit, List.take_set, List.getD_eq_getElem?_getD,
    List.getD_eq_getElem?_getD, List.getElem?_take_of_lt hdim]

/-- A tile of the coarser side is covered by those of the finer side whose index
it multiplies out to. -/
theorem contains_realBox_unfold {fine coarse : Sharding} {dim q : ℕ} {x y : ShardingDim}
    (hfine : fine.Tileable) (h : Recut fine coarse dim x y) (hreal : RecutReal fine coarse dim x y)
    (hq : 0 < q) (hfactor : x.sharding = y.sharding * q) {index : List ℕ}
    (hlen : index.length = fine.dims.length) (point : List ℤ) :
    (realBox coarse index).Contains point ↔
      ∃ k < q, (realBox fine (unfoldDigit dim q k index)).Contains point := by
  have hunfold (k : ℕ) : (unfoldDigit dim q k index).length = fine.dims.length := by simp [hlen]
  have hle : fine.realDims.length ≤ index.length := hlen ▸ List.length_filter_le _ _
  rw [contains_realBox_iff (hlen.trans h.length_eq.symm)]
  simp only [contains_realBox_iff (hunfold _)]
  cases hreal with
  | cut hdim hdims =>
      obtain ⟨hlt, -⟩ := List.getElem?_eq_some_iff.mp hdim
      have hmem := List.mem_of_mem_filter (List.mem_of_getElem? hdim)
      have hdvd := dvd_of_not_isReplication hfine hmem
        (isReplication_of_mem_realDims (List.mem_of_getElem? hdim))
      have hlength : (index.take fine.realDims.length).length = fine.realDims.length := by
        simp [hle]
      have hiff := forall₂_interval_recut_iff h.same_size hfactor hdvd
        (extent_pos (hfine.size_pos x hmem) hdvd) hq fine.realDims hdim hlength point
      rw [hdims, ← zipWith_take_length, List.length_set, hiff]
      simp only [← take_unfoldDigit hlt, zipWith_take_length]
  | copies hge hdims =>
      -- the digit of the copy is not part of the rectangle
      have hcopy (k : ℕ) : List.zipWith ShardingDim.interval fine.realDims
          (unfoldDigit dim q k index) =
          List.zipWith ShardingDim.interval fine.realDims index := by
        rw [← zipWith_take_length, unfoldDigit, List.take_set_of_le hge, zipWith_take_length]
      simp only [hcopy, hdims]
      refine ⟨fun hpoint ↦ ⟨0, hq, hpoint⟩, ?_⟩
      rintro ⟨-, -, hpoint⟩
      exact hpoint

/-- The side with the larger factor of the differing dimension. -/
structure FinerThan [RealmBuild] (fine coarse : Sharding) (dim : ℕ) (x y : ShardingDim) :
    Prop where
  same : SameArray fine coarse
  recut : Recut fine coarse dim x y
  real : RecutReal fine coarse dim x y
  last_fine : fine.ReplicationLast
  last_coarse : coarse.ReplicationLast
  lt : y.sharding < x.sharding
  total : 1 < fine.totalSharding

namespace FinerThan

variable [RealmBuild] {fine coarse : Sharding} {dim : ℕ} {x y : ShardingDim}
  (h : FinerThan fine coarse dim x y)

include h

theorem factor_pos : 0 < y.sharding :=
  h.same.dst_tileable.sharding_pos y (List.mem_of_getElem? h.recut.symm.src_dim)

theorem quotient_pos : 0 < x.sharding / y.sharding := Nat.div_pos h.lt.le h.factor_pos

theorem realDims_ne_nil : fine.realDims ≠ [] ∧ coarse.realDims ≠ [] := by
  have hfine := realDims_ne_nil_of_totalSharding h.total
  refine ⟨hfine, fun hnil ↦ hfine ?_⟩
  have hlen := h.same.length_realDims
  rw [hnil, List.length_nil] at hlen
  exact List.eq_nil_of_length_eq_zero hlen.symm

theorem makeTileBox_eq {index : List ℕ} (hlen : index.length = fine.dims.length) :
    makeTileBox index fine = .ok (realBox fine index) :=
  (Zuku.makeTileBox_eq h.same.src_tileable h.same.src_one (.inr h.total) h.realDims_ne_nil.1
    hlen).mpr ⟨h.same.supported, rfl⟩

/-- The slices of a shard of the coarser side. -/
def slices (fine coarse : Sharding) (dim q c : ℕ) : List (ℕ × RealmShape) :=
  (List.range q).map fun k ↦ (encode fine.factors (unfoldDigit dim q k (coarse.tileIndex c)),
    realBox fine (unfoldDigit dim q k (coarse.tileIndex c)))

theorem foldedSlice_eq {q : ℕ} (hq : 0 < q) (f : ℕ) :
    foldedSlice dim q f fine coarse =
      .ok (encode coarse.factors (foldDigit dim q (fine.tileIndex f)), fine.tileBounds f) := by
  obtain ⟨-, hdim⟩ := h.recut.dims_ne_nil
  rw [← realBox_tileIndex h.last_fine h.realDims_ne_nil.1]
  exact foldedSlice_eq_ok h.same.src_tileable.bijective h.same.src_tileable.sharding_pos
    h.same.src_tileable.factors_fit h.recut.length_eq hdim hq (h.makeTileBox_eq (by simp))

theorem unfoldedSlices_eq (q c : ℕ) :
    unfoldedSlices dim q c fine coarse = .ok (slices fine coarse dim q c) := by
  obtain ⟨-, hdim⟩ := h.recut.dims_ne_nil
  apply unfoldedSlices_eq_ok h.same.dst_tileable.bijective h.same.dst_tileable.sharding_pos
    h.same.dst_tileable.factors_fit h.recut.length_eq hdim
  intro k _
  exact h.makeTileBox_eq (by simp [h.recut.length_eq])

theorem contains_tileBounds_iff {q : ℕ} (hq : 0 < q) (hfactor : x.sharding = y.sharding * q)
    (c : ℕ) (point : List ℤ) :
    (coarse.tileBounds c).Contains point ↔
      ∃ slice ∈ slices fine coarse dim q c, slice.2.Contains point := by
  rw [← realBox_tileIndex h.last_coarse h.realDims_ne_nil.2,
    contains_realBox_unfold h.same.src_tileable h.recut h.real hq hfactor
      (by simp [h.recut.length_eq])]
  simp [slices]

/-- As many slices on both sides mean that the factors divide. -/
theorem factor_eq_of_card {q : ℕ} (hcard : fine.devices.size = coarse.devices.size * q) :
    x.sharding = y.sharding * q := by
  have hpos := devices_pos h.same.dst_tileable.sharding_pos h.same.dst_tileable.devices_eq
  obtain ⟨hx, hset⟩ := factors_set h.recut
  obtain ⟨hlt, hget⟩ := List.getElem?_eq_some_iff.mp hx
  have hprod : coarse.factors.prod * x.sharding = fine.factors.prod * y.sharding := by
    have hself : fine.factors = fine.factors.set dim x.sharding := by
      rw [← hget, List.set_getElem_self]
    rw [hset, hself, List.set_set, List.prod_set, List.prod_set, if_pos hlt, if_pos hlt]
    ring
  rw [h.same.src_tileable.devices_eq, h.same.dst_tileable.devices_eq, hcard] at hprod
  apply Nat.eq_of_mul_eq_mul_left hpos
  rw [hprod]
  ring

end FinerThan

/-! ## All processors -/

section

variable {src dst : Sharding}

theorem ite_hasTile_elim (p : Processor) (sharding : Sharding) (slices : ℕ → List SliceConfig) :
    (if hasTile p sharding then
      scatterGatherCalls ((sharding.devices.shardId p.globalId).elim [] slices) else []) =
      (sharding.devices.shardId p.globalId).elim [] fun shard ↦
        scatterGatherCalls (slices shard) := by
  rw [hasTile_eq_isSome]
  cases sharding.devices.shardId p.globalId <;> rfl

/-- Slices are delivered when those that are sent lie in the tile of the sender
and those that a shard receives make up its tile. -/
theorem delivers_of_slices {sends receives : ℕ → List SliceConfig}
    (hmatched : ((List.range src.devices.size).flatMap fun s ↦ scatterGatherCalls (sends s)).Perm
      ((List.range dst.devices.size).flatMap fun t ↦ scatterGatherCalls (receives t)))
    (hsend : ∀ s < src.devices.size, ∀ slice ∈ sends s, slice.srcShard = s ∧
      ∀ point, slice.bounds.Contains point → (src.tileBounds s).Contains point)
    (hreceive : ∀ t < dst.devices.size, ∀ slice ∈ receives t, slice.dstShard = t)
    (hcovers : ∀ t < dst.devices.size, ∀ point, (dst.tileBounds t).Contains point ↔
      ∃ slice ∈ receives t, slice.bounds.Contains point) :
    Delivers src dst ((List.range dst.devices.size).flatMap fun t ↦
      scatterGatherCalls (receives t)) := by
  have hmem {slices : List SliceConfig} {call : ReshardCall}
      (hcall : call ∈ scatterGatherCalls slices) :
      ∃ slice ∈ slices, call = ⟨slice.srcShard, slice.dstShard, slice.bounds, false⟩ := by
    obtain ⟨slice, hslice, rfl⟩ := List.mem_map.mp hcall
    exact ⟨slice, hslice, rfl⟩
  apply delivers_of_receives
  · intro t ht call hcall
    obtain ⟨slice, hslice, rfl⟩ := hmem hcall
    exact hreceive t ht slice hslice
  · intro t ht call hcall
    -- the send that matches tells where the slice lies
    have hsent := hmatched.mem_iff.mpr
      (List.mem_flatMap.mpr ⟨t, List.mem_range.mpr ht, hcall⟩)
    obtain ⟨s, hs, hsent⟩ := List.mem_flatMap.mp hsent
    obtain ⟨slice, hslice, rfl⟩ := hmem hsent
    have hs := List.mem_range.mp hs
    obtain ⟨hown, hinside⟩ := hsend s hs slice hslice
    rw [← hown] at hs hinside
    exact ⟨hs, ArraySide.noConfusion, hinside⟩
  · intro t ht point
    rw [hcovers t ht]
    constructor
    · rintro ⟨slice, hslice, hpoint⟩
      exact ⟨_, List.mem_map_of_mem hslice, hpoint⟩
    · rintro ⟨call, hcall, hpoint⟩
      obtain ⟨slice, hslice, rfl⟩ := hmem hcall
      exact ⟨slice, hslice, hpoint⟩
  · apply inTreeOrder_of_fromSource
    intro call hcall
    obtain ⟨t, -, hcall⟩ := List.mem_flatMap.mp hcall
    obtain ⟨slice, -, rfl⟩ := hmem hcall
    rfl

theorem length_flatMap_slices {n k : ℕ} {slices : ℕ → List SliceConfig}
    (h : ∀ s < n, (slices s).length = k) :
    ((List.range n).flatMap fun s ↦ scatterGatherCalls (slices s)).length = n * k := by
  rw [List.length_flatMap, List.map_congr_left (g := fun _ ↦ k) fun s hs ↦ by
    rw [scatterGatherCalls, List.length_map, h s (List.mem_range.mp hs)]]
  simp

variable [RealmBuild] {machine : Machine} {calls : List ReshardCalls} {dim : ℕ}
  {x y : ShardingDim}

/-- The calls of a processor whose slices are those of its shards. -/
theorem calls_of_slices {sends receives : ℕ → List SliceConfig} {p : Processor}
    (hplan : determineShardingConfig p src dst = (do
      let config ← getScatterGatherConfig dim (src.devices.shardId p.globalId)
        (dst.devices.shardId p.globalId) src dst
      pure (.scatterGather config)))
    (hconfig : getScatterGatherConfig dim (src.devices.shardId p.globalId)
        (dst.devices.shardId p.globalId) src dst =
      .ok ⟨(src.devices.shardId p.globalId).elim [] sends,
        (dst.devices.shardId p.globalId).elim [] receives⟩) :
    reshard p src dst =
      .ok ⟨(src.devices.shardId p.globalId).elim [] fun s ↦ scatterGatherCalls (sends s),
        (dst.devices.shardId p.globalId).elim [] fun t ↦ scatterGatherCalls (receives t)⟩ := by
  rw [reshard, hplan, hconfig]
  simp only [ok_bind, pure_eq_ok, reshardCalls, reshardScatterGather, ite_hasTile_elim]

/-- The source is the finer side. -/
theorem FinerThan.delivers_contract (h : FinerThan src dst dim x y)
    (hsrc : machine.Hosts src.devices) (hdst : machine.Hosts dst.devices)
    (hrun : machine.reshard src dst = .ok calls)
    (hmatched : (calls.flatMap ReshardCalls.sends).Perm (calls.flatMap ReshardCalls.receives))
    (hplan : ∀ p, determineShardingConfig p src dst = (do
      let config ← getScatterGatherConfig dim (src.devices.shardId p.globalId)
        (dst.devices.shardId p.globalId) src dst
      pure (.scatterGather config))) :
    Delivers src dst (calls.flatMap ReshardCalls.receives) := by
  have hq := h.quotient_pos
  have hcalls (p : Processor) := calls_of_slices (hplan p)
    (getScatterGatherConfig_of_lt _ _ h.recut.src_dim h.recut.symm.src_dim h.factor_pos h.lt
      (fun s _ ↦ h.foldedSlice_eq hq s) fun t _ ↦ h.unfoldedSlices_eq _ t)
  have hsends := @Machine.flatMap_of_run src dst _ machine calls hrun _ hsrc ReshardCalls.sends _
    fun p c hc ↦ by rw [← Except.ok.inj ((hcalls p).symm.trans hc)]
  have hreceives := @Machine.flatMap_of_run src dst _ machine calls hrun _ hdst
    ReshardCalls.receives _ fun p c hc ↦ by rw [← Except.ok.inj ((hcalls p).symm.trans hc)]
  rw [hsends, hreceives] at hmatched
  rw [hreceives]
  have hcard := hmatched.length_eq
  rw [length_flatMap_slices (k := 1) fun _ _ ↦ rfl,
    length_flatMap_slices (k := x.sharding / y.sharding) fun _ _ ↦ by simp [slices], mul_one]
    at hcard
  have hfactor := h.factor_eq_of_card hcard
  apply delivers_of_slices hmatched
  · intro s _ slice hslice
    rw [List.mem_singleton.mp hslice]
    exact ⟨rfl, fun _ hpoint ↦ hpoint⟩
  · intro t _ slice hslice
    obtain ⟨part, -, rfl⟩ := List.mem_map.mp hslice
    rfl
  · intro t _ point
    rw [h.contains_tileBounds_iff hq hfactor]
    simp

/-- The destination is the finer side. -/
theorem FinerThan.delivers_expand (h : FinerThan dst src dim x y)
    (hsrc : machine.Hosts src.devices) (hdst : machine.Hosts dst.devices)
    (hrun : machine.reshard src dst = .ok calls)
    (hmatched : (calls.flatMap ReshardCalls.sends).Perm (calls.flatMap ReshardCalls.receives))
    (hplan : ∀ p, determineShardingConfig p src dst = (do
      let config ← getScatterGatherConfig dim (src.devices.shardId p.globalId)
        (dst.devices.shardId p.globalId) src dst
      pure (.scatterGather config))) :
    Delivers src dst (calls.flatMap ReshardCalls.receives) := by
  have hq := h.quotient_pos
  have hcalls (p : Processor) := calls_of_slices (hplan p)
    (getScatterGatherConfig_of_gt _ _ h.recut.symm.src_dim h.recut.src_dim h.factor_pos h.lt
      (fun t _ ↦ h.foldedSlice_eq hq t) fun s _ ↦ h.unfoldedSlices_eq _ s)
  have hsends := @Machine.flatMap_of_run src dst _ machine calls hrun _ hsrc ReshardCalls.sends _
    fun p c hc ↦ by rw [← Except.ok.inj ((hcalls p).symm.trans hc)]
  have hreceives := @Machine.flatMap_of_run src dst _ machine calls hrun _ hdst
    ReshardCalls.receives _ fun p c hc ↦ by rw [← Except.ok.inj ((hcalls p).symm.trans hc)]
  rw [hsends, hreceives] at hmatched
  rw [hreceives]
  have hcard := hmatched.length_eq
  rw [length_flatMap_slices (k := x.sharding / y.sharding) fun _ _ ↦ by simp [slices],
    length_flatMap_slices (k := 1) fun _ _ ↦ rfl, mul_one] at hcard
  have hfactor := h.factor_eq_of_card hcard.symm
  apply delivers_of_slices hmatched
  · intro s _ slice hslice
    obtain ⟨part, hpart, rfl⟩ := List.mem_map.mp hslice
    exact ⟨rfl, fun point hpoint ↦
      (h.contains_tileBounds_iff hq hfactor s point).mpr ⟨part, hpart, hpoint⟩⟩
  · intro t _ slice hslice
    rw [List.mem_singleton.mp hslice]
  · intro t _ point
    simp

end

end Zuku
