import Zuku.ReshardConfig
import Zuku.TileBounds

/-!
# Two computations of the rectangle of a tile

`MakeTileBox` and `ComputeTileBounds` both leave out a replication dimension.
`MakeTileBox` then reads the tile index at the position of the box and not at
that of the dimension, which is the same only as long as no dimension has been
left out.
-/

namespace Zuku

open Checked IndexedWrites MixedRadix

/-- For every shard, one rectangle is returned if and only if the other is. -/
def TileBoxAgrees [RealmBuild] (sharding : Sharding) : Prop :=
  ∀ shard < sharding.devices.size, ∃ index, computeTileIndex shard sharding = .ok index ∧
    ∀ rect, makeTileBox index sharding = .ok rect ↔ computeTileBounds shard sharding = .ok rect

/-- The intervals that the box of an index has. -/
def boxIntervals (sharding : Sharding) (index : List ℕ) : List (ℤ × ℤ) :=
  List.zipWith ShardingDim.interval sharding.realDims index

section

variable {sharding : Sharding}

/-! ## The dimensions of the box -/

theorem tileSize_pos_iff (h : sharding.Tileable) {dim : ShardingDim} (hdim : dim ∈ sharding.dims) :
    0 < dim.size / dim.sharding ↔ dim.isReplication = false := by
  have hsharding := h.sharding_pos dim hdim
  rw [← Bool.not_eq_true, isReplication_iff_lt h hdim, Nat.div_pos_iff]
  omega

/-- The box leaves a dimension out exactly when it is a replication dimension. -/
theorem makeTileBoxLoop_eq (dims : List ShardingDim) (index : List ℕ) (boxDim : ℕ)
    (rect : RealmShape) (hpos : ∀ dim ∈ dims, 1 ≤ dim.sharding)
    (hreal : ∀ dim ∈ dims, 0 < dim.size / dim.sharding ↔ dim.isReplication = false)
    (hlen : boxDim + (dims.filter fun dim ↦ !dim.isReplication).length ≤ index.length)
    (hrank : rect.bounds.length + (dims.filter fun dim ↦ !dim.isReplication).length ≤ rect.rank) :
    makeTileBoxLoop index boxDim dims rect =
      .ok ⟨rect.rank, rect.bounds ++ List.zipWith ShardingDim.interval
        (dims.filter fun dim ↦ !dim.isReplication) (index.drop boxDim)⟩ := by
  induction dims generalizing boxDim rect with
  | nil => simp [makeTileBoxLoop]
  | cons dim dims ih =>
      have hpos' : ∀ d ∈ dims, 1 ≤ d.sharding := fun d hd ↦ hpos d (List.mem_cons_of_mem _ hd)
      have hreal' := fun d hd ↦ hreal d (List.mem_cons_of_mem _ hd)
      have hdim := hreal dim List.mem_cons_self
      rw [makeTileBoxLoop, checkedDiv_of_pos (hpos dim List.mem_cons_self), ok_bind]
      cases hr : dim.isReplication with
      | true =>
          have hskip : ¬0 < dim.size / dim.sharding := by simp [hdim, hr]
          rw [if_neg hskip, List.filter_cons_of_neg (by simp [hr])]
          rw [List.filter_cons_of_neg (by simp [hr])] at hlen hrank
          exact ih boxDim rect hpos' hreal' hlen hrank
      | false =>
          rw [List.filter_cons_of_pos (by simp [hr]), List.length_cons] at hlen hrank
          have hk : boxDim < index.length := by omega
          have hwrite : rect.bounds.length < rect.rank := by omega
          rw [if_pos (hdim.mpr hr), vectorAt_of_getElem? (List.getElem?_eq_getElem hk), ok_bind,
            RealmShape.write, if_pos hwrite, ok_bind]
          have hrest (b : ℤ × ℤ) : (rect.bounds ++ [b]).length +
              (dims.filter fun dim ↦ !dim.isReplication).length ≤ rect.rank := by
            rw [List.length_append, List.length_singleton]
            omega
          rw [ih (boxDim + 1) _ hpos' hreal' (by omega) (hrest _),
            List.filter_cons_of_pos (by simp [hr]), List.drop_eq_getElem_cons hk,
            List.zipWith_cons_cons]
          simp [ShardingDim.interval, mul_comm]

theorem one_lt_replication_iff : 1 < sharding.replication ↔
    ∃ dim ∈ sharding.dims, dim.isReplication = true := by
  have hfactor : ∀ b ∈ (sharding.dims.filter ShardingDim.isReplication).map
      ShardingDim.sharding, 1 < b := by
    intro b hb
    obtain ⟨dim, hdim, rfl⟩ := List.mem_map.mp hb
    have hr := (List.mem_filter.mp hdim).2
    rw [ShardingDim.isReplication, Bool.and_eq_true, decide_eq_true_eq, decide_eq_true_eq] at hr
    exact hr.2
  unfold Sharding.replication
  constructor
  · intro hlt
    by_contra hnone
    push Not at hnone
    rw [List.filter_eq_nil_iff.mpr hnone] at hlt
    exact absurd hlt (lt_irrefl 1)
  · rintro ⟨dim, hdim, hr⟩
    have hmem := List.mem_map_of_mem (f := ShardingDim.sharding) (List.mem_filter.mpr ⟨hdim, hr⟩)
    apply (hfactor _ hmem).trans_le
    apply Nat.le_of_dvd
    · exact List.prod_pos fun b hb ↦ Nat.one_pos.trans (hfactor b hb)
    · exact List.dvd_prod hmem

/-- The box has as many dimensions as the real shape. -/
theorem numBoxDims_eq (h : sharding.Tileable) (hone : sharding.AtMostOneReplication)
    (htotal : (∀ dim ∈ sharding.dims, dim.isReplication = false) ∨ 1 < sharding.totalSharding) :
    (if sharding.isPartiallyReplicated then sharding.dims.length - 1 else sharding.dims.length) =
      sharding.realDims.length := by
  have hadd := length_realDims_add sharding.dims
  have hmul := totalSharding_mul_replication h
  unfold Sharding.AtMostOneReplication at hone
  simp only [Sharding.realDims, Sharding.isPartiallyReplicated, Bool.and_eq_true,
    decide_eq_true_eq, ← hmul]
  by_cases hrep : ∃ dim ∈ sharding.dims, dim.isReplication = true
  · obtain ⟨dim, hdim, hr⟩ := hrep
    have hpos : 0 < (sharding.dims.filter ShardingDim.isReplication).length :=
      List.length_pos_of_mem (List.mem_filter.mpr ⟨hdim, hr⟩)
    have htotal : 1 < sharding.totalSharding := by
      rcases htotal with hnone | htotal
      · rw [hnone dim hdim] at hr
        exact absurd hr Bool.false_ne_true
      · exact htotal
    have hmore := one_lt_replication_iff.mpr ⟨dim, hdim, hr⟩
    rw [if_pos ⟨htotal, lt_mul_of_one_lt_right (by omega) hmore⟩]
    omega
  · have hsingle : sharding.replication = 1 := by
      have hle : ¬1 < sharding.replication := fun hlt ↦ hrep (one_lt_replication_iff.mp hlt)
      push Not at hrep
      rw [Sharding.replication, List.filter_eq_nil_iff.mpr hrep]
      rfl
    push Not at hrep
    rw [hsingle, mul_one, if_neg (by omega)]
    rw [List.filter_eq_nil_iff.mpr hrep, List.length_nil] at hadd
    omega

theorem makeTileBox_eq [RealmBuild] (h : sharding.Tileable)
    (hone : sharding.AtMostOneReplication)
    (htotal : (∀ dim ∈ sharding.dims, dim.isReplication = false) ∨ 1 < sharding.totalSharding)
    (hreal : sharding.realDims ≠ []) {index : List ℕ} (hlen : index.length = sharding.dims.length)
    {rect : RealmShape} :
    makeTileBox index sharding = .ok rect ↔ SupportedRank sharding.realDims.length ∧
      rect = ⟨sharding.realDims.length, boxIntervals sharding index⟩ := by
  have hmax : max sharding.realDims.length 1 = sharding.realDims.length :=
    Nat.max_eq_left (List.length_pos_iff.mpr hreal)
  have hle : sharding.realDims.length ≤ index.length := hlen ▸ List.length_filter_le _ _
  have hloop := makeTileBoxLoop_eq sharding.dims index 0 ⟨sharding.realDims.length, []⟩
    h.sharding_pos (fun dim hdim ↦ tileSize_pos_iff h hdim) (by simpa [Sharding.realDims] using hle)
    (by simp [Sharding.realDims])
  rw [makeTileBox, numBoxDims_eq h hone htotal, bind_eq_ok_iff]
  simp only [selectRank_eq_ok_iff, hmax]
  constructor
  · rintro ⟨rank, ⟨hrank, rfl⟩, hrun⟩
    rw [hloop] at hrun
    exact ⟨hrank, (Except.ok.inj hrun).symm⟩
  · rintro ⟨hrank, rfl⟩
    exact ⟨_, ⟨hrank, rfl⟩, hloop⟩

theorem computeTileBounds_eq_ok_iff [RealmBuild] (h : sharding.Tileable)
    (hone : sharding.AtMostOneReplication) (hreal : sharding.realDims ≠ []) {shard : ℕ}
    (hshard : shard < sharding.devices.size) {rect : RealmShape} :
    computeTileBounds shard sharding = .ok rect ↔ SupportedRank sharding.realDims.length ∧
      rect = ⟨sharding.realDims.length,
        boxIntervals sharding (realIndex sharding.dims (sharding.tileIndex shard))⟩ := by
  have hbounds : sharding.tileBounds shard = ⟨sharding.realDims.length,
      boxIntervals sharding (realIndex sharding.dims (sharding.tileIndex shard))⟩ := by
    rw [Sharding.tileBounds, if_neg hreal, tileIntervals_eq_zipWith _ _ (by simp)]
    rfl
  rw [← hbounds]
  constructor
  · intro hrun
    have hrank := supportedRank_of_computeTileBounds hrun
    rw [numRealDims_eq h hone] at hrank
    rw [computeTileBounds_eq h hone hrank hshard] at hrun
    exact ⟨hrank, (Except.ok.inj hrun).symm⟩
  · rintro ⟨hrank, rfl⟩
    exact computeTileBounds_eq h hone hrank hshard

theorem realDims_ne_nil_of_totalSharding (htotal : 1 < sharding.totalSharding) :
    sharding.realDims ≠ [] := by
  have hloop (dims : List ShardingDim) (total : ℕ)
      (hall : ∀ dim ∈ dims, dim.isReplication = true) :
      dims.foldl (fun total dim ↦ if 1 < dim.size then total * dim.sharding else total) total =
        total := by
    induction dims generalizing total with
    | nil => rfl
    | cons dim dims ih =>
        have hr := hall dim List.mem_cons_self
        rw [ShardingDim.isReplication, Bool.and_eq_true, decide_eq_true_eq, decide_eq_true_eq] at hr
        rw [List.foldl_cons, if_neg (by omega)]
        exact ih total fun d hd ↦ hall d (List.mem_cons_of_mem _ hd)
  intro hnil
  rw [Sharding.realDims, List.filter_eq_nil_iff] at hnil
  rw [Sharding.totalSharding, hloop _ _ fun dim hdim ↦ by simpa using hnil dim hdim] at htotal
  exact absurd htotal (lt_irrefl 1)

/-! ## Positions in the index -/

theorem interval_injective {dim : ShardingDim} (hpos : 0 < dim.size / dim.sharding) {i j : ℕ}
    (h : dim.interval i = dim.interval j) : i = j := by
  have hstart : ((dim.size / dim.sharding : ℕ) : ℤ) * i =
      ((dim.size / dim.sharding : ℕ) : ℤ) * j := congrArg Prod.fst h
  have hne : ((dim.size / dim.sharding : ℕ) : ℤ) ≠ 0 := by exact_mod_cast hpos.ne'
  exact_mod_cast mul_left_cancel₀ hne hstart

/-- The intervals name the indices they are made of, as far as there are dimensions. -/
theorem zipWith_interval_inj {dims : List ShardingDim}
    (hpos : ∀ dim ∈ dims, 0 < dim.size / dim.sharding) {xs ys : List ℕ}
    (hxs : dims.length ≤ xs.length) (hys : ys.length = dims.length) :
    List.zipWith ShardingDim.interval dims xs = List.zipWith ShardingDim.interval dims ys ↔
      xs.take dims.length = ys := by
  induction dims generalizing xs ys with
  | nil => simpa [eq_comm] using hys
  | cons dim dims ih =>
      cases xs with
      | nil => simp at hxs
      | cons x xs =>
          cases ys with
          | nil => simp at hys
          | cons y ys =>
              have htail := ih (fun d hd ↦ hpos d (List.mem_cons_of_mem _ hd))
                (by simpa using hxs) (by simpa using hys : ys.length = dims.length)
              rw [List.zipWith_cons_cons, List.zipWith_cons_cons, List.length_cons,
                List.take_succ_cons, List.cons.injEq, List.cons.injEq, htail]
              have hhead : dim.interval x = dim.interval y ↔ x = y :=
                ⟨interval_injective (hpos dim List.mem_cons_self), congrArg _⟩
              rw [hhead]

theorem length_realIndex (dims : List ShardingDim) {index : List ℕ}
    (hlen : index.length = dims.length) :
    (realIndex dims index).length = (dims.filter fun dim ↦ !dim.isReplication).length := by
  induction dims generalizing index with
  | nil => rfl
  | cons dim dims ih =>
      cases index with
      | nil => simp at hlen
      | cons i index =>
          have hlen : index.length = dims.length := by simpa using hlen
          cases hr : dim.isReplication <;> simp [realIndex, hr, ih hlen]

theorem realIndex_eq_self (dims : List ShardingDim)
    (hnone : ∀ dim ∈ dims, dim.isReplication = false) {index : List ℕ}
    (hlen : index.length = dims.length) : realIndex dims index = index := by
  induction dims generalizing index with
  | nil =>
      rw [List.eq_nil_of_length_eq_zero hlen]
      rfl
  | cons dim dims ih =>
      cases index with
      | nil => simp at hlen
      | cons i index =>
          have hlen : index.length = dims.length := by simpa using hlen
          rw [realIndex, hnone dim List.mem_cons_self,
            ih (fun d hd ↦ hnone d (List.mem_cons_of_mem _ hd)) hlen]
          rfl

/-- Leaving out the last dimension at most cuts the index off at the end. -/
theorem take_eq_realIndex (dims : List ShardingDim)
    (hlast : ∀ dim ∈ dims.dropLast, dim.isReplication = false) {index : List ℕ}
    (hlen : index.length = dims.length) :
    index.take (dims.filter fun dim ↦ !dim.isReplication).length = realIndex dims index := by
  induction dims generalizing index with
  | nil => rfl
  | cons dim dims ih =>
      cases index with
      | nil => simp at hlen
      | cons i index =>
          have hlen : index.length = dims.length := by simpa using hlen
          cases dims with
          | nil =>
              rw [List.eq_nil_of_length_eq_zero hlen]
              cases hr : dim.isReplication <;> simp [realIndex, hr]
          | cons next dims =>
              have hr := hlast dim List.mem_cons_self
              rw [List.filter_cons_of_pos (by simp [hr]), List.length_cons, List.take_succ_cons,
                ih (fun d hd ↦ hlast d (List.mem_cons_of_mem _ hd)) hlen, realIndex, hr]
              rfl

/-- With a dimension after the replication dimension, the index one of the
replication dimension is mistaken for that of its successor. -/
theorem exists_take_ne_realIndex (dims : List ShardingDim)
    (hpos : ∀ dim ∈ dims, 1 ≤ dim.sharding)
    (hone : (dims.filter ShardingDim.isReplication).length ≤ 1)
    (hlast : ∃ dim ∈ dims.dropLast, dim.isReplication = true) :
    ∃ index, Digits (dims.map ShardingDim.sharding) index ∧
      index.take (dims.filter fun dim ↦ !dim.isReplication).length ≠ realIndex dims index := by
  induction dims with
  | nil => simp at hlast
  | cons dim dims ih =>
      have hpos' : ∀ d ∈ dims, 1 ≤ d.sharding := fun d hd ↦ hpos d (List.mem_cons_of_mem _ hd)
      have hne : dims ≠ [] := by
        rintro rfl
        simp at hlast
      cases hr : dim.isReplication with
      | false =>
          rw [List.filter_cons_of_neg (by simp [hr])] at hone
          obtain ⟨d, hd, hdr⟩ := hlast
          rw [List.dropLast_cons_of_ne_nil hne] at hd
          have hd : d ∈ dims.dropLast := by
            rcases List.mem_cons.mp hd with rfl | hd
            · rw [hr] at hdr
              exact absurd hdr Bool.false_ne_true
            · exact hd
          obtain ⟨index, hindex, hdiffer⟩ := ih hpos' hone ⟨d, hd, hdr⟩
          refine ⟨0 :: index, digits_cons.mpr ⟨hpos dim List.mem_cons_self, hindex⟩, ?_⟩
          rw [List.filter_cons_of_pos (by simp [hr]), List.length_cons, List.take_succ_cons,
            realIndex, hr]
          exact fun heq ↦ hdiffer (List.cons.inj heq).2
      | true =>
          rw [List.filter_cons_of_pos hr, List.length_cons] at hone
          have hnil := List.eq_nil_of_length_eq_zero (Nat.le_zero.mp (Nat.le_of_succ_le_succ hone))
          have hnone : ∀ d ∈ dims, d.isReplication = false := by
            simpa using List.filter_eq_nil_iff.mp hnil
          have hfilter : dims.filter (fun d ↦ !d.isReplication) = dims :=
            List.filter_eq_self.mpr fun d hd ↦ by simp [hnone d hd]
          have hfactor : 1 < dim.sharding := by
            rw [ShardingDim.isReplication, Bool.and_eq_true, decide_eq_true_eq,
              decide_eq_true_eq] at hr
            exact hr.2
          have hzeros : Digits (dims.map ShardingDim.sharding) (dims.map fun _ ↦ 0) := by
            rw [Digits, List.forall₂_map_left_iff, List.forall₂_map_right_iff, List.forall₂_same]
            exact hpos'
          refine ⟨1 :: dims.map fun _ ↦ 0, digits_cons.mpr ⟨hfactor, hzeros⟩, ?_⟩
          rw [List.filter_cons_of_neg (by simp [hr]), hfilter, realIndex, hr, if_pos rfl,
            realIndex_eq_self dims hnone (by simp)]
          obtain ⟨next, rest, rfl⟩ := List.exists_cons_of_ne_nil hne
          simp

end

/-- The two rectangles agree for every shard exactly when only the last
dimension may be replicated, or the build has no rectangle of the rank at all. -/
theorem tile_box_agrees_iff [RealmBuild] (sharding : Sharding) (h : sharding.Tileable)
    (hone : sharding.AtMostOneReplication) (htotal : 1 < sharding.totalSharding) :
    TileBoxAgrees sharding ↔ ¬SupportedRank sharding.realDims.length ∨
      ∀ dim ∈ sharding.dims.dropLast, dim.isReplication = false := by
  have hreal := realDims_ne_nil_of_totalSharding htotal
  have hpos : ∀ dim ∈ sharding.realDims, 0 < dim.size / dim.sharding := by
    intro dim hdim
    obtain ⟨hdim, hr⟩ := List.mem_filter.mp hdim
    exact (tileSize_pos_iff h hdim).mpr (by simpa using hr)
  have hindex (shard : ℕ) :
      boxIntervals sharding (sharding.tileIndex shard) =
        boxIntervals sharding (realIndex sharding.dims (sharding.tileIndex shard)) ↔
      (sharding.tileIndex shard).take sharding.realDims.length =
        realIndex sharding.dims (sharding.tileIndex shard) := by
    apply zipWith_interval_inj hpos
    · rw [Sharding.length_tileIndex]
      exact List.length_filter_le _ _
    · exact length_realIndex _ (by simp)
  constructor
  · intro hagrees
    by_contra hnot
    push Not at hnot
    obtain ⟨hrank, dim, hdim, hr⟩ := hnot
    obtain ⟨index, hdigits, hdiffer⟩ := exists_take_ne_realIndex sharding.dims h.sharding_pos hone
      ⟨dim, hdim, by simpa using hr⟩
    have hshard : sharding.tileShard index < sharding.devices.size :=
      h.devices_eq ▸ tileShard_lt h.bijective hdigits
    obtain ⟨index', hindex', hbox⟩ := hagrees _ hshard
    rw [h.computeTileIndex_eq] at hindex'
    obtain rfl := Except.ok.inj hindex'
    have hsame := (hbox _).mp ((makeTileBox_eq h hone (.inr htotal) hreal (by simp)).mpr
      ⟨hrank, rfl⟩)
    have hsame := ((computeTileBounds_eq_ok_iff h hone hreal hshard).mp hsame).2
    have hintervals := (hindex _).mp (congrArg RealmShape.bounds hsame)
    rw [tileIndex_tileShard h.bijective hdigits] at hintervals
    exact hdiffer hintervals
  · intro hcond shard hshard
    refine ⟨_, h.computeTileIndex_eq shard, fun rect ↦ ?_⟩
    rw [makeTileBox_eq h hone (.inr htotal) hreal (by simp),
      computeTileBounds_eq_ok_iff h hone hreal hshard]
    apply and_congr_right
    intro hrank
    have hlast := hcond.resolve_left (not_not.mpr hrank)
    rw [(hindex shard).mpr (take_eq_realIndex _ hlast (by simp))]

/-- Two copies of an array of two cut dimensions. -/
theorem tile_box_agrees_last :
    @TileBoxAgrees .rankFour ⟨[⟨8, 2, 1⟩, ⟨6, 3, 0⟩, ⟨1, 2, 2⟩], ⟨0, 12⟩⟩ := by
  let _ : RealmBuild := .rankFour
  exact (tile_box_agrees_iff ⟨[⟨8, 2, 1⟩, ⟨6, 3, 0⟩, ⟨1, 2, 2⟩], ⟨0, 12⟩⟩ (by decide) (by decide)
    (by decide)).mpr (Or.inr (by decide))

/-- With the replication dimension first, the box of shard 2 starts at the
fifth row, where the second copy has its number. -/
theorem not_tile_box_agrees_first :
    ¬ ∀ (_ : RealmBuild) (sharding : Sharding), sharding.Tileable →
      sharding.AtMostOneReplication → 1 < sharding.totalSharding → TileBoxAgrees sharding := by
  intro h
  obtain ⟨index, hindex, hbox⟩ := h .rankFour ⟨[⟨1, 2, 0⟩, ⟨8, 2, 1⟩], ⟨0, 4⟩⟩ (by decide)
    (by decide) (by decide) 2 (by decide)
  obtain rfl : [1, 0] = index := Except.ok.inj ((by decide : _ = _).trans hindex)
  have hsame := (hbox ⟨1, [(4, 7)]⟩).mp (by decide)
  exact absurd hsame (by decide)

end Zuku
