import Zuku.TileDecomposition

/-!
# Creating a sharded array

`ShardedArray::Create` compares the product of the sharding factors with the
number of devices and computes the tile of one shard.  The tiles of all shards
are safe to compute and cover the array when, in addition, the product does not
overflow, the permutation fields are a permutation, every dimension is cut
evenly or replicated, and no two dimensions are replicated.
-/

namespace Zuku

open Checked IndexedWrites MixedRadix

structure ShardedShape where
  type : SupportedType
  sharding : Sharding
  deriving DecidableEq, Repr

structure TileShape where
  type : SupportedType
  dims : List ℕ
  bounds : RealmShape
  deriving DecidableEq, Repr

namespace ShardedArray

/-- The message goes on with the sharding. -/
def checkTotalSharding (sharding : Sharding) : Exec Unit := do
  let totalShards ← checkedProd sharding.factors
  if totalShards ≠ sharding.devices.size then
    throw (.runtimeError ("sharding has total sharding = " ++ toString totalShards ++
      " that differs from number of devices in mesh: "))
  else pure ()

def tiledDims : List ShardingDim → Exec (List ℕ)
  | [] => pure []
  | dim :: dims =>
      if dim.sharding ≤ dim.size then do
        let tileSize ← checkedDiv dim.size dim.sharding
        let rest ← tiledDims dims
        pure (tileSize :: rest)
      else tiledDims dims

/-- The shape of the tile of this processor.  Without a shard id there is no
local shard. -/
def create [RealmBuild] (p : Processor) (shardId : Option ℕ) (shape : ShardedShape) :
    Exec (Option TileShape) := do
  checkTotalSharding shape.sharding
  match shardId.or (shape.sharding.devices.shardId p.globalId) with
  | none => pure none
  | some shardId => do
      let dims ← tiledDims shape.sharding.dims
      let bounds ← computeTileBounds shardId shape.sharding
      pure (some ⟨shape.type, dims, bounds⟩)

end ShardedArray

/-- Every shard has a rectangle, and together they hold every element of the array. -/
def TilesCover [RealmBuild] (sharding : Sharding) : Prop :=
  ∃ tiles : ℕ → RealmShape,
    (∀ shard < sharding.devices.size, computeTileBounds shard sharding = .ok (tiles shard)) ∧
    ∀ point, sharding.arrayShape.Contains point →
      ∃ shard < sharding.devices.size, (tiles shard).Contains point

/-- There are shards, and the array is rejected with the message about its rank
on all of them. -/
def RankRejected [RealmBuild] (sharding : Sharding) : Prop :=
  0 < sharding.devices.size ∧
    ∀ shard < sharding.devices.size, computeTileBounds shard sharding = .error (.runtimeError
      ("do not support arrays with " ++ toString sharding.numRealDims ++ " dimensions"))

/-- The index of every shard is computed without a fault, and either the array
is rejected for its rank or the tiles cover it. -/
def SafeTiles [RealmBuild] (sharding : Sharding) : Prop :=
  (∀ shard < sharding.devices.size, ∃ index, computeTileIndex shard sharding = .ok index) ∧
    (RankRejected sharding ∨ TilesCover sharding)

section

variable {sharding : Sharding}

theorem checkTotalSharding_eq_ok_iff (hpos : ∀ dim ∈ sharding.dims, 1 ≤ dim.sharding) :
    ShardedArray.checkTotalSharding sharding = .ok () ↔
      sharding.factors.prod = sharding.devices.size := by
  rw [ShardedArray.checkTotalSharding]
  constructor
  · intro h
    obtain ⟨total, htotal, h⟩ := bind_eq_ok_iff.mp h
    obtain ⟨rfl, -⟩ := checkedProd_eq_ok htotal
    split at h
    case isTrue => cases h
    case isFalse heq => exact not_not.mp heq
  · intro h
    rw [checkedProd_factors hpos (factors_fit h), ok_bind, if_neg (not_not.mpr h), pure_eq_ok]

/-- The check lets a product pass that overflows. -/
theorem factors_prod_of_not_rejected (hpos : ∀ dim ∈ sharding.dims, 1 ≤ dim.sharding)
    (hcheck : ∀ what, ShardedArray.checkTotalSharding sharding ≠ .error (.runtimeError what))
    (hfits : sharding.factors.prod < int64Bound) :
    sharding.factors.prod = sharding.devices.size := by
  by_contra hne
  apply hcheck
  rw [ShardedArray.checkTotalSharding, checkedProd_factors hpos hfits, ok_bind, if_pos hne]
  rfl

/-! ## The permutation fields -/

theorem permutation_lt_of_unpermute {dims : List ShardingDim} {pDim : ℕ}
    {shardExtents permutation : List ℕ} {out : List ℕ × List ℕ}
    (h : unpermute dims pDim shardExtents permutation = .ok out) :
    ∀ dim ∈ dims, dim.permutation < shardExtents.length := by
  induction dims generalizing pDim shardExtents permutation with
  | nil => simp
  | cons dim dims ih =>
      rw [unpermute] at h
      obtain ⟨extents, hextents, h⟩ := bind_eq_ok_iff.mp h
      obtain ⟨positions, -, h⟩ := bind_eq_ok_iff.mp h
      obtain ⟨hlt, rfl⟩ := vectorSet_eq_ok_iff.mp hextents
      intro d hd
      rcases List.mem_cons.mp hd with rfl | hd
      · exact hlt
      · simpa using ih h d hd

/-- A factor of zero, which an unwritten position has, ends the division of the
strides. -/
theorem prod_pos_of_splitIndex {extents positions : List ℕ} {shard : ℕ} {zeros index : List ℕ}
    (hlen : positions.length = extents.length) (hne : extents ≠ [])
    (h : splitIndex (extents.zip positions) extents.prod shard zeros = .ok index) :
    0 < extents.prod := by
  obtain ⟨b, bs, rfl⟩ := List.exists_cons_of_ne_nil hne
  obtain ⟨p, ps, rfl⟩ := List.exists_cons_of_length_eq_add_one hlen
  rw [List.zip_cons_cons, splitIndex] at h
  obtain ⟨stride, hstride, h⟩ := bind_eq_ok_iff.mp h
  obtain ⟨digit, hdigit, -⟩ := bind_eq_ok_iff.mp h
  obtain ⟨hb, rfl⟩ := checkedDiv_eq_ok_iff.mp hstride
  have hpos := (checkedDiv_eq_ok_iff.mp hdigit).1
  rw [List.prod_cons, Nat.mul_div_cancel_left _ hb] at hpos
  rw [List.prod_cons]
  exact Nat.mul_pos hb hpos

theorem covers_of_forall_mem {n : ℕ} {ps : List ℕ} (hlen : ps.length = n)
    (hmem : ∀ k < n, k ∈ ps) : Covers n ps := by
  have hsub : (List.range n).Subperm ps :=
    List.nodup_range.subperm fun k hk ↦ hmem k (List.mem_range.mp hk)
  exact (hsub.perm_of_length_le (by simp [hlen])).symm

/-- A tile index is computed only when every position is written. -/
theorem covers_of_computeTileIndex {shard : ℕ} {index : List ℕ}
    (h : computeTileIndex shard sharding = .ok index) :
    Covers sharding.dims.length sharding.permutations := by
  unfold computeTileIndex at h
  obtain ⟨⟨extents, positions⟩, hunpermute, h⟩ := bind_eq_ok_iff.mp h
  obtain ⟨stride, hstride, hsplit⟩ := bind_eq_ok_iff.mp h
  have hlt := permutation_lt_of_unpermute hunpermute
  rw [unpermute_eq _ _ _ _ rfl hlt] at hunpermute
  obtain ⟨rfl, rfl⟩ := Prod.mk.inj (Except.ok.inj hunpermute)
  obtain ⟨rfl, -⟩ := checkedProd_eq_ok hstride
  apply covers_of_forall_mem (by simp)
  intro k hk
  by_contra hnot
  have hnil : sharding.dims ≠ [] := List.ne_nil_of_length_pos (Nat.zero_lt_of_lt hk)
  have hpos := prod_pos_of_splitIndex (by simp) (by simpa [← List.length_eq_zero_iff] using hnil)
    hsplit
  have hunwritten : (writeAll (List.replicate sharding.dims.length 0)
      ((sharding.dims.map ShardingDim.permutation).zip
        (sharding.dims.map ShardingDim.sharding)))[k]? = some 0 := by
    rw [getElem?_writeAll_of_notMem]
    · rw [List.getElem?_replicate, if_pos hk]
    · rw [List.map_fst_zip (by simp)]
      exact hnot
  exact hpos.ne' (List.prod_eq_zero (List.mem_of_getElem? hunwritten))

/-! ## The rectangle of any shard -/

/-- Whatever the loop returns, it has written the intervals of the dimensions
that are not replicated, within the rank. -/
theorem tileIntervals_of_writeTileBounds {dims : List ShardingDim} {index : List ℕ} {k : ℕ}
    {rect out : RealmShape} (hlen : index.length = k + dims.length)
    (h : writeTileBounds index k dims rect = .ok out) :
    out.rank = rect.rank ∧ out.bounds = rect.bounds ++ tileIntervals dims (index.drop k) := by
  induction dims generalizing k rect with
  | nil =>
      obtain rfl := Except.ok.inj h
      simp [tileIntervals]
  | cons dim dims ih =>
      have hk : k < index.length := by simp [hlen]
      have hlen' : index.length = (k + 1) + dims.length := by simp [hlen]; omega
      rw [List.drop_eq_getElem_cons hk]
      cases hr : dim.isReplication with
      | true =>
          rw [writeTileBounds, if_pos hr] at h
          simpa [tileIntervals, hr] using ih hlen' h
      | false =>
          rw [writeTileBounds, if_neg (by simp [hr])] at h
          obtain ⟨extent, hextent, h⟩ := bind_eq_ok_iff.mp h
          obtain ⟨-, rfl⟩ := checkedDiv_eq_ok_iff.mp hextent
          rw [vectorAt_of_getElem? (List.getElem?_eq_getElem hk), ok_bind] at h
          obtain ⟨written, hwritten, h⟩ := bind_eq_ok_iff.mp h
          rw [RealmShape.write] at hwritten
          split at hwritten
          case isFalse => cases hwritten
          case isTrue =>
            obtain rfl := Except.ok.inj hwritten
            obtain ⟨hrank, hbounds⟩ := ih hlen' h
            refine ⟨hrank, ?_⟩
            rw [hbounds]
            simp [tileIntervals, hr, ShardingDim.interval]

/-- The special case of an array without dimensions, or with a single one of
size one, aside. -/
theorem bounds_of_computeTileBounds [RealmBuild] {shard : ℕ} {rect : RealmShape}
    {dim : ShardingDim} {dims : List ShardingDim}
    (hcovers : Covers sharding.dims.length sharding.permutations)
    (hpos : ∀ dim ∈ sharding.dims, 1 ≤ dim.sharding)
    (hfits : sharding.factors.prod < int64Bound) (hdims : sharding.dims = dim :: dims)
    (hunit : ¬(dims = [] ∧ dim.size = 1)) (h : computeTileBounds shard sharding = .ok rect) :
    rect.rank = max sharding.numRealDims 1 ∧
      rect.bounds = tileIntervals sharding.dims (sharding.tileIndex shard) := by
  obtain ⟨rank, hrank, h⟩ := bind_eq_ok_iff.mp h
  obtain ⟨-, rfl⟩ := selectRank_eq_ok_iff.mp hrank
  unfold computeTileBoundsOfRank at h
  rw [hdims] at h
  simp only [if_neg hunit] at h
  rw [checkedProd_factors hpos hfits, ok_bind, computeTileIndex_eq hcovers hpos hfits,
    ok_bind] at h
  obtain ⟨replication, -, h⟩ := bind_eq_ok_iff.mp h
  obtain ⟨remainder, -, h⟩ := bind_eq_ok_iff.mp h
  rw [← hdims] at h
  obtain ⟨hrank, hbounds⟩ := tileIntervals_of_writeTileBounds (by simp) h
  exact ⟨hrank, by simpa using hbounds⟩

/-- A tile that holds the last element of a dimension ends with it. -/
theorem dvd_of_mem_interval {dim : ShardingDim} {i : ℕ} (hi : i < dim.sharding)
    (hmem : (dim.size : ℤ) - 1 ≤ (dim.interval i).2) : dim.sharding ∣ dim.size := by
  have hle : dim.size ≤ dim.size / dim.sharding * (i + 1) := by
    have hmem : (dim.size : ℤ) - 1 ≤ ((dim.size / dim.sharding : ℕ) : ℤ) * i +
        ((dim.size / dim.sharding : ℕ) : ℤ) - 1 := hmem
    have hcast : (dim.size : ℤ) ≤ ((dim.size / dim.sharding * (i + 1) : ℕ) : ℤ) := by
      push_cast at hmem ⊢
      linarith
    exact_mod_cast hcast
  have hupper : dim.size / dim.sharding * (i + 1) ≤ dim.size := by
    calc
      dim.size / dim.sharding * (i + 1) ≤ dim.size / dim.sharding * dim.sharding :=
        Nat.mul_le_mul_left _ hi
      _ ≤ dim.size := Nat.div_mul_le_self _ _
  have hfull : dim.size ≤ dim.size / dim.sharding * dim.sharding :=
    hle.trans (Nat.mul_le_mul_left _ hi)
  exact ⟨dim.size / dim.sharding, by
    rw [Nat.mul_comm]
    exact le_antisymm hfull (Nat.div_mul_le_self _ _)⟩

theorem divides_of_corner {dims : List ShardingDim} {index : List ℕ}
    (hindex : Digits (dims.map ShardingDim.sharding) index)
    (h : List.Forall₂ (fun (x : ℤ) (b : ℤ × ℤ) ↦ b.1 ≤ x ∧ x ≤ b.2)
      ((dims.filter fun dim ↦ !dim.isReplication).map fun dim ↦ (dim.size : ℤ) - 1)
      (tileIntervals dims index)) :
    ∀ dim ∈ dims, dim.sharding ∣ dim.size ∨ dim.isReplication = true := by
  induction dims generalizing index with
  | nil => simp
  | cons dim dims ih =>
      cases index with
      | nil => simp [Digits] at hindex
      | cons i index =>
          rw [List.map_cons, digits_cons] at hindex
          rw [List.forall_mem_cons]
          cases hr : dim.isReplication with
          | true =>
              rw [List.filter_cons_of_neg (by simp [hr]), tileIntervals, if_pos hr] at h
              exact ⟨Or.inr rfl, ih hindex.2 h⟩
          | false =>
              rw [List.filter_cons_of_pos (by simp [hr]), List.map_cons, tileIntervals,
                if_neg (by simp [hr]), List.forall₂_cons] at h
              exact ⟨Or.inl (dvd_of_mem_interval hindex.1 h.1.2), ih hindex.2 h.2⟩

/-! ## Both directions -/

theorem length_sub_one_le_numRealDims (sharding : Sharding) :
    sharding.dims.length - 1 ≤ sharding.numRealDims := by
  unfold Sharding.numRealDims
  split
  · exact le_rfl
  · exact Nat.sub_le _ _

/-- The loop only ever stops for want of a coordinate to write. -/
theorem outOfRange_of_writeTileBounds {dims : List ShardingDim} {index : List ℕ} {k : ℕ}
    {rect : RealmShape} {fault : Fault} (hlen : index.length = k + dims.length)
    (hpos : ∀ dim ∈ dims, 1 ≤ dim.sharding)
    (h : writeTileBounds index k dims rect = .error fault) : fault = .outOfRange := by
  induction dims generalizing k rect with
  | nil => cases h
  | cons dim dims ih =>
      have hk : k < index.length := by simp [hlen]
      have hlen' : index.length = (k + 1) + dims.length := by simp [hlen]; omega
      have hpos' : ∀ d ∈ dims, 1 ≤ d.sharding := fun d hd ↦ hpos d (List.mem_cons_of_mem _ hd)
      rw [writeTileBounds] at h
      split at h
      · exact ih hlen' hpos' h
      · simp only [checkedDiv_of_pos (hpos dim List.mem_cons_self), ok_bind,
          vectorAt_of_getElem? (List.getElem?_eq_getElem hk), RealmShape.write] at h
        split at h
        · exact ih hlen' hpos' h
        · exact (Except.error.inj h).symm

theorem outOfRange_of_computeTileBoundsOfRank {rank shard : ℕ} {fault : Fault}
    (hcovers : Covers sharding.dims.length sharding.permutations)
    (hpos : ∀ dim ∈ sharding.dims, 1 ≤ dim.sharding)
    (hprod : sharding.factors.prod = sharding.devices.size)
    (h : computeTileBoundsOfRank rank shard sharding = .error fault) : fault = .outOfRange := by
  have hdevices := devices_pos hpos hprod
  have hwrite {rect : RealmShape} (h : rect.write 0 0 = .error fault) : fault = .outOfRange := by
    rw [RealmShape.write] at h
    split at h
    · cases h
    · exact (Except.error.inj h).symm
  unfold computeTileBoundsOfRank at h
  split at h
  · exact hwrite h
  · split at h
    · exact hwrite h
    · have hfits := factors_fit hprod
      simp only [checkedProd_factors hpos hfits, hprod, computeTileIndex_eq hcovers hpos hfits,
        ok_bind, checkedDiv_of_pos hdevices, Nat.div_self hdevices,
        checkedDiv_of_pos Nat.one_pos] at h
      exact outOfRange_of_writeTileBounds (by simp) hpos h

theorem rankRejected_iff [RealmBuild]
    (hcovers : Covers sharding.dims.length sharding.permutations)
    (hpos : ∀ dim ∈ sharding.dims, 1 ≤ dim.sharding)
    (hprod : sharding.factors.prod = sharding.devices.size) :
    RankRejected sharding ↔ ¬SupportedRank sharding.numRealDims := by
  constructor
  · rintro ⟨hdevices, h⟩ hrank
    have hfault := h 0 hdevices
    rw [computeTileBounds, selectRank_eq_ok_iff.mpr ⟨hrank, rfl⟩, ok_bind] at hfault
    cases outOfRange_of_computeTileBoundsOfRank hcovers hpos hprod hfault
  · intro hrank
    refine ⟨devices_pos hpos hprod, fun shard _ ↦ ?_⟩
    have hselect : selectRank sharding.numRealDims
        ("do not support arrays with " ++ toString sharding.numRealDims ++ " dimensions") =
        .error (.runtimeError
          ("do not support arrays with " ++ toString sharding.numRealDims ++ " dimensions")) := by
      unfold SupportedRank at hrank
      rw [selectRank, if_neg (by omega), if_neg (by omega), if_neg (by omega)]
    rw [computeTileBounds, hselect, error_bind]

/-- A single dimension of size 1 meets the conditions. -/
theorem conditions_of_unit {dim : ShardingDim} (hdims : sharding.dims = [dim])
    (hone : dim.size = 1) (hsharding : 1 ≤ dim.sharding) :
    (∀ d ∈ sharding.dims, d.sharding ∣ d.size ∨ d.isReplication = true) ∧
      sharding.AtMostOneReplication := by
  have hlen : sharding.dims.length = 1 := by rw [hdims, List.length_singleton]
  constructor
  · intro d hd
    rw [hdims, List.mem_singleton] at hd
    subst hd
    by_cases hr : 1 < d.sharding
    · exact Or.inr (by simp [ShardingDim.isReplication, hone, hr])
    · exact Or.inl (by rw [show d.sharding = 1 by omega]; exact one_dvd _)
  · have hadd := length_realDims_add sharding.dims
    unfold Sharding.AtMostOneReplication
    omega

/-- The last element of the array in every dimension. -/
theorem arrayShape_contains_corner (hsize : ∀ dim ∈ sharding.dims, 1 ≤ dim.size)
    (hreal : sharding.realDims ≠ []) :
    sharding.arrayShape.Contains (sharding.realDims.map fun dim ↦ (dim.size : ℤ) - 1) := by
  rw [Sharding.arrayShape, if_neg hreal]
  refine ⟨by simp, ?_⟩
  rw [List.forall₂_map_left_iff, List.forall₂_map_right_iff, List.forall₂_same]
  intro d hd
  have hd := hsize d (List.mem_filter.mp hd).1
  constructor
  · simp only [sub_nonneg]
    exact_mod_cast hd
  · exact le_rfl

/-- An array with elements is not covered by the tiles of no shards. -/
theorem devices_pos_of_safeTiles [RealmBuild] (hsize : ∀ dim ∈ sharding.dims, 1 ≤ dim.size)
    (h : SafeTiles sharding) : 0 < sharding.devices.size := by
  rcases h.2 with hrejected | ⟨tiles, -, hcover⟩
  · exact hrejected.1
  · have hcorner : ∃ point, sharding.arrayShape.Contains point := by
      by_cases hreal : sharding.realDims = []
      · rw [Sharding.arrayShape, if_pos hreal]
        exact ⟨[0], rfl, .cons ⟨le_rfl, le_rfl⟩ .nil⟩
      · exact ⟨_, arrayShape_contains_corner hsize hreal⟩
    obtain ⟨point, hpoint⟩ := hcorner
    obtain ⟨shard, hshard, -⟩ := hcover point hpoint
    exact Nat.zero_lt_of_lt hshard

/-- The corner of the array tells which dimensions are cut evenly, and the rank
of its tile how many are replicated. -/
theorem conditions_of_tilesCover [RealmBuild]
    (hcovers : Covers sharding.dims.length sharding.permutations)
    (hsize : ∀ dim ∈ sharding.dims, 1 ≤ dim.size)
    (hpos : ∀ dim ∈ sharding.dims, 1 ≤ dim.sharding)
    (hprod : sharding.factors.prod = sharding.devices.size) (h : TilesCover sharding) :
    (∀ dim ∈ sharding.dims, dim.sharding ∣ dim.size ∨ dim.isReplication = true) ∧
      sharding.AtMostOneReplication := by
  obtain ⟨tiles, htiles, hcover⟩ := h
  cases hdims : sharding.dims with
  | nil => exact ⟨by simp, by simp [Sharding.AtMostOneReplication, hdims]⟩
  | cons dim dims =>
      rw [← hdims]
      by_cases hunit : dims = [] ∧ dim.size = 1
      · obtain ⟨rfl, hone⟩ := hunit
        exact conditions_of_unit hdims hone (hpos dim (by simp [hdims]))
      · have hrect (shard : ℕ) (hshard : shard < sharding.devices.size) :=
          bounds_of_computeTileBounds hcovers hpos (factors_fit hprod) hdims hunit
            (htiles shard hshard)
        have hlength (shard : ℕ) : (tileIntervals sharding.dims (sharding.tileIndex shard)).length =
            (sharding.dims.filter fun dim ↦ !dim.isReplication).length :=
          length_tileIntervals _ _ (by simp)
        have hadd := length_realDims_add sharding.dims
        have hnum := length_sub_one_le_numRealDims sharding
        unfold Sharding.AtMostOneReplication
        by_cases hreal : sharding.realDims = []
        · -- a scalar has a single coordinate, but no dimension to write it
          obtain ⟨shard, hshard, hmem⟩ := hcover [0] (by
            rw [Sharding.arrayShape, if_pos hreal]
            exact ⟨rfl, .cons ⟨le_rfl, le_rfl⟩ .nil⟩)
          obtain ⟨hrank, hbounds⟩ := hrect shard hshard
          have hfull := hmem.1
          rw [hrank, hbounds, hlength, ← Sharding.realDims, hreal, List.length_nil] at hfull
          omega
        · obtain ⟨shard, hshard, hmem⟩ := hcover _ (arrayShape_contains_corner hsize hreal)
          obtain ⟨hrank, hbounds⟩ := hrect shard hshard
          obtain ⟨hfull, hcorner⟩ := hmem
          rw [hbounds] at hcorner
          rw [hrank, hbounds, hlength] at hfull
          refine ⟨divides_of_corner (tileIndex_digits hcovers (hprod ▸ hshard)) hcorner, ?_⟩
          omega

theorem tilesCover_of_tileable [RealmBuild] (h : sharding.Tileable)
    (hone : sharding.AtMostOneReplication) (hrank : SupportedRank sharding.realDims.length) :
    TilesCover sharding := by
  have hpos : 0 < sharding.replication := by
    apply List.prod_pos
    intro b hb
    obtain ⟨dim, hdim, rfl⟩ := List.mem_map.mp hb
    exact h.sharding_pos dim (List.mem_filter.mp hdim).1
  refine ⟨sharding.tileBounds, fun shard hshard ↦ computeTileBounds_eq h hone hrank hshard, ?_⟩
  intro point hpoint
  by_cases hreal : sharding.realDims = []
  · rw [Sharding.arrayShape, if_pos hreal] at hpoint
    refine ⟨0, devices_pos h.sharding_pos h.devices_eq, ?_⟩
    rwa [Sharding.tileBounds, if_pos hreal]
  · have hcard := card_tiles_containing h hreal hpoint
    obtain ⟨shard, hshard⟩ := Finset.card_pos.mp (hcard ▸ hpos)
    obtain ⟨hshard, hmem⟩ := Finset.mem_filter.mp hshard
    exact ⟨shard, Finset.mem_range.mp hshard, hmem⟩

theorem tiledDims_eq {dims : List ShardingDim} (hpos : ∀ dim ∈ dims, 1 ≤ dim.sharding) :
    ShardedArray.tiledDims dims = .ok
      ((dims.filter fun dim ↦ decide (dim.sharding ≤ dim.size)).map fun dim ↦
        dim.size / dim.sharding) := by
  induction dims with
  | nil => rfl
  | cons dim dims ih =>
      have htail := ih fun d hd ↦ hpos d (List.mem_cons_of_mem _ hd)
      rw [ShardedArray.tiledDims]
      by_cases hle : dim.sharding ≤ dim.size
      · rw [if_pos hle, checkedDiv_of_pos (hpos dim List.mem_cons_self), ok_bind, htail,
          List.filter_cons_of_pos (by simpa using hle)]
        rfl
      · rw [if_neg hle, htail, List.filter_cons_of_neg (by simpa using hle)]

/-- Under the same conditions every processor of the mesh gets its tile, and
the others get none. -/
theorem create_of_tileable [RealmBuild] {type : SupportedType} (h : sharding.Tileable)
    (hone : sharding.AtMostOneReplication) (hrank : SupportedRank sharding.realDims.length)
    (p : Processor) :
    ∃ dims, ShardedArray.create p none ⟨type, sharding⟩ =
      .ok ((sharding.devices.shardId p.globalId).map fun s ↦
        ⟨type, dims, sharding.tileBounds s⟩) := by
  refine ⟨(sharding.dims.filter fun dim ↦ decide (dim.sharding ≤ dim.size)).map fun dim ↦
    dim.size / dim.sharding, ?_⟩
  rw [ShardedArray.create, (checkTotalSharding_eq_ok_iff h.sharding_pos).mpr h.devices_eq,
    ok_bind, Option.none_or]
  cases hs : sharding.devices.shardId p.globalId with
  | none => rfl
  | some s =>
      simp only [tiledDims_eq h.sharding_pos, ok_bind,
        computeTileBounds_eq h hone hrank (DeviceList.shardId_lt hs)]
      rfl

end

/-- Of the arrays that the check on the number of devices lets pass, those are
safe whose product of factors does not overflow, whose permutation fields are a
permutation, and that have an unsupported rank or only dimensions that are cut
evenly or replicated, at most one of them replicated. -/
theorem safe_tiles_iff [RealmBuild] (sharding : Sharding)
    (hsize : ∀ dim ∈ sharding.dims, 1 ≤ dim.size)
    (hpos : ∀ dim ∈ sharding.dims, 1 ≤ dim.sharding)
    (hcheck : ∀ what, ShardedArray.checkTotalSharding sharding ≠ .error (.runtimeError what)) :
    SafeTiles sharding ↔
      sharding.factors.prod < int64Bound ∧
      Covers sharding.dims.length sharding.permutations ∧
      (¬SupportedRank sharding.numRealDims ∨
        (∀ dim ∈ sharding.dims, dim.sharding ∣ dim.size ∨ dim.isReplication = true) ∧
          sharding.AtMostOneReplication) := by
  constructor
  · intro hsafe
    obtain ⟨index, hindex⟩ := hsafe.1 0 (devices_pos_of_safeTiles hsize hsafe)
    have hcovers := covers_of_computeTileIndex hindex
    have hfits := factors_fit_of_computeTileIndex hcovers hindex
    have hprod := factors_prod_of_not_rejected hpos hcheck hfits
    refine ⟨hfits, hcovers, hsafe.2.imp ?_ ?_⟩
    · exact (rankRejected_iff hcovers hpos hprod).mp
    · exact conditions_of_tilesCover hcovers hsize hpos hprod
  · rintro ⟨hfits, hcovers, hrest⟩
    have hprod := factors_prod_of_not_rejected hpos hcheck hfits
    refine ⟨fun shard _ ↦ ⟨_, computeTileIndex_eq hcovers hpos hfits shard⟩, ?_⟩
    by_cases hrank : SupportedRank sharding.numRealDims
    · obtain ⟨hdivides, hone⟩ := hrest.resolve_left (not_not.mpr hrank)
      have htileable : sharding.Tileable := ⟨hsize, hpos, hcovers, hdivides, hprod⟩
      rw [numRealDims_eq htileable hone] at hrank
      exact Or.inr (tilesCover_of_tileable htileable hone hrank)
    · exact Or.inl ((rankRejected_iff hcovers hpos hprod).mpr hrank)

/-- Two copies of an array of two dimensions, of which the second is unpermuted first. -/
theorem safe_tiles_permuted :
    @SafeTiles .rankFour ⟨[⟨8, 2, 1⟩, ⟨6, 3, 0⟩, ⟨1, 2, 2⟩], ⟨0, 12⟩⟩ := by
  let _ : RealmBuild := .rankFour
  exact (safe_tiles_iff ⟨[⟨8, 2, 1⟩, ⟨6, 3, 0⟩, ⟨1, 2, 2⟩], ⟨0, 12⟩⟩ (by decide) (by decide)
    fun what ↦ by simp [show ShardedArray.checkTotalSharding
      ⟨[⟨8, 2, 1⟩, ⟨6, 3, 0⟩, ⟨1, 2, 2⟩], ⟨0, 12⟩⟩ = .ok () by decide]).mpr
    ⟨by decide, by decide, Or.inr (by decide)⟩

/-- With the permutation fields left at their default, the second factor
overwrites the first and the position that is left at zero is divided by. -/
theorem not_safe_tiles_default_permutation :
    ¬ ∀ (_ : RealmBuild) (sharding : Sharding), (∀ dim ∈ sharding.dims, 1 ≤ dim.size) →
      (∀ dim ∈ sharding.dims, 1 ≤ dim.sharding) →
      (∀ what, ShardedArray.checkTotalSharding sharding ≠ .error (.runtimeError what)) →
      SafeTiles sharding := by
  intro h
  have hcheck : ShardedArray.checkTotalSharding
      ⟨[{ size := 8, sharding := 2 }, { size := 6, sharding := 3 }], ⟨0, 6⟩⟩ = .ok () := by
    decide
  obtain ⟨hindex, -⟩ := h .rankFour
    ⟨[{ size := 8, sharding := 2 }, { size := 6, sharding := 3 }], ⟨0, 6⟩⟩ (by decide) (by decide)
    fun what ↦ by simp [hcheck]
  obtain ⟨index, hindex⟩ := hindex 0 (by decide)
  have hfault : computeTileIndex 0
      ⟨[{ size := 8, sharding := 2 }, { size := 6, sharding := 3 }], ⟨0, 6⟩⟩ =
      .error .divisionByZero := by decide
  rw [hfault] at hindex
  cases hindex

end Zuku
