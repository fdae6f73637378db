import Zuku.ShardedArrayCreate

/-!
# The size of a tile

The number of elements of a shard is computed in four places: from the sharding
with `NumLocalElements` and `ShardElements`, from the dimensions of the tile
that `ShardedArray::Create` makes, and from the rectangle of the tile.  The
first three leave out all replication dimensions.  The rank of the rectangle
leaves out only one.  `ShardElements` multiplies before it divides, so that it
overflows on arrays whose tiles have few elements.
-/

namespace Zuku

open Checked IndexedWrites

/-- A replication dimension has size one and is left out. -/
def numLocalElementsLoop : List ShardingDim → ℕ → Exec ℕ
  | [], size => pure size
  | dim :: dims, size =>
      if 1 < dim.size then do
        let tileSize ← checkedDiv dim.size dim.sharding
        let size ← checkedMul size tileSize
        numLocalElementsLoop dims size
      else numLocalElementsLoop dims size

def Sharding.numLocalElements (sharding : Sharding) : Exec ℕ :=
  numLocalElementsLoop sharding.dims 1

/-- The product takes the whole size of every dimension in turn before it is
divided by the factor. -/
def shardElementsLoop : List ShardingDim → ℕ → Exec ℕ
  | [], dimProduct => pure dimProduct
  | dim :: dims, dimProduct =>
      if 1 < dim.size then do
        let dimProduct ← checkedMul dimProduct dim.size
        let dimProduct ← checkedDiv dimProduct dim.sharding
        shardElementsLoop dims dimProduct
      else shardElementsLoop dims dimProduct

def shardElements (sharding : Sharding) : Exec ℕ := shardElementsLoop sharding.dims 1

/-- Multiply the extents of `n` coordinates from `i` on. -/
def realmShapeSizeLoop (rect : RealmShape) : ℕ → ℕ → ℤ → Exec ℤ
  | 0, _, size => pure size
  | n + 1, i, size => do
      let interval ← rect.read i
      let size ← checkedInt (size * (interval.2 - interval.1 + 1))
      realmShapeSizeLoop rect n (i + 1) size

def computeRealmShapeSize (rect : RealmShape) : Exec ℤ := realmShapeSizeLoop rect rect.rank 0 1

/-- The rectangle of a shard has the rank that `NumRealDims` selects, all its
coordinates are written, and its size is the number of elements. -/
structure RectOfSize [RealmBuild] (sharding : Sharding) (shard elements : ℕ) (rect : RealmShape) :
    Prop where
  computed : computeTileBounds shard sharding = .ok rect
  rank : rect.rank = max sharding.numRealDims 1
  written : rect.bounds.length = rect.rank
  size : computeRealmShapeSize rect = .ok elements

/-- All notions of the size of a tile agree, unless the array is rejected for its
rank. -/
def SizesAgree [RealmBuild] (sharding : Sharding) (shard : ℕ) : Prop :=
  ∃ elements, sharding.numLocalElements = .ok elements ∧ shardElements sharding = .ok elements ∧
    (∃ dims, ShardedArray.tiledDims sharding.dims = .ok dims ∧ dims.prod = elements) ∧
    (RankRejected sharding ∨ ∃ rect, RectOfSize sharding shard elements rect)

/-- The number of elements in a tile over the real dimensions. -/
def Sharding.tileElements (sharding : Sharding) : ℕ :=
  (sharding.realDims.map fun dim ↦ dim.size / dim.sharding).prod

/-- None of the products overflows that take the extents of a tile in the
dimensions before `k` and the whole size of dimension `k`, after a factor `n`. -/
def ProductsFit (n : ℕ) (dims : List ShardingDim) : Prop :=
  ∀ k, ∀ dim ∈ dims[k]?,
    n * ((dims.take k).map fun d ↦ d.size / d.sharding).prod * dim.size < int64Bound

/-- The same over the dimensions of the real shape. -/
def Sharding.ProductsFit (sharding : Sharding) : Prop := Zuku.ProductsFit 1 sharding.realDims

/-! ## Products that do not overflow -/

section

variable {sharding : Sharding}

theorem productsFit_cons {n : ℕ} {dim : ShardingDim} {dims : List ShardingDim} :
    ProductsFit n (dim :: dims) ↔
      n * dim.size < int64Bound ∧ ProductsFit (n * (dim.size / dim.sharding)) dims := by
  constructor
  · intro h
    refine ⟨by simpa using h 0 dim rfl, fun k d hd ↦ ?_⟩
    have hnext := h (k + 1) d (by simpa using hd)
    rwa [List.take_succ_cons, List.map_cons, List.prod_cons, ← Nat.mul_assoc] at hnext
  · rintro ⟨hhead, htail⟩ k d hd
    cases k with
    | zero =>
        obtain rfl : dim = d := by simpa using hd
        simpa using hhead
    | succ k =>
        have hnext := htail k d (by simpa using hd)
        rwa [List.take_succ_cons, List.map_cons, List.prod_cons, ← Nat.mul_assoc]

/-- Dividing by the factor only lowers the last product. -/
theorem ProductsFit.prod_lt {n : ℕ} {dims : List ShardingDim} (hn : n < int64Bound)
    (h : ProductsFit n dims) :
    n * (dims.map fun dim ↦ dim.size / dim.sharding).prod < int64Bound := by
  induction dims generalizing n with
  | nil => simpa using hn
  | cons dim dims ih =>
      obtain ⟨hhead, htail⟩ := productsFit_cons.mp h
      have hle : n * (dim.size / dim.sharding) ≤ n * dim.size :=
        Nat.mul_le_mul_left _ (Nat.div_le_self _ _)
      rw [List.map_cons, List.prod_cons, ← Nat.mul_assoc]
      exact ih (hle.trans_lt hhead) htail

theorem Sharding.ProductsFit.tileElements_lt (h : sharding.ProductsFit) :
    sharding.tileElements < int64Bound := by
  have hlt := Zuku.ProductsFit.prod_lt (by decide) h
  rwa [Nat.one_mul] at hlt

/-! ## Sizes computed from the sharding -/

/-- A dimension of size one that is not replicated is not cut. -/
theorem div_eq_one_of_size_le_one {dim : ShardingDim} (hsize : 1 ≤ dim.size)
    (hdvd : dim.sharding ∣ dim.size) (hone : ¬1 < dim.size) : dim.size / dim.sharding = 1 := by
  have heq : dim.size = 1 := by omega
  rw [heq, Nat.dvd_one] at hdvd
  rw [heq, hdvd]

theorem not_one_lt_size_of_isReplication {dim : ShardingDim} (h : dim.isReplication = true) :
    ¬1 < dim.size := by
  simp only [ShardingDim.isReplication, Bool.and_eq_true, decide_eq_true_eq] at h
  omega

/-- Every real dimension of a tile has elements. -/
theorem tileExtents_pos {dims : List ShardingDim} (hsize : ∀ dim ∈ dims, 1 ≤ dim.size)
    (hpos : ∀ dim ∈ dims, 1 ≤ dim.sharding)
    (hdvd : ∀ dim ∈ dims, dim.sharding ∣ dim.size ∨ dim.isReplication = true) :
    ∀ dim ∈ dims.filter fun dim ↦ !dim.isReplication, 0 < dim.size / dim.sharding := by
  intro dim hdim
  obtain ⟨hdim, hr⟩ := List.mem_filter.mp hdim
  have hdvd := (hdvd dim hdim).resolve_right (by simpa using hr)
  exact Nat.div_pos (Nat.le_of_dvd (hsize dim hdim) hdvd) (hpos dim hdim)

theorem numLocalElementsLoop_eq {dims : List ShardingDim} {size : ℕ}
    (hsize : ∀ dim ∈ dims, 1 ≤ dim.size) (hpos : ∀ dim ∈ dims, 1 ≤ dim.sharding)
    (hdvd : ∀ dim ∈ dims, dim.sharding ∣ dim.size ∨ dim.isReplication = true)
    (hfits : size * ((dims.filter fun dim ↦ !dim.isReplication).map fun dim ↦
      dim.size / dim.sharding).prod < int64Bound) :
    numLocalElementsLoop dims size = .ok (size *
      ((dims.filter fun dim ↦ !dim.isReplication).map fun dim ↦ dim.size / dim.sharding).prod) := by
  have hextents := tileExtents_pos hsize hpos hdvd
  induction dims generalizing size with
  | nil => simp [numLocalElementsLoop]
  | cons dim dims ih =>
      rw [List.forall_mem_cons] at hsize hpos hdvd
      rw [numLocalElementsLoop]
      cases hr : dim.isReplication with
      | true =>
          rw [List.filter_cons_of_neg (by simp [hr])] at hfits hextents ⊢
          rw [if_neg (not_one_lt_size_of_isReplication hr)]
          exact ih hsize.2 hpos.2 hdvd.2 hfits hextents
      | false =>
          have hdvd' := hdvd.1.resolve_right (by simp [hr])
          rw [List.filter_cons_of_pos (by simp [hr]), List.forall_mem_cons] at hextents
          rw [List.filter_cons_of_pos (by simp [hr]), List.map_cons, List.prod_cons,
            ← Nat.mul_assoc] at hfits ⊢
          have htail := ih hsize.2 hpos.2 hdvd.2 hfits hextents.2
          split
          · have hrest : 0 < ((dims.filter fun dim ↦ !dim.isReplication).map fun dim ↦
                dim.size / dim.sharding).prod := by
              apply List.prod_pos
              rw [List.forall_mem_map]
              exact hextents.2
            have hlt := (Nat.le_mul_of_pos_right _ hrest).trans_lt hfits
            rw [checkedDiv_of_pos hpos.1, ok_bind, checkedMul_of_lt hlt, ok_bind, htail]
          · rw [div_eq_one_of_size_le_one hsize.1 hdvd' ‹_›, Nat.mul_one] at htail ⊢
            exact htail

/-- Every division is exact, so the order of the operations only matters for
the overflow. -/
theorem shardElementsLoop_eq {dims : List ShardingDim} {n : ℕ}
    (hsize : ∀ dim ∈ dims, 1 ≤ dim.size) (hpos : ∀ dim ∈ dims, 1 ≤ dim.sharding)
    (hdvd : ∀ dim ∈ dims, dim.sharding ∣ dim.size ∨ dim.isReplication = true)
    (hfits : ProductsFit n (dims.filter fun dim ↦ !dim.isReplication)) :
    shardElementsLoop dims n = .ok (n *
      ((dims.filter fun dim ↦ !dim.isReplication).map fun dim ↦ dim.size / dim.sharding).prod) := by
  induction dims generalizing n with
  | nil => simp [shardElementsLoop]
  | cons dim dims ih =>
      rw [List.forall_mem_cons] at hsize hpos hdvd
      rw [shardElementsLoop]
      cases hr : dim.isReplication with
      | true =>
          rw [List.filter_cons_of_neg (by simp [hr])] at hfits ⊢
          rw [if_neg (not_one_lt_size_of_isReplication hr)]
          exact ih hsize.2 hpos.2 hdvd.2 hfits
      | false =>
          have hdvd' := hdvd.1.resolve_right (by simp [hr])
          rw [List.filter_cons_of_pos (by simp [hr])] at hfits ⊢
          obtain ⟨hhead, htail⟩ := productsFit_cons.mp hfits
          have htail := ih hsize.2 hpos.2 hdvd.2 htail
          rw [List.map_cons, List.prod_cons, ← Nat.mul_assoc]
          split
          · rw [checkedMul_of_lt hhead, ok_bind, checkedDiv_of_pos hpos.1, ok_bind,
              Nat.mul_div_assoc _ hdvd', htail]
          · rw [div_eq_one_of_size_le_one hsize.1 hdvd' ‹_›, Nat.mul_one] at htail ⊢
            exact htail

theorem productsFit_of_shardElementsLoop {dims : List ShardingDim} {n elements : ℕ}
    (hn : n < int64Bound) (hsize : ∀ dim ∈ dims, 1 ≤ dim.size)
    (hdvd : ∀ dim ∈ dims, dim.sharding ∣ dim.size ∨ dim.isReplication = true)
    (h : shardElementsLoop dims n = .ok elements) :
    ProductsFit n (dims.filter fun dim ↦ !dim.isReplication) := by
  induction dims generalizing n with
  | nil =>
      intro k dim hdim
      simp at hdim
  | cons dim dims ih =>
      rw [List.forall_mem_cons] at hsize hdvd
      rw [shardElementsLoop] at h
      cases hr : dim.isReplication with
      | true =>
          rw [if_neg (not_one_lt_size_of_isReplication hr)] at h
          rw [List.filter_cons_of_neg (by simp [hr])]
          exact ih hn hsize.2 hdvd.2 h
      | false =>
          have hdvd' := hdvd.1.resolve_right (by simp [hr])
          rw [List.filter_cons_of_pos (by simp [hr]), productsFit_cons]
          split at h
          case isTrue =>
            obtain ⟨total, htotal, h⟩ := bind_eq_ok_iff.mp h
            obtain ⟨hlt, rfl⟩ := checkedMul_eq_ok_iff.mp htotal
            obtain ⟨quotient, hquotient, h⟩ := bind_eq_ok_iff.mp h
            obtain ⟨-, rfl⟩ := checkedDiv_eq_ok_iff.mp hquotient
            rw [Nat.mul_div_assoc _ hdvd'] at h
            have hle : n * (dim.size / dim.sharding) ≤ n * dim.size :=
              Nat.mul_le_mul_left _ (Nat.div_le_self _ _)
            exact ⟨hlt, ih (hle.trans_lt hlt) hsize.2 hdvd.2 h⟩
          case isFalse hone =>
            have heq : dim.size = 1 := by omega
            rw [div_eq_one_of_size_le_one hsize.1 hdvd' hone, heq, Nat.mul_one]
            exact ⟨hn, ih hn hsize.2 hdvd.2 h⟩

theorem numLocalElements_eq (h : sharding.Tileable) (hfits : sharding.ProductsFit) :
    sharding.numLocalElements = .ok sharding.tileElements := by
  have hlt := hfits.tileElements_lt
  rw [← Nat.one_mul sharding.tileElements] at hlt ⊢
  exact numLocalElementsLoop_eq h.size_pos h.sharding_pos h.divides hlt

theorem shardElements_eq (h : sharding.Tileable) (hfits : sharding.ProductsFit) :
    shardElements sharding = .ok sharding.tileElements := by
  rw [← Nat.one_mul sharding.tileElements]
  exact shardElementsLoop_eq h.size_pos h.sharding_pos h.divides hfits

theorem productsFit_of_shardElements (h : sharding.Tileable) {elements : ℕ}
    (helements : shardElements sharding = .ok elements) : sharding.ProductsFit :=
  productsFit_of_shardElementsLoop (by decide) h.size_pos h.divides helements

/-- The tile of `Create` has the real dimensions. -/
theorem tiledDims_of_tileable (h : sharding.Tileable) :
    ShardedArray.tiledDims sharding.dims =
      .ok (sharding.realDims.map fun dim ↦ dim.size / dim.sharding) := by
  have hfilter : (sharding.dims.filter fun dim ↦ decide (dim.sharding ≤ dim.size)) =
      sharding.realDims := by
    refine List.filter_congr fun dim hdim ↦ ?_
    have hiff := isReplication_iff_lt h hdim
    cases hr : dim.isReplication with
    | true => simpa using hiff.mp hr
    | false => simpa [hr] using hiff
  rw [tiledDims_eq h.sharding_pos, hfilter]

/-! ## The size of the rectangle -/

theorem realmShapeSizeLoop_eq {rect : RealmShape} (hwritten : rect.bounds.length = rect.rank)
    (hpos : ∀ b ∈ rect.bounds, 0 < b.2 - b.1 + 1) {n i : ℕ} (hn : i + n = rect.rank) {size : ℤ}
    (hsize : 0 < size)
    (hfits : size * ((rect.bounds.drop i).map fun b ↦ b.2 - b.1 + 1).prod < int64Bound) :
    realmShapeSizeLoop rect n i size =
      .ok (size * ((rect.bounds.drop i).map fun b ↦ b.2 - b.1 + 1).prod) := by
  induction n generalizing i size with
  | zero =>
      rw [realmShapeSizeLoop, List.drop_eq_nil_of_le (by omega)]
      simp
  | succ n ih =>
      have hi : i < rect.bounds.length := by omega
      have hread : rect.read i = .ok rect.bounds[i] := by
        rw [RealmShape.read, if_pos (by omega), List.getElem?_eq_getElem hi]
      have hextent := mul_pos hsize (hpos _ (List.getElem_mem hi))
      have hrest : 0 < ((rect.bounds.drop (i + 1)).map fun b ↦ b.2 - b.1 + 1).prod := by
        apply List.prod_pos
        intro extent hextent
        obtain ⟨b, hb, rfl⟩ := List.mem_map.mp hextent
        exact hpos b (List.mem_of_mem_drop hb)
      rw [List.drop_eq_getElem_cons hi, List.map_cons, List.prod_cons, ← mul_assoc] at hfits ⊢
      have hlt := (le_mul_of_one_le_right hextent.le hrest).trans_lt hfits
      rw [realmShapeSizeLoop, hread, ok_bind, checkedInt_of_lt hextent.le hlt, ok_bind,
        ih (by omega) hextent hfits]

theorem extents_tileIntervals (dims : List ShardingDim) (index : List ℕ)
    (hlen : index.length = dims.length) :
    ((tileIntervals dims index).map fun b ↦ b.2 - b.1 + 1) =
      ((dims.filter fun dim ↦ !dim.isReplication).map fun dim ↦
        dim.size / dim.sharding).map (Nat.cast : ℕ → ℤ) := by
  induction dims generalizing index with
  | nil => rfl
  | cons dim dims ih =>
      cases index with
      | nil => simp at hlen
      | cons i index =>
          have hlen' : index.length = dims.length := by simpa using hlen
          cases hr : dim.isReplication with
          | true =>
              rw [tileIntervals, if_pos hr, List.filter_cons_of_neg (by simp [hr])]
              exact ih index hlen'
          | false =>
              rw [tileIntervals, if_neg (by simp [hr]), List.filter_cons_of_pos (by simp [hr]),
                List.map_cons, List.map_cons, List.map_cons, ih index hlen']
              congr 1
              rw [ShardingDim.interval]
              ring

/-- The extents of the rectangle of a shard are those of its tile. -/
theorem extents_tileBounds (sharding : Sharding) (hreal : sharding.realDims ≠ []) (shard : ℕ) :
    ((sharding.tileBounds shard).bounds.map fun b ↦ b.2 - b.1 + 1) =
      (sharding.realDims.map fun dim ↦ dim.size / dim.sharding).map (Nat.cast : ℕ → ℤ) := by
  rw [Sharding.tileBounds, if_neg hreal]
  exact extents_tileIntervals _ _ (sharding.length_tileIndex shard)

theorem length_tileBounds (sharding : Sharding) (shard : ℕ) :
    (sharding.tileBounds shard).bounds.length = (sharding.tileBounds shard).rank := by
  unfold Sharding.tileBounds
  split
  · rfl
  · exact length_tileIntervals _ _ (sharding.length_tileIndex shard)

/-- The rectangle of a shard holds the elements of its tile. -/
theorem computeRealmShapeSize_tileBounds (h : sharding.Tileable) (hfits : sharding.ProductsFit)
    (shard : ℕ) :
    computeRealmShapeSize (sharding.tileBounds shard) = .ok (sharding.tileElements : ℤ) := by
  by_cases hreal : sharding.realDims = []
  · rw [Sharding.tileBounds, if_pos hreal, Sharding.tileElements, hreal]
    rfl
  · have hextents := extents_tileBounds sharding hreal shard
    have hprod : ((sharding.tileBounds shard).bounds.map fun b ↦ b.2 - b.1 + 1).prod =
        (sharding.tileElements : ℤ) := by
      rw [hextents, ← Nat.cast_list_prod, Sharding.tileElements]
    have hpos (b : ℤ × ℤ) (hb : b ∈ (sharding.tileBounds shard).bounds) :
        0 < b.2 - b.1 + 1 := by
      have hmem := List.mem_map_of_mem (f := fun b : ℤ × ℤ ↦ b.2 - b.1 + 1) hb
      rw [hextents, List.map_map] at hmem
      obtain ⟨dim, hdim, heq⟩ := List.mem_map.mp hmem
      rw [← heq]
      exact Int.natCast_pos.mpr (tileExtents_pos h.size_pos h.sharding_pos h.divides dim hdim)
    rw [computeRealmShapeSize, realmShapeSizeLoop_eq (length_tileBounds sharding shard) hpos
      (Nat.zero_add _) Int.one_pos]
    · rw [one_mul, List.drop_zero, hprod]
    · rw [one_mul, List.drop_zero, hprod]
      exact_mod_cast hfits.tileElements_lt

/-! ## The rank of the rectangle -/

theorem rectOfSize_tileBounds [RealmBuild] (h : sharding.Tileable)
    (hone : sharding.AtMostOneReplication) (hfits : sharding.ProductsFit)
    (hrank : SupportedRank sharding.numRealDims) {shard : ℕ}
    (hshard : shard < sharding.devices.size) :
    RectOfSize sharding shard sharding.tileElements (sharding.tileBounds shard) := by
  have hnum := numRealDims_eq h hone
  refine ⟨computeTileBounds_eq h hone (hnum ▸ hrank) hshard, ?_, length_tileBounds sharding shard,
    computeRealmShapeSize_tileBounds h hfits shard⟩
  rw [hnum]
  unfold Sharding.tileBounds
  split
  case isTrue hreal => rw [hreal]; rfl
  case isFalse hreal =>
    exact (Nat.max_eq_left (List.length_pos_iff.mpr hreal)).symm

/-- With several replication dimensions the rectangle has more coordinates than
are written. -/
theorem atMostOneReplication_of_rectOfSize [RealmBuild] (h : sharding.Tileable)
    {shard elements : ℕ} {rect : RealmShape} (hrect : RectOfSize sharding shard elements rect) :
    sharding.AtMostOneReplication := by
  by_contra hmany
  have hadd := length_realDims_add sharding.dims
  have hnum := length_sub_one_le_numRealDims sharding
  unfold Sharding.AtMostOneReplication at hmany
  cases hdims : sharding.dims with
  | nil => simp [hdims] at hmany
  | cons dim dims =>
      have hunit : ¬(dims = [] ∧ dim.size = 1) := by
        rintro ⟨rfl, -⟩
        have hlen : sharding.dims.length = 1 := by rw [hdims, List.length_singleton]
        omega
      obtain ⟨hrank, hbounds⟩ :=
        bounds_of_computeTileBounds h.bijective h.sharding_pos h.factors_fit hdims hunit
          hrect.computed
      have hlength := length_tileIntervals sharding.dims (sharding.tileIndex shard) (by simp)
      have hwritten := hrect.written
      rw [hrank, hbounds, hlength] at hwritten
      omega

/-- The sizes of the tile of a shard agree, and its rectangle is written whole,
if and only if no product overflows, and there is at most one replication
dimension or the build has no rectangle for the array. -/
theorem sizesAgree_iff [RealmBuild] (sharding : Sharding) (h : sharding.Tileable) {shard : ℕ}
    (hshard : shard < sharding.devices.size) :
    SizesAgree sharding shard ↔
      sharding.ProductsFit ∧
        (¬SupportedRank sharding.numRealDims ∨ sharding.AtMostOneReplication) := by
  constructor
  · rintro ⟨elements, -, helements, -, hrest⟩
    refine ⟨productsFit_of_shardElements h helements, hrest.imp ?_ ?_⟩
    · exact (rankRejected_iff h.bijective h.sharding_pos h.devices_eq).mp
    · rintro ⟨rect, hrect⟩
      exact atMostOneReplication_of_rectOfSize h hrect
  · rintro ⟨hfits, hcondition⟩
    refine ⟨sharding.tileElements, numLocalElements_eq h hfits, shardElements_eq h hfits,
      ⟨_, tiledDims_of_tileable h, rfl⟩, ?_⟩
    by_cases hrank : SupportedRank sharding.numRealDims
    · have hone := hcondition.resolve_left (not_not.mpr hrank)
      exact Or.inr ⟨_, rectOfSize_tileBounds h hone hfits hrank hshard⟩
    · exact Or.inl ((rankRejected_iff h.bijective h.sharding_pos h.devices_eq).mpr hrank)

end

/-- Two copies of an array of two dimensions. -/
theorem sizesAgree_one_replication :
    @SizesAgree .rankFour ⟨[⟨8, 2, 1⟩, ⟨6, 3, 0⟩, ⟨1, 2, 2⟩], ⟨0, 12⟩⟩ 5 := by
  let _ : RealmBuild := .rankFour
  have hfits : Sharding.ProductsFit ⟨[⟨8, 2, 1⟩, ⟨6, 3, 0⟩, ⟨1, 2, 2⟩], ⟨0, 12⟩⟩ := by
    rw [Sharding.ProductsFit, show Sharding.realDims ⟨[⟨8, 2, 1⟩, ⟨6, 3, 0⟩, ⟨1, 2, 2⟩],
      ⟨0, 12⟩⟩ = [⟨8, 2, 1⟩, ⟨6, 3, 0⟩] from rfl, productsFit_cons, productsFit_cons]
    exact ⟨by decide, by decide, fun k dim hdim ↦ by simp at hdim⟩
  exact (sizesAgree_iff ⟨[⟨8, 2, 1⟩, ⟨6, 3, 0⟩, ⟨1, 2, 2⟩], ⟨0, 12⟩⟩ (by decide) (by decide)).mpr
    ⟨hfits, Or.inr (by decide)⟩

/-- Two replication dimensions: the rectangle of rank two has a single interval. -/
theorem not_sizesAgree_two_replications :
    ¬ ∀ (_ : RealmBuild) (sharding : Sharding), sharding.Tileable →
      ∀ shard < sharding.devices.size, SizesAgree sharding shard := by
  intro h
  let _ : RealmBuild := .rankFour
  have hrect : computeTileBounds 0 ⟨[⟨8, 2, 0⟩, ⟨1, 2, 1⟩, ⟨1, 2, 2⟩], ⟨0, 8⟩⟩ =
      .ok ⟨2, [(0, 3)]⟩ := by decide
  obtain ⟨elements, -, -, -, hrejected | ⟨rect, hsize⟩⟩ :=
    h .rankFour ⟨[⟨8, 2, 0⟩, ⟨1, 2, 1⟩, ⟨1, 2, 2⟩], ⟨0, 8⟩⟩ (by decide) 0 (by decide)
  · have hfault := hrejected.2 0 (by decide)
    rw [hrect] at hfault
    cases hfault
  · obtain rfl : ⟨2, [(0, 3)]⟩ = rect := Except.ok.inj (hrect.symm.trans hsize.computed)
    exact absurd hsize.written (by decide)

end Zuku
