import Zuku.TileIndex

/-!
# Encoding a tile index

`ComputeTileIndex` decodes a shard id in the order the permutation fields give,
and `ComputeTileShard` encodes a tile index in storage order.  They are inverse
when the dimensions that are cut at all come in the same order both ways.
-/

namespace Zuku

open Checked IndexedWrites MixedRadix

/-- Both round trips between shard ids and tile indices. -/
def TileShardInverse (sharding : Sharding) : Prop :=
  (∀ shard < sharding.factors.prod, ∃ index, computeTileIndex shard sharding = .ok index ∧
    computeTileShard index sharding = .ok shard) ∧
  ∀ index, Digits sharding.factors index → ∃ shard,
    computeTileShard index sharding = .ok shard ∧ computeTileIndex shard sharding = .ok index

namespace Sharding

/-- The permutation fields of the dimensions that are cut, in storage order, increase. -/
def ShardedInOrder (sharding : Sharding) : Prop :=
  ((sharding.dims.filter fun dim ↦ decide (1 < dim.sharding)).map
    ShardingDim.permutation).Pairwise (· < ·)

instance (sharding : Sharding) : Decidable sharding.ShardedInOrder :=
  inferInstanceAs (Decidable (List.Pairwise _ _))

def dimAt (sharding : Sharding) (p : ℕ) : ShardingDim := sharding.dims.getD p ⟨1, 1, 0⟩

variable {sharding : Sharding}

theorem map_dimAt_range : (List.range sharding.dims.length).map sharding.dimAt = sharding.dims := by
  apply List.ext_getElem
  · simp
  · intro p hp hp'
    simp [dimAt, hp']

theorem factors_eq_map : sharding.factors =
    (List.range sharding.dims.length).map fun p ↦ (sharding.dimAt p).sharding := by
  conv_lhs => rw [factors, ← map_dimAt_range, List.map_map]
  rfl

theorem permutations_getElem? {p : ℕ} (hp : p < sharding.dims.length) :
    sharding.permutations[p]? = some (sharding.dimAt p).permutation := by
  rw [permutations, List.getElem?_map, List.getElem?_eq_getElem hp, dimAt,
    List.getD_eq_getElem _ _ hp]
  rfl

theorem factors_getElem? {p : ℕ} (hp : p < sharding.dims.length) :
    sharding.factors[p]? = some (sharding.dimAt p).sharding := by
  rw [factors, List.getElem?_map, List.getElem?_eq_getElem hp, dimAt,
    List.getD_eq_getElem _ _ hp]
  rfl

/-- The unpermuted factors are the factors read at the unpermuted positions. -/
theorem extents_eq_map (h : Covers sharding.dims.length sharding.permutations) :
    sharding.extents = sharding.positions.map fun p ↦ (sharding.dimAt p).sharding := by
  apply List.ext_getElem?
  intro k
  by_cases hk : k < sharding.dims.length
  · obtain ⟨p, hp, hpk⟩ := Covers.exists_getElem? h hk
    rw [getElem?_extents h hpk, factors_getElem? hp, List.getElem?_map,
      getElem?_positions h hpk]
    rfl
  · rw [List.getElem?_eq_none (by simpa using hk), List.getElem?_eq_none (by simpa using hk)]

/-- The unpermuted positions are sorted by their permutation fields. -/
theorem pairwise_positions (h : Covers sharding.dims.length sharding.permutations) :
    sharding.positions.Pairwise fun p q ↦
      (sharding.dimAt p).permutation < (sharding.dimAt q).permutation := by
  have hsorted : (sharding.positions.map fun p ↦ (sharding.dimAt p).permutation) =
      List.range sharding.dims.length := by
    apply List.ext_getElem?
    intro k
    by_cases hk : k < sharding.dims.length
    · obtain ⟨p, hp, hpk⟩ := Covers.exists_getElem? h hk
      rw [List.getElem?_map, getElem?_positions h hpk, Option.map_some, ← permutations_getElem? hp,
        hpk, List.getElem?_range hk]
    · rw [List.getElem?_eq_none (by simpa using hk), List.getElem?_eq_none (by simpa using hk)]
  rw [← List.pairwise_map (f := fun p ↦ (sharding.dimAt p).permutation) (R := (· < ·)), hsorted]
  exact List.pairwise_lt_range

/-- A list sorted by the permutation fields is determined by its positions. -/
theorem shardedInOrder_iff (h : Covers sharding.dims.length sharding.permutations) :
    sharding.ShardedInOrder ↔
      ((List.range sharding.dims.length).filter fun p ↦ decide (1 < (sharding.dimAt p).sharding)) =
        sharding.positions.filter fun p ↦ decide (1 < (sharding.dimAt p).sharding) := by
  have hsorted := (pairwise_positions h).filter fun p ↦ decide (1 < (sharding.dimAt p).sharding)
  have hfields : (sharding.dims.filter fun dim ↦ decide (1 < dim.sharding)).map
      ShardingDim.permutation =
      ((List.range sharding.dims.length).filter fun p ↦
        decide (1 < (sharding.dimAt p).sharding)).map fun p ↦ (sharding.dimAt p).permutation := by
    conv_lhs => rw [← map_dimAt_range, List.filter_map, List.map_map]
    rfl
  rw [ShardedInOrder, hfields, List.pairwise_map]
  constructor
  · intro hstorage
    apply List.Perm.eq_of_pairwise _ hstorage hsorted
    · exact (positions_covers h).symm.filter _
    · intro p q _ _ hlt hgt
      omega
  · intro heq
    rw [heq]
    exact hsorted

end Sharding

section

variable {sharding : Sharding}

/-- The round trips say that encoding in storage order is the inverse of the
unpermuted decoding. -/
theorem tileShardInverse_iff_encode (hpos : ∀ dim ∈ sharding.dims, 1 ≤ dim.sharding)
    (hfits : sharding.factors.prod < int64Bound)
    (h : Covers sharding.dims.length sharding.permutations) :
    TileShardInverse sharding ↔ ∀ index, Digits sharding.factors index →
      encode sharding.factors index = sharding.tileShard index := by
  have hlen {index : List ℕ} (hindex : Digits sharding.factors index) :
      index.length = sharding.dims.length := by
    simpa using hindex.length_eq
  constructor
  · rintro ⟨-, hindices⟩ index hindex
    obtain ⟨shard, hshard, hback⟩ := hindices index hindex
    rw [computeTileShard_eq (hlen hindex)] at hshard
    obtain rfl := Except.ok.inj hshard
    rw [computeTileIndex_eq h hpos hfits] at hback
    conv_rhs => rw [← Except.ok.inj hback, tileShard_tileIndex h (encode_lt hindex)]
  · intro hencode
    constructor
    · intro shard hshard
      have hdigits := tileIndex_digits h hshard
      refine ⟨_, computeTileIndex_eq h hpos hfits shard, ?_⟩
      rw [computeTileShard_eq (hlen hdigits), hencode _ hdigits, tileShard_tileIndex h hshard]
    · intro index hindex
      refine ⟨_, computeTileShard_eq (hlen hindex), ?_⟩
      rw [computeTileIndex_eq h hpos hfits, hencode index hindex, tileIndex_tileShard h hindex]

/-- Indices over all dimensions are functions on the positions. -/
theorem forall_encode_iff (h : Covers sharding.dims.length sharding.permutations) :
    (∀ index, Digits sharding.factors index →
      encode sharding.factors index = sharding.tileShard index) ↔
    ∀ d : ℕ → ℕ, (∀ p ∈ List.range sharding.dims.length, d p < (sharding.dimAt p).sharding) →
      encode ((List.range sharding.dims.length).map fun p ↦ (sharding.dimAt p).sharding)
        ((List.range sharding.dims.length).map d) =
      encode (sharding.positions.map fun p ↦ (sharding.dimAt p).sharding)
        (sharding.positions.map d) := by
  have hread (index : List ℕ) (hlen : index.length = sharding.dims.length) :
      ((List.range sharding.dims.length).map fun p ↦ index.getD p 0) = index := by
    apply List.ext_getElem
    · simp [hlen]
    · intro p hp hp'
      simp [hp']
  constructor
  · intro hencode d hd
    have hindex := map_digits hd
    rw [← Sharding.factors_eq_map] at hindex
    have hvalue := hencode _ hindex
    rw [Sharding.tileShard, Sharding.extents_eq_map h, Sharding.factors_eq_map] at hvalue
    rw [hvalue]
    congr 1
    apply List.map_congr_left
    intro p hp
    have hp := (positions_covers h).mem_iff.mp hp
    simp [List.getD_eq_getElem?_getD, hp]
  · intro hd index hindex
    have hlen : index.length = sharding.dims.length := by simpa using hindex.length_eq
    have hvalue := hd (fun p ↦ index.getD p 0) (by
      intro p hp
      exact hindex.getD_lt (Sharding.factors_getElem? (List.mem_range.mp hp)))
    rw [hread index hlen, ← Sharding.factors_eq_map, ← Sharding.extents_eq_map h] at hvalue
    exact hvalue

/-- Shard 0 is decoded, with the product of all factors as its stride. -/
theorem TileShardInverse.factors_fit (hinverse : TileShardInverse sharding)
    (hpos : ∀ dim ∈ sharding.dims, 1 ≤ dim.sharding)
    (h : Covers sharding.dims.length sharding.permutations) :
    sharding.factors.prod < int64Bound := by
  have hprod : 0 < sharding.factors.prod := by
    apply List.prod_pos
    intro b hb
    obtain ⟨dim, hdim, rfl⟩ := List.mem_map.mp hb
    exact hpos dim hdim
  obtain ⟨index, hindex, -⟩ := hinverse.1 0 hprod
  exact factors_fit_of_computeTileIndex h hindex

end

/-- Encoding and decoding are inverse exactly when the product of the factors
does not overflow and the permutation fields of the dimensions that are cut
increase in storage order. -/
theorem tileShard_inverse_iff (sharding : Sharding)
    (hpos : ∀ dim ∈ sharding.dims, 1 ≤ dim.sharding)
    (hbijective : Covers sharding.dims.length sharding.permutations) :
    TileShardInverse sharding ↔
      sharding.factors.prod < int64Bound ∧
      ((sharding.dims.filter fun dim ↦ decide (1 < dim.sharding)).map
        ShardingDim.permutation).Pairwise (· < ·) := by
  have horder (hfits : sharding.factors.prod < int64Bound) :
      TileShardInverse sharding ↔ sharding.ShardedInOrder := by
    rw [tileShardInverse_iff_encode hpos hfits hbijective, forall_encode_iff hbijective,
      encode_order_iff (positions_covers hbijective).symm List.nodup_range]
    · exact (Sharding.shardedInOrder_iff hbijective).symm
    · intro p hp
      have hp := List.mem_range.mp hp
      rw [Sharding.dimAt, List.getD_eq_getElem _ _ hp]
      exact hpos _ (List.getElem_mem hp)
  constructor
  · intro hinverse
    have hfits := hinverse.factors_fit hpos hbijective
    exact ⟨hfits, (horder hfits).mp hinverse⟩
  · rintro ⟨hfits, hpairwise⟩
    exact (horder hfits).mpr hpairwise

/-- A dimension that is not cut may stand anywhere. -/
theorem tileShard_inverse_around_whole :
    TileShardInverse ⟨[⟨8, 2, 1⟩, ⟨5, 1, 0⟩, ⟨9, 3, 2⟩], ⟨0, 6⟩⟩ :=
  (tileShard_inverse_iff ⟨[⟨8, 2, 1⟩, ⟨5, 1, 0⟩, ⟨9, 3, 2⟩], ⟨0, 6⟩⟩ (by decide)
    (by decide)).mpr ⟨by decide, by decide⟩

/-- With two dimensions in the opposite order, shard 1 has the tile index
`[1, 0]`, which is encoded as 3. -/
theorem not_tileShard_inverse_transposed :
    ¬ ∀ sharding : Sharding, (∀ dim ∈ sharding.dims, 1 ≤ dim.sharding) →
      Covers sharding.dims.length sharding.permutations → TileShardInverse sharding := by
  intro h
  obtain ⟨hshards, -⟩ := h ⟨[⟨4, 2, 1⟩, ⟨6, 3, 0⟩], ⟨0, 6⟩⟩ (by decide) (by decide)
  obtain ⟨index, hindex, hshard⟩ := hshards 1 (by decide)
  obtain rfl : [1, 0] = index := Except.ok.inj ((by decide : _ = _).trans hindex)
  exact absurd hshard (by decide)

end Zuku
