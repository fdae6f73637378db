import Zuku.TiledArray

/-!
# The tile index is a numbering of the box of tile indices

For a bijective permutation, decoding a shard id in the unpermuted radices and
writing the digits back at their own positions is a bijection onto the digit
lists of the sharding factors.  `tileShard` is its inverse.
-/

namespace Zuku

open Checked IndexedWrites MixedRadix

namespace Sharding

/-- The sharding factors, unpermuted. -/
def extents (sharding : Sharding) : List ℕ :=
  writeAll (List.replicate sharding.dims.length 0) (sharding.permutations.zip sharding.factors)

/-- The storage position of every unpermuted dimension. -/
def positions (sharding : Sharding) : List ℕ :=
  writeAll (List.replicate sharding.dims.length 0)
    (sharding.permutations.zip (List.range sharding.dims.length))

def tileIndex (sharding : Sharding) (shard : ℕ) : List ℕ :=
  writeAll (List.replicate sharding.dims.length 0)
    (sharding.positions.zip (decode sharding.extents shard))

def tileShard (sharding : Sharding) (index : List ℕ) : ℕ :=
  encode sharding.extents (sharding.positions.map fun p ↦ index.getD p 0)

@[simp] theorem length_extents (sharding : Sharding) :
    sharding.extents.length = sharding.dims.length := by simp [extents]

@[simp] theorem length_positions (sharding : Sharding) :
    sharding.positions.length = sharding.dims.length := by simp [positions]

@[simp] theorem length_tileIndex (sharding : Sharding) (shard : ℕ) :
    (sharding.tileIndex shard).length = sharding.dims.length := by simp [tileIndex]

end Sharding

/-! ## The loops write the unpermuted vectors -/

theorem unpermute_eq (dims : List ShardingDim) (pDim : ℕ) (shardExtents permutation : List ℕ)
    (hlen : permutation.length = shardExtents.length)
    (hlt : ∀ dim ∈ dims, dim.permutation < shardExtents.length) :
    unpermute dims pDim shardExtents permutation =
      .ok (writeAll shardExtents
          ((dims.map ShardingDim.permutation).zip (dims.map ShardingDim.sharding)),
        writeAll permutation
          ((dims.map ShardingDim.permutation).zip (List.range' pDim dims.length))) := by
  induction dims generalizing pDim shardExtents permutation with
  | nil => simp [unpermute]
  | cons dim dims ih =>
      have hdim := hlt dim List.mem_cons_self
      rw [unpermute, vectorSet_of_lt hdim, ok_bind, vectorSet_of_lt (hlen ▸ hdim), ok_bind,
        ih (pDim + 1) _ _ (by simpa using hlen)
          (fun d hd ↦ by simpa using hlt d (List.mem_cons_of_mem _ hd))]
      simp [List.range'_succ]

theorem splitIndex_eq (extents positions : List ℕ) (hlen : positions.length = extents.length)
    (hpos : ∀ b ∈ extents, 0 < b) (remainder : ℕ) (indices : List ℕ)
    (hlt : ∀ p ∈ positions, p < indices.length) :
    splitIndex (extents.zip positions) extents.prod remainder indices =
      .ok (writeAll indices (positions.zip (decode extents remainder))) := by
  induction extents generalizing positions remainder indices with
  | nil => simp [splitIndex, decode]
  | cons b bs ih =>
      cases positions with
      | nil => simp at hlen
      | cons p ps =>
          have hb : 0 < b := hpos b List.mem_cons_self
          have hbs : ∀ c ∈ bs, 0 < c := fun c hc ↦ hpos c (List.mem_cons_of_mem _ hc)
          have hprod : 0 < bs.prod := List.prod_pos hbs
          have hstride : (b :: bs).prod / b = bs.prod := by
            rw [List.prod_cons, Nat.mul_div_cancel_left _ hb]
          have hrem : remainder - remainder / bs.prod * bs.prod = remainder % bs.prod := by
            rw [Nat.mod_eq_sub_div_mul]
          rw [List.zip_cons_cons, splitIndex, checkedDiv_of_pos hb, ok_bind, hstride,
            checkedDiv_of_pos hprod, ok_bind, vectorSet_of_lt (hlt p List.mem_cons_self), ok_bind,
            hrem, ih ps (by simpa using hlen) hbs _ _
              (fun q hq ↦ by simpa using hlt q (List.mem_cons_of_mem _ hq))]
          simp [decode]

section

variable {sharding : Sharding}

theorem permutation_lt (h : Covers sharding.dims.length sharding.permutations)
    {dim : ShardingDim} (hdim : dim ∈ sharding.dims) : dim.permutation < sharding.dims.length :=
  h.mem_iff.mp (List.mem_map_of_mem hdim)

theorem extents_perm (h : Covers sharding.dims.length sharding.permutations) :
    sharding.extents.Perm sharding.factors :=
  writeAll_zip_perm h (by simp) (by simp)

theorem positions_covers (h : Covers sharding.dims.length sharding.permutations) :
    Covers sharding.dims.length sharding.positions :=
  writeAll_zip_perm h (by simp) (by simp)

theorem extents_pos (h : Covers sharding.dims.length sharding.permutations)
    (hpos : ∀ dim ∈ sharding.dims, 1 ≤ dim.sharding) : ∀ b ∈ sharding.extents, 0 < b := by
  intro b hb
  obtain ⟨dim, hdim, rfl⟩ := List.mem_map.mp ((extents_perm h).mem_iff.mp hb)
  exact hpos dim hdim

theorem checkedProd_factors (hpos : ∀ dim ∈ sharding.dims, 1 ≤ dim.sharding)
    (hfits : sharding.factors.prod < int64Bound) :
    checkedProd sharding.factors = .ok sharding.factors.prod := by
  apply checkedProd_of_lt _ hfits
  intro b hb
  obtain ⟨dim, hdim, rfl⟩ := List.mem_map.mp hb
  exact hpos dim hdim

theorem factors_fit (hprod : sharding.factors.prod = sharding.devices.size) :
    sharding.factors.prod < int64Bound := hprod ▸ sharding.devices.size_lt

theorem computeTileIndex_eq (h : Covers sharding.dims.length sharding.permutations)
    (hpos : ∀ dim ∈ sharding.dims, 1 ≤ dim.sharding) (hfits : sharding.factors.prod < int64Bound)
    (shard : ℕ) : computeTileIndex shard sharding = .ok (sharding.tileIndex shard) := by
  have hunpermute := unpermute_eq sharding.dims 0 (List.replicate sharding.dims.length 0)
    (List.replicate sharding.dims.length 0) rfl
    (fun dim hdim ↦ by simpa using permutation_lt h hdim)
  have hsplit := splitIndex_eq sharding.extents sharding.positions (by simp)
    (extents_pos h hpos) shard (List.replicate sharding.dims.length 0)
    (fun p hp ↦ by simpa using (positions_covers h).mem_iff.mp hp)
  have hstride : checkedProd sharding.extents = .ok sharding.extents.prod :=
    checkedProd_of_lt (extents_pos h hpos) ((extents_perm h).prod_eq ▸ hfits)
  rw [computeTileIndex, hunpermute]
  simp only [ok_bind, ← List.range_eq_range']
  change checkedProd sharding.extents >>= _ = _
  rw [hstride]
  exact hsplit

/-- The stride that the decoding starts from is the product of all factors. -/
theorem factors_fit_of_computeTileIndex (h : Covers sharding.dims.length sharding.permutations)
    {shard : ℕ} {index : List ℕ} (hindex : computeTileIndex shard sharding = .ok index) :
    sharding.factors.prod < int64Bound := by
  have hunpermute := unpermute_eq sharding.dims 0 (List.replicate sharding.dims.length 0)
    (List.replicate sharding.dims.length 0) rfl
    (fun dim hdim ↦ by simpa using permutation_lt h hdim)
  rw [computeTileIndex, hunpermute, ok_bind] at hindex
  obtain ⟨stride, hstride, -⟩ := bind_eq_ok_iff.mp hindex
  obtain ⟨rfl, hfits⟩ := checkedProd_eq_ok hstride
  exact (extents_perm h).prod_eq ▸ hfits

theorem Sharding.Tileable.factors_fit (h : sharding.Tileable) :
    sharding.factors.prod < int64Bound := Zuku.factors_fit h.devices_eq

theorem Sharding.Tileable.computeTileIndex_eq (h : sharding.Tileable) (shard : ℕ) :
    Zuku.computeTileIndex shard sharding = .ok (sharding.tileIndex shard) :=
  Zuku.computeTileIndex_eq h.bijective h.sharding_pos h.factors_fit shard

example : computeTileIndex 15 ⟨[⟨8, 2, 2⟩, ⟨1, 4, 0⟩, ⟨9, 3, 1⟩], ⟨0, 24⟩⟩ = .ok [1, 2, 1] := by
  decide

/-! ## Coordinates of the unpermuted vectors -/

theorem getElem?_extents (h : Covers sharding.dims.length sharding.permutations) {p k : ℕ}
    (hp : sharding.permutations[p]? = some k) :
    sharding.extents[k]? = sharding.factors[p]? :=
  getElem?_writeAll_zip h (by simp) (by simp) hp

theorem getElem?_positions (h : Covers sharding.dims.length sharding.permutations) {p k : ℕ}
    (hp : sharding.permutations[p]? = some k) : sharding.positions[k]? = some p := by
  have hlt : p < sharding.dims.length := by
    obtain ⟨hlt, -⟩ := List.getElem?_eq_some_iff.mp hp
    simpa using hlt
  rw [Sharding.positions, getElem?_writeAll_zip h (by simp) (by simp) hp,
    List.getElem?_range hlt]

theorem getElem?_tileIndex (h : Covers sharding.dims.length sharding.permutations) {p k : ℕ}
    (hp : sharding.permutations[p]? = some k) (shard : ℕ) :
    (sharding.tileIndex shard)[p]? = (decode sharding.extents shard)[k]? :=
  getElem?_writeAll_zip (positions_covers h) (by simp) (by simp) (getElem?_positions h hp)

theorem exists_permutations_getElem? {p : ℕ} (hp : p < sharding.dims.length) :
    ∃ k, sharding.permutations[p]? = some k :=
  ⟨_, List.getElem?_eq_getElem (by simpa using hp)⟩

theorem tileIndex_digits (h : Covers sharding.dims.length sharding.permutations) {shard : ℕ}
    (hshard : shard < sharding.factors.prod) :
    Digits sharding.factors (sharding.tileIndex shard) := by
  rw [← (extents_perm h).prod_eq] at hshard
  have hdigits := (digits_iff_getElem?.mp (decode_digits hshard)).2
  refine digits_iff_getElem?.mpr ⟨by simp, fun p d b hd hb ↦ ?_⟩
  obtain ⟨hp, -⟩ := List.getElem?_eq_some_iff.mp hb
  obtain ⟨k, hk⟩ := exists_permutations_getElem? (by simpa using hp)
  rw [getElem?_tileIndex h hk] at hd
  rw [← getElem?_extents h hk] at hb
  exact hdigits k d b hd hb

/-- Reading an index at the unpermuted positions gives digits of the unpermuted factors. -/
theorem unpermuted_digits (h : Covers sharding.dims.length sharding.permutations)
    {index : List ℕ} (hindex : Digits sharding.factors index) :
    Digits sharding.extents (sharding.positions.map fun p ↦ index.getD p 0) := by
  obtain ⟨hlen, hdigits⟩ := digits_iff_getElem?.mp hindex
  refine digits_iff_getElem?.mpr ⟨by simp, fun k d b hd hb ↦ ?_⟩
  obtain ⟨hk, -⟩ := List.getElem?_eq_some_iff.mp hb
  obtain ⟨p, hp, hpk⟩ := Covers.exists_getElem? h (by simpa using hk)
  rw [List.getElem?_map, getElem?_positions h hpk, Option.map_some, Option.some.injEq] at hd
  rw [getElem?_extents h hpk] at hb
  have hpi : p < index.length := by rw [hlen]; simpa using hp
  rw [List.getD_eq_getElem _ _ hpi] at hd
  exact hdigits p d b (by rw [List.getElem?_eq_getElem hpi, hd]) hb

theorem tileIndex_tileShard (h : Covers sharding.dims.length sharding.permutations)
    {index : List ℕ} (hindex : Digits sharding.factors index) :
    sharding.tileIndex (sharding.tileShard index) = index := by
  have hlen : index.length = sharding.dims.length := by simpa using hindex.length_eq
  apply List.ext_getElem?
  intro p
  by_cases hp : p < sharding.dims.length
  · obtain ⟨k, hk⟩ := exists_permutations_getElem? hp
    have hpi : p < index.length := hlen ▸ hp
    rw [getElem?_tileIndex h hk, Sharding.tileShard, decode_encode (unpermuted_digits h hindex),
      List.getElem?_map, getElem?_positions h hk, Option.map_some,
      List.getD_eq_getElem _ _ hpi, List.getElem?_eq_getElem hpi]
  · rw [List.getElem?_eq_none (by simpa using hp), List.getElem?_eq_none (by omega)]

theorem tileShard_tileIndex (h : Covers sharding.dims.length sharding.permutations) {shard : ℕ}
    (hshard : shard < sharding.factors.prod) :
    sharding.tileShard (sharding.tileIndex shard) = shard := by
  rw [← (extents_perm h).prod_eq] at hshard
  have hread : (sharding.positions.map fun p ↦ (sharding.tileIndex shard).getD p 0) =
      decode sharding.extents shard := by
    apply List.ext_getElem?
    intro k
    by_cases hk : k < sharding.dims.length
    · obtain ⟨p, hp, hpk⟩ := Covers.exists_getElem? h hk
      have hpi : p < (sharding.tileIndex shard).length := by simpa using hp
      rw [List.getElem?_map, getElem?_positions h hpk, Option.map_some,
        List.getD_eq_getElem _ _ hpi, ← List.getElem?_eq_getElem hpi,
        getElem?_tileIndex h hpk]
    · rw [List.getElem?_eq_none (by simpa using hk), List.getElem?_eq_none (by simpa using hk)]
  rw [Sharding.tileShard, hread, encode_decode hshard]

theorem tileShard_lt (h : Covers sharding.dims.length sharding.permutations) {index : List ℕ}
    (hindex : Digits sharding.factors index) :
    sharding.tileShard index < sharding.factors.prod := by
  rw [← (extents_perm h).prod_eq]
  exact encode_lt (unpermuted_digits h hindex)

theorem tileIndex_injOn (h : Covers sharding.dims.length sharding.permutations) {s t : ℕ}
    (hs : s < sharding.factors.prod) (ht : t < sharding.factors.prod)
    (heq : sharding.tileIndex s = sharding.tileIndex t) : s = t := by
  rw [← tileShard_tileIndex h hs, heq, tileShard_tileIndex h ht]

/-! ## Horner's loop

`computeTileShard` reads the factors in storage order, so it inverts
`computeTileIndex` when the permutation is the identity. -/

theorem computeTileShardLoop_eq (dims : List ShardingDim) (k index : ℕ) (indices : List ℕ)
    (hlen : indices.length + k = dims.length) :
    computeTileShardLoop dims k index indices =
      .ok (index * ((dims.drop k).map ShardingDim.sharding).prod +
        encode ((dims.drop k).map ShardingDim.sharding) indices) := by
  induction indices generalizing k index with
  | nil =>
      have hk : dims.drop k = [] := List.drop_eq_nil_of_le (by simp at hlen; omega)
      simp [computeTileShardLoop, hk, encode]
  | cons i indices ih =>
      have hk : k < dims.length := by simp at hlen; omega
      rw [computeTileShardLoop, vectorAt_of_getElem? (List.getElem?_eq_getElem hk), ok_bind,
        ih (k + 1) _ (by simp at hlen; omega), List.drop_eq_getElem_cons hk, List.map_cons,
        List.prod_cons, encode, Except.ok.injEq]
      ring

theorem computeTileShard_eq {index : List ℕ} (hlen : index.length = sharding.dims.length) :
    computeTileShard index sharding = .ok (encode sharding.factors index) := by
  cases index with
  | nil =>
      have hdims : sharding.dims = [] := List.eq_nil_of_length_eq_zero hlen.symm
      simp [computeTileShard, Sharding.factors, hdims, encode]
  | cons i index =>
      cases hdims : sharding.dims with
      | nil => simp [hdims] at hlen
      | cons dim dims =>
          have hlen' : index.length + 1 = (dim :: dims).length := by rw [← hdims, ← hlen]; rfl
          rw [computeTileShard, hdims, computeTileShardLoop_eq _ _ _ _ hlen']
          simp [Sharding.factors, hdims, encode]

/-- Every dimension is at its own place. -/
def Sharding.StorageOrder (sharding : Sharding) : Prop :=
  sharding.permutations = List.range sharding.dims.length

instance (sharding : Sharding) : Decidable sharding.StorageOrder :=
  inferInstanceAs (Decidable (_ = _))

theorem Sharding.StorageOrder.covers (h : sharding.StorageOrder) :
    Covers sharding.dims.length sharding.permutations := by
  unfold Sharding.StorageOrder at h
  rw [h]
  exact List.Perm.refl _

theorem tileShard_of_storageOrder (h : sharding.StorageOrder) {index : List ℕ}
    (hlen : index.length = sharding.dims.length) :
    sharding.tileShard index = encode sharding.factors index := by
  have hself : ∀ p < sharding.dims.length, sharding.permutations[p]? = some p := by
    intro p hp
    unfold Sharding.StorageOrder at h
    rw [h, List.getElem?_range hp]
  have hextents : sharding.extents = sharding.factors := by
    apply List.ext_getElem?
    intro p
    by_cases hp : p < sharding.dims.length
    · exact getElem?_extents h.covers (hself p hp)
    · rw [List.getElem?_eq_none (by simpa using hp), List.getElem?_eq_none (by simpa using hp)]
  have hread : (sharding.positions.map fun p ↦ index.getD p 0) = index := by
    apply List.ext_getElem?
    intro p
    by_cases hp : p < sharding.dims.length
    · have hpi : p < index.length := hlen ▸ hp
      rw [List.getElem?_map, getElem?_positions h.covers (hself p hp), Option.map_some,
        List.getD_eq_getElem _ _ hpi, List.getElem?_eq_getElem hpi]
    · rw [List.getElem?_eq_none (by simpa using hp), List.getElem?_eq_none (by omega)]
  rw [Sharding.tileShard, hextents, hread]

/-! ## Enumeration -/

/-- The tile indices of all shards enumerate the box of tile indices. -/
theorem map_tileIndex_perm_cells (h : Covers sharding.dims.length sharding.permutations) :
    ((List.range sharding.factors.prod).map sharding.tileIndex).Perm (cells sharding.factors) :=
  map_range_perm_cells sharding.tileIndex (fun _ hs ↦ tileIndex_digits h hs)
    (fun _ hs _ ht heq ↦ tileIndex_injOn h hs ht heq)
    fun index hindex ↦ ⟨sharding.tileShard index, tileShard_lt h hindex,
      tileIndex_tileShard h hindex⟩

end

end Zuku
