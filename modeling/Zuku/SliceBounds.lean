import Zuku.ScatterGather
import Zuku.TileBox
import Zuku.TileDecomposition

/-!
# The slices of a shard cut its tile

When two shardings of one array differ in the factor of one dimension, a tile of
the coarser one is cut by the tiles of the finer one whose index it multiplies
out to, and a tile of the finer one is a single slice.
-/

namespace Zuku

open Checked IndexedWrites MixedRadix

/-- A fully sharded array in equal pieces.  A dimension that is cut into more
pieces than it has elements is a replication dimension. -/
structure Sharding.EvenlyCut (sharding : Sharding) : Prop where
  sharding_pos : ∀ dim ∈ sharding.dims, 1 ≤ dim.sharding
  no_replication : ∀ dim ∈ sharding.dims, ¬dim.size < dim.sharding
  divides : ∀ dim ∈ sharding.dims, dim.sharding ∣ dim.size
  bijective : Covers sharding.dims.length sharding.permutations
  full : sharding.fullySharded = true

/-- Two shardings of one array that differ in the factor of one dimension. -/
structure Recut (src dst : Sharding) (dim : ℕ) (x y : ShardingDim) : Prop where
  src_dim : src.dims[dim]? = some x
  dst_dims : dst.dims = src.dims.set dim y
  same_size : x.size = y.size
  same_permutation : x.permutation = y.permutation
  ne : x.sharding ≠ y.sharding

/-- The slices are disjoint and together they are the tile. -/
def CutsTile (slices : List RealmShape) (tile : RealmShape) : Prop :=
  slices.Pairwise (fun a b ↦ ∀ point, ¬(a.Contains point ∧ b.Contains point)) ∧
    ∀ point, tile.Contains point ↔ ∃ slice ∈ slices, slice.Contains point

/-- The slices of a shard cut its tile, and each is for another shard. -/
structure SlicesCut [RealmBuild] (sharding : Sharding) (shard : ℕ) (own peer : SliceConfig → ℕ)
    (slices : List SliceConfig) : Prop where
  tile : ∃ tile, computeTileBounds shard sharding = .ok tile ∧
    CutsTile (slices.map SliceConfig.bounds) tile
  own_eq : ∀ slice ∈ slices, own slice = shard
  nodup_peer : (slices.map peer).Nodup

theorem Recut.symm {src dst : Sharding} {dim : ℕ} {x y : ShardingDim} (h : Recut src dst dim x y) :
    Recut dst src dim y x := by
  obtain ⟨hlt, hx⟩ := List.getElem?_eq_some_iff.mp h.src_dim
  refine ⟨?_, ?_, h.same_size.symm, h.same_permutation.symm, h.ne.symm⟩
  · rw [h.dst_dims, List.getElem?_set_self hlt]
  · rw [h.dst_dims, List.set_set, ← hx, List.set_getElem_self]

theorem Recut.length_eq {src dst : Sharding} {dim : ℕ} {x y : ShardingDim}
    (h : Recut src dst dim x y) : dst.dims.length = src.dims.length := by
  rw [h.dst_dims, List.length_set]

theorem Recut.dims_ne_nil {src dst : Sharding} {dim : ℕ} {x y : ShardingDim}
    (h : Recut src dst dim x y) : src.dims ≠ [] ∧ dim < src.dims.length := by
  obtain ⟨hlt, -⟩ := List.getElem?_eq_some_iff.mp h.src_dim
  exact ⟨List.ne_nil_of_length_pos (Nat.zero_lt_of_lt hlt), hlt⟩

namespace Sharding.EvenlyCut

variable {sharding : Sharding}

section

variable (h : sharding.EvenlyCut)

include h

theorem size_pos : ∀ dim ∈ sharding.dims, 1 ≤ dim.size := by
  intro dim hdim
  have hpos := h.sharding_pos dim hdim
  have hle := h.no_replication dim hdim
  omega

theorem isReplication_eq : ∀ dim ∈ sharding.dims, dim.isReplication = false := by
  intro dim hdim
  have hle := h.no_replication dim hdim
  rw [ShardingDim.isReplication, Bool.and_eq_false_iff, decide_eq_false_iff_not,
    decide_eq_false_iff_not]
  omega

theorem replication_eq : sharding.replication = 1 := by
  have hnil : sharding.dims.filter ShardingDim.isReplication = [] :=
    List.filter_eq_nil_iff.mpr fun dim hdim ↦ by simp [h.isReplication_eq dim hdim]
  rw [Sharding.replication, hnil]
  rfl

theorem tileable : sharding.Tileable where
  size_pos := h.size_pos
  sharding_pos := h.sharding_pos
  bijective := h.bijective
  divides dim hdim := .inl (h.divides dim hdim)
  devices_eq := by
    have htotal := totalSharding_mul_replication_eq_prod h.size_pos h.sharding_pos
      fun dim hdim ↦ .inl (h.divides dim hdim)
    rw [h.replication_eq, mul_one] at htotal
    rw [← htotal]
    exact of_decide_eq_true h.full

theorem atMostOneReplication : sharding.AtMostOneReplication := by
  have hnil : sharding.dims.filter ShardingDim.isReplication = [] :=
    List.filter_eq_nil_iff.mpr fun dim hdim ↦ by simp [h.isReplication_eq dim hdim]
  rw [Sharding.AtMostOneReplication, hnil]
  exact Nat.zero_le 1

theorem realDims_eq : sharding.realDims = sharding.dims :=
  List.filter_eq_self.mpr fun dim hdim ↦ by simp [h.isReplication_eq dim hdim]

theorem tileSize_pos : ∀ dim ∈ sharding.dims, 0 < dim.size / dim.sharding := by
  intro dim hdim
  exact extent_pos (h.size_pos dim hdim) (h.divides dim hdim)

end

/-- The rectangle of a tile index. -/
def box (sharding : Sharding) (index : List ℕ) : RealmShape :=
  ⟨sharding.dims.length, List.zipWith ShardingDim.interval sharding.dims index⟩

variable [RealmBuild] (h : sharding.EvenlyCut) (hne : sharding.dims ≠ [])

include h hne

theorem makeTileBox_eq_ok_iff {index : List ℕ} (hlen : index.length = sharding.dims.length)
    {rect : RealmShape} : makeTileBox index sharding = .ok rect ↔
      SupportedRank sharding.dims.length ∧ rect = box sharding index := by
  have hreal : sharding.realDims ≠ [] := h.realDims_eq ▸ hne
  rw [makeTileBox_eq h.tileable h.atMostOneReplication (.inl h.isReplication_eq) hreal hlen,
    boxIntervals, h.realDims_eq]
  rfl

theorem computeTileBounds_eq_ok_iff {shard : ℕ} (hshard : shard < sharding.devices.size)
    {rect : RealmShape} : computeTileBounds shard sharding = .ok rect ↔
      SupportedRank sharding.dims.length ∧ rect = box sharding (sharding.tileIndex shard) := by
  have hreal : sharding.realDims ≠ [] := h.realDims_eq ▸ hne
  rw [Zuku.computeTileBounds_eq_ok_iff h.tileable h.atMostOneReplication hreal hshard,
    boxIntervals, h.realDims_eq, realIndex_eq_self _ h.isReplication_eq (by simp)]
  rfl

end Sharding.EvenlyCut

open Sharding.EvenlyCut (box)

/-! ## Cutting one dimension -/

/-- The quotient by a product, from the quotient by one factor. -/
theorem ediv_mul_eq_iff {q : ℕ} (hq : 0 < q) (v : ℤ) (w i : ℕ) :
    v / ((q * w : ℕ) : ℤ) = i ↔ ∃ k < q, v / (w : ℤ) = ((i * q + k : ℕ) : ℤ) := by
  have hpos : (0 : ℤ) < (q : ℤ) := by exact_mod_cast hq
  have hdiv : v / ((q * w : ℕ) : ℤ) = v / (w : ℤ) / (q : ℤ) := by
    rw [Nat.mul_comm, Nat.cast_mul, ← Int.ediv_ediv_of_nonneg (Int.natCast_nonneg w)]
  rw [hdiv, Int.ediv_eq_iff_of_pos hpos]
  push_cast
  constructor
  · rintro ⟨hlo, hhi⟩
    refine ⟨(v / (w : ℤ) - i * q).toNat, ?_, ?_⟩ <;> omega
  · rintro ⟨k, hk, hv⟩
    rw [hv]
    have hk : (k : ℤ) < q := by exact_mod_cast hk
    constructor
    · omega
    · linarith

section

variable {x y : ShardingDim} {q : ℕ}

/-- An interval of the coarser cut is the union of `q` intervals of the finer one. -/
theorem mem_interval_recut_iff (hsize : x.size = y.size) (hfactor : x.sharding = y.sharding * q)
    (hdvd : x.sharding ∣ x.size) (hx : 0 < x.size / x.sharding) (hq : 0 < q) (i : ℕ) (v : ℤ) :
    ((y.interval i).1 ≤ v ∧ v ≤ (y.interval i).2) ↔ ∃ k < q,
      (x.interval (i * q + k)).1 ≤ v ∧ v ≤ (x.interval (i * q + k)).2 := by
  have hpos : 0 < x.sharding := Nat.pos_of_ne_zero fun hzero ↦ by simp [hzero] at hx
  have hposY : 0 < y.sharding := Nat.pos_of_ne_zero fun hzero ↦ by simp [hfactor, hzero] at hpos
  obtain ⟨w, hw⟩ := hdvd
  have hwidth : x.size / x.sharding = w := by rw [hw, Nat.mul_div_cancel_left _ hpos]
  have hwidthY : y.size / y.sharding = q * w := by
    rw [← hsize, hw, hfactor, Nat.mul_assoc, Nat.mul_div_cancel_left _ hposY]
  have hy : 0 < y.size / y.sharding := by
    rw [hwidthY]
    exact Nat.mul_pos hq (hwidth ▸ hx)
  simp only [mem_interval_iff hx, mem_interval_iff hy, hwidth, hwidthY]
  exact ediv_mul_eq_iff hq v w i

/-- The other dimensions have the same intervals in all slices. -/
theorem forall₂_interval_recut_iff (hsize : x.size = y.size)
    (hfactor : x.sharding = y.sharding * q) (hdvd : x.sharding ∣ x.size)
    (hx : 0 < x.size / x.sharding) (hq : 0 < q) (dims : List ShardingDim) {dim : ℕ}
    (hdim : dims[dim]? = some x) {index : List ℕ} (hlen : index.length = dims.length)
    (point : List ℤ) :
    List.Forall₂ (fun (v : ℤ) (b : ℤ × ℤ) ↦ b.1 ≤ v ∧ v ≤ b.2) point
        (List.zipWith ShardingDim.interval (dims.set dim y) index) ↔
      ∃ k < q, List.Forall₂ (fun (v : ℤ) (b : ℤ × ℤ) ↦ b.1 ≤ v ∧ v ≤ b.2) point
        (List.zipWith ShardingDim.interval dims (unfoldDigit dim q k index)) := by
  induction dims generalizing dim index point with
  | nil => simp at hdim
  | cons d dims ih =>
      cases index with
      | nil => simp at hlen
      | cons i index =>
          have hlen : index.length = dims.length := by simpa using hlen
          cases point with
          | nil => cases dim <;> simp [unfoldDigit]
          | cons v point =>
              cases dim with
              | zero =>
                  obtain rfl : d = x := by simpa using hdim
                  simp only [List.set_cons_zero, unfoldDigit, List.getD_cons_zero,
                    List.zipWith_cons_cons, List.forall₂_cons,
                    mem_interval_recut_iff hsize hfactor hdvd hx hq]
                  constructor
                  · rintro ⟨⟨k, hk, hv⟩, hrest⟩
                    exact ⟨k, hk, hv, hrest⟩
                  · rintro ⟨k, hk, hv, hrest⟩
                    exact ⟨⟨k, hk, hv⟩, hrest⟩
              | succ dim =>
                  have hunfold (k : ℕ) : unfoldDigit (dim + 1) q k (i :: index) =
                      i :: unfoldDigit dim q k index := by
                    simp [unfoldDigit]
                  simp only [hunfold, List.set_cons_succ, List.zipWith_cons_cons,
                    List.forall₂_cons, ih (by simpa using hdim) hlen point]
                  constructor
                  · rintro ⟨hv, k, hk, hrest⟩
                    exact ⟨k, hk, hv, hrest⟩
                  · rintro ⟨k, hk, hv, hrest⟩
                    exact ⟨hv, k, hk, hrest⟩

theorem forall₂_interval_injective (dims : List ShardingDim)
    (hpos : ∀ dim ∈ dims, 0 < dim.size / dim.sharding) {index index' : List ℕ}
    (hlen : index.length = dims.length) (hlen' : index'.length = dims.length) {point : List ℤ}
    (h : List.Forall₂ (fun (v : ℤ) (b : ℤ × ℤ) ↦ b.1 ≤ v ∧ v ≤ b.2) point
      (List.zipWith ShardingDim.interval dims index))
    (h' : List.Forall₂ (fun (v : ℤ) (b : ℤ × ℤ) ↦ b.1 ≤ v ∧ v ≤ b.2) point
      (List.zipWith ShardingDim.interval dims index')) : index = index' := by
  induction dims generalizing index index' point with
  | nil => rw [List.eq_nil_of_length_eq_zero hlen, List.eq_nil_of_length_eq_zero hlen']
  | cons d dims ih =>
      obtain ⟨i, index, rfl⟩ := List.exists_cons_of_length_eq_add_one hlen
      obtain ⟨j, index', rfl⟩ := List.exists_cons_of_length_eq_add_one hlen'
      rw [List.zipWith_cons_cons] at h h'
      obtain ⟨v, point, hv, hpoint, rfl⟩ := List.forall₂_cons_right_iff.mp h
      obtain ⟨hv', hpoint'⟩ := List.forall₂_cons.mp h'
      have hd := hpos d List.mem_cons_self
      have hsame : (i : ℤ) = j :=
        ((mem_interval_iff hd i v).mp hv).symm.trans ((mem_interval_iff hd j v).mp hv')
      rw [ih (fun e he ↦ hpos e (List.mem_cons_of_mem _ he)) (by simpa using hlen)
        (by simpa using hlen') hpoint hpoint', Nat.cast_injective hsame]

end

theorem unfoldDigit_injective {dim q : ℕ} {index : List ℕ} (hdim : dim < index.length) {j k : ℕ}
    (h : unfoldDigit dim q j index = unfoldDigit dim q k index) : j = k := by
  have hget := congrArg (fun ds ↦ ds.getD dim 0) h
  simp only [unfoldDigit, List.getD_eq_getElem?_getD, List.getElem?_set_self hdim,
    Option.getD_some] at hget
  exact Nat.add_left_cancel hget

/-! ## Both sides of a recut -/

theorem contains_box_iff {sharding : Sharding} {index : List ℕ}
    (hlen : index.length = sharding.dims.length) (point : List ℤ) :
    (box sharding index).Contains point ↔
      List.Forall₂ (fun (v : ℤ) (b : ℤ × ℤ) ↦ b.1 ≤ v ∧ v ≤ b.2) point
        (List.zipWith ShardingDim.interval sharding.dims index) := by
  rw [box, RealmShape.Contains, and_iff_right]
  simp [hlen]

/-- A slice that is the whole tile. -/
theorem cutsTile_singleton (tile : RealmShape) : CutsTile [tile] tile :=
  ⟨List.pairwise_singleton _ _, fun point ↦ by simp⟩

/-- A tile of the coarser side is cut by the tiles of the finer side. -/
theorem cutsTile_unfold {fine coarse : Sharding} {dim q : ℕ} {x y : ShardingDim}
    (hfine : fine.EvenlyCut) (h : Recut fine coarse dim x y) (hq : 0 < q)
    (hfactor : x.sharding = y.sharding * q) {index : List ℕ}
    (hlen : index.length = fine.dims.length) :
    CutsTile ((List.range q).map fun k ↦ box fine (unfoldDigit dim q k index))
      (box coarse index) := by
  have hx : x ∈ fine.dims := List.mem_of_getElem? h.src_dim
  have hdim : dim < index.length := by
    obtain ⟨hlt, -⟩ := List.getElem?_eq_some_iff.mp h.src_dim
    omega
  have hunfold (k : ℕ) : (unfoldDigit dim q k index).length = fine.dims.length := by simp [hlen]
  constructor
  · rw [List.pairwise_map]
    refine List.nodup_range.imp fun {j k} hne point ⟨hj, hk⟩ ↦ hne ?_
    rw [contains_box_iff (hunfold j)] at hj
    rw [contains_box_iff (hunfold k)] at hk
    exact unfoldDigit_injective hdim
      (forall₂_interval_injective fine.dims hfine.tileSize_pos (hunfold j) (hunfold k) hj hk)
  · intro point
    have hcoarse : index.length = coarse.dims.length := by rw [h.length_eq, hlen]
    rw [contains_box_iff hcoarse, h.dst_dims,
      forall₂_interval_recut_iff h.same_size hfactor (hfine.divides x hx)
        (hfine.tileSize_pos x hx) hq fine.dims h.src_dim hlen point]
    simp only [List.mem_map, List.mem_range]
    constructor
    · rintro ⟨k, hk, hpoint⟩
      exact ⟨_, ⟨k, hk, rfl⟩, (contains_box_iff (hunfold k) point).mpr hpoint⟩
    · rintro ⟨_, ⟨k, hk, rfl⟩, hpoint⟩
      exact ⟨k, hk, (contains_box_iff (hunfold k) point).mp hpoint⟩

theorem factors_set {src dst : Sharding} {dim : ℕ} {x y : ShardingDim}
    (h : Recut src dst dim x y) :
    src.factors[dim]? = some x.sharding ∧ dst.factors = src.factors.set dim y.sharding := by
  rw [Sharding.factors, Sharding.factors, List.getElem?_map, h.src_dim, h.dst_dims, List.map_set]
  exact ⟨rfl, rfl⟩

/-- The shards a coarse shard exchanges its slices with are distinct: the
encoding is injective, whether or not it inverts the decoding. -/
theorem nodup_unfold {fine coarse : Sharding} {dim q : ℕ} {x y : ShardingDim}
    (h : Recut fine coarse dim x y) (hfactor : x.sharding = y.sharding * q) {index : List ℕ}
    (hindex : Digits coarse.factors index) :
    ((List.range q).map fun k ↦ encode fine.factors (unfoldDigit dim q k index)).Nodup := by
  obtain ⟨hy, hset⟩ := factors_set h.symm
  have hdigits (k : ℕ) (hk : k < q) : Digits fine.factors (unfoldDigit dim q k index) := by
    rw [hset]
    exact hindex.unfold hy hfactor.ge hk
  have hdim : dim < index.length := by
    obtain ⟨hlt, -⟩ := List.getElem?_eq_some_iff.mp hy
    rwa [hindex.length_eq]
  apply List.Nodup.map_on _ List.nodup_range
  intro j hj k hk heq
  exact unfoldDigit_injective hdim (encode_injective (hdigits j (List.mem_range.mp hj))
    (hdigits k (List.mem_range.mp hk)) heq)

section Sides

variable [RealmBuild] {fine coarse : Sharding} {dim q : ℕ} {x y : ShardingDim}
  (hfine : fine.EvenlyCut) (hcoarse : coarse.EvenlyCut) (h : Recut fine coarse dim x y)

include hfine h

theorem foldedSlice_box (hrank : SupportedRank fine.dims.length) (hq : 0 < q) (f : ℕ) :
    foldedSlice dim q f fine coarse =
      .ok (encode coarse.factors (foldDigit dim q (fine.tileIndex f)),
        box fine (fine.tileIndex f)) := by
  obtain ⟨hne, hdim⟩ := h.dims_ne_nil
  exact foldedSlice_eq_ok hfine.bijective hfine.sharding_pos hfine.tileable.factors_fit
    h.length_eq hdim hq ((hfine.makeTileBox_eq_ok_iff hne (by simp)).mpr ⟨hrank, rfl⟩)

theorem supportedRank_of_foldedSlice {f : ℕ} {slice : ℕ × RealmShape}
    (hrun : foldedSlice dim q f fine coarse = .ok slice) : SupportedRank fine.dims.length := by
  obtain ⟨hne, -⟩ := h.dims_ne_nil
  rw [foldedSlice, hfine.tileable.computeTileIndex_eq, ok_bind] at hrun
  obtain ⟨rect, hrect, -⟩ := bind_eq_ok_iff.mp hrun
  exact ((hfine.makeTileBox_eq_ok_iff hne (by simp)).mp hrect).1

/-- What the finer side lists for one of its shards. -/
theorem slicesCut_fold (hrank : SupportedRank fine.dims.length) {f : ℕ}
    (hf : f < fine.devices.size) {own peer : SliceConfig → ℕ} {slice : SliceConfig}
    (hown : own slice = f) (hbounds : slice.bounds = box fine (fine.tileIndex f)) :
    SlicesCut fine f own peer [slice] := by
  obtain ⟨hne, -⟩ := h.dims_ne_nil
  refine ⟨⟨_, (hfine.computeTileBounds_eq_ok_iff hne hf).mpr ⟨hrank, rfl⟩, ?_⟩, ?_, ?_⟩
  · rw [List.map_singleton, hbounds]
    exact cutsTile_singleton _
  · intro s hs
    rwa [List.mem_singleton.mp hs]
  · exact List.nodup_singleton _

include hcoarse

theorem unfoldedSlices_box (hrank : SupportedRank fine.dims.length) (c : ℕ) :
    unfoldedSlices dim q c fine coarse = .ok ((List.range q).map fun k ↦
      (encode fine.factors (unfoldDigit dim q k (coarse.tileIndex c)),
        box fine (unfoldDigit dim q k (coarse.tileIndex c)))) := by
  obtain ⟨hne, hdim⟩ := h.dims_ne_nil
  apply unfoldedSlices_eq_ok hcoarse.bijective hcoarse.sharding_pos hcoarse.tileable.factors_fit
    h.length_eq hdim
  intro k _
  exact (hfine.makeTileBox_eq_ok_iff hne (by simp [h.length_eq])).mpr ⟨hrank, rfl⟩

theorem supportedRank_of_unfoldedSlices (hq : 0 < q) {c : ℕ} {slices : List (ℕ × RealmShape)}
    (hrun : unfoldedSlices dim q c fine coarse = .ok slices) :
    SupportedRank fine.dims.length := by
  obtain ⟨hne, hdim⟩ := h.dims_ne_nil
  have hdim : dim < (coarse.tileIndex c).length := by simpa [h.length_eq] using hdim
  rw [unfoldedSlices, hcoarse.tileable.computeTileIndex_eq, ok_bind,
    vectorAt_of_getElem? (List.getElem?_eq_getElem hdim), ok_bind] at hrun
  obtain ⟨_, -, hslice⟩ := exists_of_mapM_eq_ok hrun (List.mem_range.mpr hq)
  rw [vectorSet_of_lt hdim, ok_bind] at hslice
  obtain ⟨rect, hrect, -⟩ := bind_eq_ok_iff.mp hslice
  exact ((hfine.makeTileBox_eq_ok_iff hne (by simp [h.length_eq])).mp hrect).1

/-- What the coarser side lists for one of its shards. -/
theorem slicesCut_unfold (hrank : SupportedRank fine.dims.length) (hq : 0 < q)
    (hfactor : x.sharding = y.sharding * q) {c : ℕ} (hc : c < coarse.devices.size)
    {own peer : SliceConfig → ℕ} {make : ℕ × RealmShape → SliceConfig}
    (hown : ∀ part, own (make part) = c) (hpeer : ∀ part, peer (make part) = part.1)
    (hbounds : ∀ part, (make part).bounds = part.2) :
    SlicesCut coarse c own peer (((List.range q).map fun k ↦
      (encode fine.factors (unfoldDigit dim q k (coarse.tileIndex c)),
        box fine (unfoldDigit dim q k (coarse.tileIndex c)))).map make) := by
  have hneCoarse : coarse.dims ≠ [] := h.symm.dims_ne_nil.1
  have hrank : SupportedRank coarse.dims.length := by rwa [h.length_eq]
  have hindex := tileIndex_digits hcoarse.bijective (hcoarse.tileable.devices_eq ▸ hc)
  refine ⟨⟨_, (hcoarse.computeTileBounds_eq_ok_iff hneCoarse hc).mpr ⟨hrank, rfl⟩, ?_⟩, ?_, ?_⟩
  · have hcut := cutsTile_unfold hfine h hq hfactor
      (by simp [h.length_eq] : (coarse.tileIndex c).length = fine.dims.length)
    simpa [Function.comp_def, hbounds] using hcut
  · intro slice hslice
    obtain ⟨part, -, rfl⟩ := List.mem_map.mp hslice
    exact hown part
  · have hnodup := nodup_unfold h hfactor hindex
    simpa [Function.comp_def, hpeer] using hnodup

end Sides

/-- A factor that divides another one, with the quotient the planner uses. -/
theorem eq_mul_div_of_dvd {a b : ℕ} (ha : 0 < a) (hb : 0 < b) (hdvd : b ∣ a) :
    a = b * (a / b) ∧ 0 < a / b :=
  ⟨(Nat.mul_div_cancel' hdvd).symm, Nat.div_pos (Nat.le_of_dvd ha hdvd) hb⟩

/-- The slices that a processor is told to send cut the tile of its source
shard, and the slices it is told to receive that of its destination shard. -/
theorem scatter_gather_slices_cut [RealmBuild] (src dst : Sharding) (dim : ℕ) (x y : ShardingDim)
    (hsrc : src.EvenlyCut) (hdst : dst.EvenlyCut) (h : Recut src dst dim x y)
    (hdvd : x.sharding ∣ y.sharding ∨ y.sharding ∣ x.sharding) (srcShard dstShard : Option ℕ)
    (hs : ∀ s ∈ srcShard, s < src.devices.size) (ht : ∀ t ∈ dstShard, t < dst.devices.size) :
    (SupportedRank src.dims.length →
      ∃ config, getScatterGatherConfig dim srcShard dstShard src dst = .ok config) ∧
    ∀ config, getScatterGatherConfig dim srcShard dstShard src dst = .ok config →
      (∀ s ∈ srcShard,
        SlicesCut src s SliceConfig.srcShard SliceConfig.dstShard config.fromSource) ∧
      ∀ t ∈ dstShard,
        SlicesCut dst t SliceConfig.dstShard SliceConfig.srcShard config.toTarget := by
  have hposX := hsrc.sharding_pos x (List.mem_of_getElem? h.src_dim)
  have hposY := hdst.sharding_pos y (List.mem_of_getElem? h.symm.src_dim)
  rcases Nat.lt_or_gt_of_ne h.ne with hlt | hlt
  · -- the destination is the finer side
    have hdvd : x.sharding ∣ y.sharding :=
      hdvd.resolve_right (Nat.not_dvd_of_pos_of_lt hposX hlt)
    obtain ⟨hfactor, hq⟩ := eq_mul_div_of_dvd hposY hposX hdvd
    have hconfig (hrank : SupportedRank dst.dims.length) :=
      getScatterGatherConfig_of_gt srcShard dstShard h.src_dim h.symm.src_dim hposX hlt
        (fun t _ ↦ foldedSlice_box hdst h.symm hrank hq t)
        (fun s _ ↦ unfoldedSlices_box hdst hsrc h.symm hrank s)
    refine ⟨fun hrank ↦ ⟨_, hconfig (by rwa [h.length_eq])⟩, fun config hrun ↦ ?_⟩
    obtain ⟨hfolded, hunfolded⟩ := slices_of_config_gt h.src_dim h.symm.src_dim hposX hlt hrun
    constructor
    · rintro s rfl
      obtain ⟨slices, hslices⟩ := hunfolded s rfl
      have hrank := supportedRank_of_unfoldedSlices hdst hsrc h.symm hq hslices
      obtain rfl := Except.ok.inj ((hconfig hrank).symm.trans hrun)
      exact slicesCut_unfold hdst hsrc h.symm hrank hq hfactor (hs s rfl) (fun _ ↦ rfl)
        (fun _ ↦ rfl) fun _ ↦ rfl
    · rintro t rfl
      obtain ⟨slice, hslice⟩ := hfolded t rfl
      have hrank := supportedRank_of_foldedSlice hdst h.symm hslice
      obtain rfl := Except.ok.inj ((hconfig hrank).symm.trans hrun)
      exact slicesCut_fold hdst h.symm hrank (ht t rfl) rfl rfl
  · -- the source is the finer side
    have hdvd : y.sharding ∣ x.sharding :=
      hdvd.resolve_left (Nat.not_dvd_of_pos_of_lt hposY hlt)
    obtain ⟨hfactor, hq⟩ := eq_mul_div_of_dvd hposX hposY hdvd
    have hconfig (hrank : SupportedRank src.dims.length) :=
      getScatterGatherConfig_of_lt srcShard dstShard h.src_dim h.symm.src_dim hposY hlt
        (fun s _ ↦ foldedSlice_box hsrc h hrank hq s)
        (fun t _ ↦ unfoldedSlices_box hsrc hdst h hrank t)
    refine ⟨fun hrank ↦ ⟨_, hconfig hrank⟩, fun config hrun ↦ ?_⟩
    obtain ⟨hfolded, hunfolded⟩ := slices_of_config_lt h.src_dim h.symm.src_dim hposY hlt hrun
    constructor
    · rintro s rfl
      obtain ⟨slice, hslice⟩ := hfolded s rfl
      have hrank := supportedRank_of_foldedSlice hsrc h hslice
      obtain rfl := Except.ok.inj ((hconfig hrank).symm.trans hrun)
      exact slicesCut_fold hsrc h hrank (hs s rfl) rfl rfl
    · rintro t rfl
      obtain ⟨slices, hslices⟩ := hunfolded t rfl
      have hrank := supportedRank_of_unfoldedSlices hsrc hdst h hq hslices
      obtain rfl := Except.ok.inj ((hconfig hrank).symm.trans hrun)
      exact slicesCut_unfold hsrc hdst h hrank hq hfactor (ht t rfl) (fun _ ↦ rfl)
        (fun _ ↦ rfl) fun _ ↦ rfl

/-- Source shard 1 of two sends its rows to the shards of four. -/
theorem scatter_gather_slices_cut_two_four :
    @SlicesCut .rankFour ⟨[⟨8, 2, 1⟩, ⟨6, 3, 0⟩], ⟨0, 6⟩⟩ 1 SliceConfig.srcShard
      SliceConfig.dstShard
      [⟨1, 6, ⟨2, [(4, 5), (0, 1)]⟩⟩, ⟨1, 9, ⟨2, [(6, 7), (0, 1)]⟩⟩] := by
  let _ : RealmBuild := .rankFour
  exact ((scatter_gather_slices_cut ⟨[⟨8, 2, 1⟩, ⟨6, 3, 0⟩], ⟨0, 6⟩⟩
    ⟨[⟨8, 4, 1⟩, ⟨6, 3, 0⟩], ⟨0, 12⟩⟩ 0 ⟨8, 2, 1⟩ ⟨8, 4, 1⟩
    ⟨by decide, by decide, by decide, by decide, by decide⟩
    ⟨by decide, by decide, by decide, by decide, by decide⟩
    ⟨rfl, rfl, rfl, rfl, by decide⟩ (by decide) (some 1) none (by decide) (by decide)).2
    ⟨[⟨1, 6, ⟨2, [(4, 5), (0, 1)]⟩⟩, ⟨1, 9, ⟨2, [(6, 7), (0, 1)]⟩⟩], []⟩ (by decide)).1 1 rfl

end Zuku
