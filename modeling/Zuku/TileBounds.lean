import Zuku.TileIndex

/-!
# The rectangle of a shard

`computeTileBounds` writes one interval for every real dimension.  A point lies
in the rectangle when the quotients of its coordinates by the tile extents are
the tile index with the replication dimensions left out.
-/

namespace Zuku

open Checked IndexedWrites MixedRadix

def ShardingDim.interval (dim : ShardingDim) (i : ℕ) : ℤ × ℤ :=
  (((dim.size / dim.sharding : ℕ) : ℤ) * i,
    ((dim.size / dim.sharding : ℕ) : ℤ) * i + ((dim.size / dim.sharding : ℕ) : ℤ) - 1)

/-- The tile index without the replication dimensions. -/
def realIndex : List ShardingDim → List ℕ → List ℕ
  | dim :: dims, i :: index =>
      if dim.isReplication then realIndex dims index else i :: realIndex dims index
  | _, _ => []

def tileIntervals : List ShardingDim → List ℕ → List (ℤ × ℤ)
  | dim :: dims, i :: index =>
      if dim.isReplication then tileIntervals dims index
      else dim.interval i :: tileIntervals dims index
  | _, _ => []

/-- The tile coordinates of a point over the real dimensions. -/
def ownerIndex : List ShardingDim → List ℤ → List ℤ
  | [], _ => []
  | dim :: dims, point =>
      if dim.isReplication then ownerIndex dims point
      else
        match point with
        | [] => []
        | x :: point => x / ((dim.size / dim.sharding : ℕ) : ℤ) :: ownerIndex dims point

def Sharding.tileBounds (sharding : Sharding) (shard : ℕ) : RealmShape :=
  if sharding.realDims = [] then ⟨1, [(0, 0)]⟩
  else ⟨sharding.realDims.length, tileIntervals sharding.dims (sharding.tileIndex shard)⟩

theorem devices_pos {sharding : Sharding} (hpos : ∀ dim ∈ sharding.dims, 1 ≤ dim.sharding)
    (hprod : sharding.factors.prod = sharding.devices.size) : 0 < sharding.devices.size := by
  rw [← hprod]
  apply List.prod_pos
  intro b hb
  obtain ⟨dim, hdim, rfl⟩ := List.mem_map.mp hb
  exact hpos dim hdim

/-! ## What the loop writes -/

theorem length_tileIntervals (dims : List ShardingDim) (index : List ℕ)
    (h : index.length = dims.length) :
    (tileIntervals dims index).length = (dims.filter fun dim ↦ !dim.isReplication).length := by
  induction dims generalizing index with
  | nil => simp [tileIntervals]
  | cons dim dims ih =>
      cases index with
      | nil => simp at h
      | cons i index =>
          have hlen : index.length = dims.length := by simpa using h
          cases hr : dim.isReplication <;> simp [tileIntervals, hr, ih index hlen]

theorem tileIntervals_congr (dims : List ShardingDim) (index index' : List ℕ)
    (h : index.length = dims.length) (h' : index'.length = dims.length)
    (heq : realIndex dims index = realIndex dims index') :
    tileIntervals dims index = tileIntervals dims index' := by
  induction dims generalizing index index' with
  | nil => simp [tileIntervals]
  | cons dim dims ih =>
      cases index with
      | nil => simp at h
      | cons i index =>
          cases index' with
          | nil => simp at h'
          | cons j index' =>
              have hlen : index.length = dims.length := by simpa using h
              have hlen' : index'.length = dims.length := by simpa using h'
              cases hr : dim.isReplication with
              | true =>
                  simp only [realIndex, hr, if_true] at heq
                  simpa [tileIntervals, hr] using ih index index' hlen hlen' heq
              | false =>
                  simp only [realIndex, hr, Bool.false_eq_true, if_false, List.cons.injEq] at heq
                  simpa [tileIntervals, hr, heq.1] using ih index index' hlen hlen' heq.2

theorem tileIntervals_eq_zipWith (dims : List ShardingDim) (index : List ℕ)
    (hlen : index.length = dims.length) :
    tileIntervals dims index = List.zipWith ShardingDim.interval
      (dims.filter fun dim ↦ !dim.isReplication) (realIndex dims index) := by
  induction dims generalizing index with
  | nil => simp [tileIntervals]
  | cons dim dims ih =>
      cases index with
      | nil => simp at hlen
      | cons i index =>
          have hlen' : index.length = dims.length := by simpa using hlen
          cases hr : dim.isReplication <;> simp [tileIntervals, realIndex, hr, ih index hlen']

theorem writeTileBounds_eq (dims : List ShardingDim) (index : List ℕ) (k : ℕ) (rect : RealmShape)
    (hlen : index.length = k + dims.length) (hpos : ∀ dim ∈ dims, 1 ≤ dim.sharding)
    (hrank : rect.bounds.length + (dims.filter fun dim ↦ !dim.isReplication).length ≤ rect.rank) :
    writeTileBounds index k dims rect =
      .ok { rect with bounds := rect.bounds ++ tileIntervals dims (index.drop k) } := by
  induction dims generalizing k rect with
  | nil => simp [writeTileBounds, tileIntervals]
  | cons dim dims ih =>
      have hk : k < index.length := by simp [hlen]
      have hlen' : index.length = (k + 1) + dims.length := by simp [hlen]; omega
      have hpos' : ∀ d ∈ dims, 1 ≤ d.sharding := fun d hd ↦ hpos d (List.mem_cons_of_mem _ hd)
      rw [List.drop_eq_getElem_cons hk]
      cases hr : dim.isReplication with
      | true =>
          simp only [writeTileBounds, hr, if_true, tileIntervals]
          exact ih (k + 1) rect hlen' hpos' (by simpa [hr] using hrank)
      | false =>
          have hreal : rect.bounds.length +
              ((dims.filter fun dim ↦ !dim.isReplication).length + 1) ≤ rect.rank := by
            simpa [hr] using hrank
          have hwrite : rect.bounds.length < rect.rank := by omega
          simp only [writeTileBounds, hr, Bool.false_eq_true, if_false, tileIntervals,
            checkedDiv_of_pos (hpos dim List.mem_cons_self), ok_bind,
            vectorAt_of_getElem? (List.getElem?_eq_getElem hk), RealmShape.write, if_pos hwrite]
          have hrest (b : ℤ × ℤ) : (rect.bounds ++ [b]).length +
              (dims.filter fun dim ↦ !dim.isReplication).length ≤ rect.rank := by
            rw [List.length_append, List.length_singleton]
            omega
          rw [ih (k + 1) _ hlen' hpos' (hrest _)]
          simp [ShardingDim.interval]

/-! ## The rank of the rectangle -/

/-- The ranks for which the build has a rectangle type. -/
def SupportedRank [RealmBuild] (rank : ℕ) : Prop := rank ≤ 4 ∨ rank = 5 ∧ 5 ≤ RealmBuild.maxDim

theorem selectRank_eq_ok_iff [RealmBuild] {rank n : ℕ} {what : String} :
    selectRank rank what = .ok n ↔ SupportedRank rank ∧ n = max rank 1 := by
  unfold selectRank SupportedRank
  split
  · subst rank; simp [eq_comm]
  · split
    · simp only [Except.ok.injEq]; omega
    · split
      · simp only [Except.ok.injEq]; omega
      · simp only [reduceCtorEq, false_iff, not_and]; omega

section

variable {sharding : Sharding}

theorem isReplication_iff_lt (h : sharding.Tileable) {dim : ShardingDim}
    (hdim : dim ∈ sharding.dims) : dim.isReplication = true ↔ dim.size < dim.sharding := by
  have hsize := h.size_pos dim hdim
  constructor
  · intro hr
    simp only [ShardingDim.isReplication, Bool.and_eq_true, decide_eq_true_eq] at hr
    omega
  · intro hlt
    rcases h.divides dim hdim with hdvd | hr
    · have hle := Nat.le_of_dvd (by omega) hdvd
      omega
    · exact hr

theorem dvd_of_not_isReplication (h : sharding.Tileable) {dim : ShardingDim}
    (hdim : dim ∈ sharding.dims) (hr : dim.isReplication = false) : dim.sharding ∣ dim.size :=
  (h.divides dim hdim).resolve_right (by simp [hr])

/-- At most one dimension is a replication dimension. -/
def Sharding.AtMostOneReplication (sharding : Sharding) : Prop :=
  (sharding.dims.filter ShardingDim.isReplication).length ≤ 1

instance (sharding : Sharding) : Decidable sharding.AtMostOneReplication :=
  inferInstanceAs (Decidable (_ ≤ _))

theorem length_realDims_add (dims : List ShardingDim) :
    (dims.filter fun dim ↦ !dim.isReplication).length +
      (dims.filter ShardingDim.isReplication).length = dims.length := by
  induction dims with
  | nil => rfl
  | cons dim dims ih =>
      cases hr : dim.isReplication <;> simp [hr] <;> omega

theorem numRealDims_eq (h : sharding.Tileable) (hone : sharding.AtMostOneReplication) :
    sharding.numRealDims = sharding.realDims.length := by
  have hadd := length_realDims_add sharding.dims
  unfold Sharding.AtMostOneReplication at hone
  unfold Sharding.numRealDims Sharding.realDims
  split
  case isTrue hany =>
    obtain ⟨dim, hdim, hlt⟩ := List.any_eq_true.mp hany
    have hr := (isReplication_iff_lt h hdim).mpr (by simpa using hlt)
    have hpos : 0 < (sharding.dims.filter ShardingDim.isReplication).length :=
      List.length_pos_of_mem (List.mem_filter.mpr ⟨hdim, hr⟩)
    omega
  case isFalse hany =>
    have hnone : sharding.dims.filter ShardingDim.isReplication = [] := by
      refine List.filter_eq_nil_iff.mpr fun dim hdim hr ↦ hany ?_
      exact List.any_eq_true.mpr ⟨dim, hdim, by simpa using (isReplication_iff_lt h hdim).mp hr⟩
    rw [hnone, List.length_nil] at hadd
    omega

/-- The total sharding counts the tiles and the replication their copies. -/
theorem totalSharding_mul_replication_eq_prod (hsize : ∀ dim ∈ sharding.dims, 1 ≤ dim.size)
    (hpos : ∀ dim ∈ sharding.dims, 1 ≤ dim.sharding)
    (hdvd : ∀ dim ∈ sharding.dims, dim.sharding ∣ dim.size ∨ dim.isReplication = true) :
    sharding.totalSharding * sharding.replication = sharding.factors.prod := by
  have hloop : ∀ (dims : List ShardingDim) (total : ℕ),
      (∀ dim ∈ dims, 1 ≤ dim.size) → (∀ dim ∈ dims, 1 ≤ dim.sharding) →
      (∀ dim ∈ dims, dim.sharding ∣ dim.size ∨ dim.isReplication = true) →
      dims.foldl (fun total dim ↦ if 1 < dim.size then total * dim.sharding else total) total *
        ((dims.filter ShardingDim.isReplication).map ShardingDim.sharding).prod =
      total * (dims.map ShardingDim.sharding).prod := by
    intro dims
    induction dims with
    | nil => simp
    | cons dim dims ih =>
        intro total hsize hpos hdvd
        have htail := fun total ↦ ih total (fun d hd ↦ hsize d (List.mem_cons_of_mem _ hd))
          (fun d hd ↦ hpos d (List.mem_cons_of_mem _ hd))
          (fun d hd ↦ hdvd d (List.mem_cons_of_mem _ hd))
        have hdim := hsize dim List.mem_cons_self
        rw [List.foldl_cons]
        cases hr : dim.isReplication with
        | true =>
            have hone : dim.size = 1 := by
              simp only [ShardingDim.isReplication, Bool.and_eq_true, decide_eq_true_eq] at hr
              exact hr.1
            rw [if_neg (by omega), List.filter_cons_of_pos hr, List.map_cons, List.prod_cons,
              Nat.mul_left_comm, htail, List.map_cons, List.prod_cons]
            ring
        | false =>
            rw [List.filter_cons_of_neg (by simp [hr]), htail, List.map_cons, List.prod_cons]
            split
            · ring
            · have hone : dim.size = 1 := by omega
              have hdvd := (hdvd dim List.mem_cons_self).resolve_right (by simp [hr])
              rw [hone, Nat.dvd_one] at hdvd
              rw [hdvd, one_mul]
  have htotal := hloop sharding.dims 1 hsize hpos hdvd
  rwa [one_mul] at htotal

theorem totalSharding_mul_replication (h : sharding.Tileable) :
    sharding.totalSharding * sharding.replication = sharding.devices.size :=
  (totalSharding_mul_replication_eq_prod h.size_pos h.sharding_pos h.divides).trans h.devices_eq

/-- A single dimension of size one has a single tile unless it is replicated. -/
theorem tileBounds_of_unit (h : sharding.Tileable) {dim : ShardingDim}
    (hdims : sharding.dims = [dim]) (hsize : dim.size = 1) {shard : ℕ}
    (hshard : shard < sharding.devices.size) : sharding.tileBounds shard = ⟨1, [(0, 0)]⟩ := by
  unfold Sharding.tileBounds
  cases hr : dim.isReplication with
  | true => simp [Sharding.realDims, hdims, hr]
  | false =>
      have hdvd : dim.sharding ∣ 1 :=
        hsize ▸ dvd_of_not_isReplication h (by simp [hdims]) hr
      have hone : dim.sharding = 1 := Nat.dvd_one.mp hdvd
      have hdigits := tileIndex_digits h.bijective (h.devices_eq ▸ hshard)
      simp only [Sharding.factors, hdims, List.map_cons, List.map_nil, hone] at hdigits
      have hindex : sharding.tileIndex shard = [0] := digits_singleton_one hdigits
      simp [Sharding.realDims, hdims, hr, tileIntervals, ShardingDim.interval, hsize, hone, hindex]

theorem computeTileBoundsOfRank_eq (h : sharding.Tileable) {shard : ℕ}
    (hone : sharding.AtMostOneReplication) (hshard : shard < sharding.devices.size) :
    computeTileBoundsOfRank (max sharding.realDims.length 1) shard sharding =
      .ok (sharding.tileBounds shard) := by
  unfold computeTileBoundsOfRank
  split
  case h_1 hdims => simp [Sharding.realDims, Sharding.tileBounds, hdims, RealmShape.write]
  case h_2 dim dims hdims =>
    split
    case isTrue hunit =>
      obtain ⟨rfl, hsize⟩ := hunit
      have hle : sharding.realDims.length ≤ 1 := by
        have hle := List.length_filter_le (fun d ↦ !d.isReplication) sharding.dims
        rwa [hdims, List.length_singleton, ← hdims] at hle
      rw [tileBounds_of_unit h hdims hsize hshard, Nat.max_eq_right hle]
      rfl
    case isFalse hunit =>
      have hreal : sharding.realDims ≠ [] := by
        intro hnil
        have hadd := length_realDims_add sharding.dims
        have hlen : sharding.dims.length ≤ 1 := by
          unfold Sharding.AtMostOneReplication at hone
          rw [Sharding.realDims] at hnil
          rw [hnil, List.length_nil] at hadd
          omega
        have hnilDims : dims = [] := by
          rw [hdims, List.length_cons] at hlen
          exact List.eq_nil_of_length_eq_zero (by omega)
        subst hnilDims
        have hr : dim.isReplication = true := by
          by_contra hr
          simp [Sharding.realDims, hdims, hr] at hnil
        have hsize : dim.size = 1 := by
          simp only [ShardingDim.isReplication, Bool.and_eq_true, decide_eq_true_eq] at hr
          exact hr.1
        exact hunit ⟨rfl, hsize⟩
      have hpos : 0 < sharding.devices.size := (Nat.zero_le _).trans_lt hshard
      have hmax : max sharding.realDims.length 1 = sharding.realDims.length :=
        Nat.max_eq_left (List.length_pos_iff.mpr hreal)
      simp only [checkedProd_factors h.sharding_pos h.factors_fit, h.devices_eq,
        h.computeTileIndex_eq, ok_bind, checkedDiv_of_pos hpos, Nat.div_self hpos,
        checkedDiv_of_pos Nat.one_pos]
      rw [writeTileBounds_eq _ _ 0 _ (by simp) h.sharding_pos (by simp [Sharding.realDims])]
      simp [Sharding.tileBounds, hreal, hmax]

theorem computeTileBounds_eq [RealmBuild] (h : sharding.Tileable)
    (hone : sharding.AtMostOneReplication) (hrank : SupportedRank sharding.realDims.length)
    {shard : ℕ} (hshard : shard < sharding.devices.size) :
    computeTileBounds shard sharding = .ok (sharding.tileBounds shard) := by
  rw [computeTileBounds, numRealDims_eq h hone,
    selectRank_eq_ok_iff.mpr ⟨hrank, rfl⟩, ok_bind]
  exact computeTileBoundsOfRank_eq h hone hshard

/-- A rectangle is only ever returned when the build supports its rank. -/
theorem supportedRank_of_computeTileBounds [RealmBuild] {shard : ℕ} {rect : RealmShape}
    (h : computeTileBounds shard sharding = .ok rect) : SupportedRank sharding.numRealDims := by
  obtain ⟨rank, hrank, -⟩ := bind_eq_ok_iff.mp h
  exact (selectRank_eq_ok_iff.mp hrank).1

end

end Zuku
