import Zuku.TileDecomposition

/-!
# Slicing replicated tiles

When an array is partially replicated, every shard is made responsible for the
slice of its tile that its replica number selects along one real dimension.
The slices of all shards cut the array into disjoint pieces.
-/

namespace Zuku

open Checked IndexedWrites MixedRadix

/-! ## Real coordinates and the replica number -/

/-- The index with given real coordinates and a given replica number. -/
def insertReplica : List ShardingDim → List ℕ → ℕ → List ℕ
  | [], _, _ => []
  | dim :: dims, coords, replica =>
      if dim.isReplication then replica :: insertReplica dims coords replica
      else coords.headD 0 :: insertReplica dims coords.tail replica

theorem insertReplica_digits (dims : List ShardingDim) (coords : List ℕ) (replica : ℕ)
    (hcoords : Digits ((dims.filter fun dim ↦ !dim.isReplication).map ShardingDim.sharding) coords)
    (hreplica : ∀ dim ∈ dims, dim.isReplication = true → replica < dim.sharding) :
    Digits (dims.map ShardingDim.sharding) (insertReplica dims coords replica) ∧
      realIndex dims (insertReplica dims coords replica) = coords := by
  induction dims generalizing coords with
  | nil =>
      cases coords with
      | nil => simp [insertReplica, realIndex]
      | cons c coords => simp [Digits] at hcoords
  | cons dim dims ih =>
      have hreplica' := fun d hd ↦ hreplica d (List.mem_cons_of_mem _ hd)
      cases hr : dim.isReplication with
      | true =>
          obtain ⟨hdigits, hreal⟩ := ih coords (by simpa [hr] using hcoords) hreplica'
          have hlt := hreplica dim List.mem_cons_self hr
          simp only [insertReplica, hr, if_true, List.map_cons, digits_cons, realIndex]
          exact ⟨⟨hlt, hdigits⟩, hreal⟩
      | false =>
          rw [List.filter_cons_of_pos (by simp [hr]), List.map_cons] at hcoords
          cases coords with
          | nil => simp [Digits] at hcoords
          | cons c coords =>
              obtain ⟨hc, hcoords⟩ := digits_cons.mp hcoords
              obtain ⟨hdigits, hreal⟩ := ih coords hcoords hreplica'
              simp only [insertReplica, hr, Bool.false_eq_true, if_false, List.map_cons,
                digits_cons, realIndex, List.headD_cons, List.tail_cons, hreal]
              exact ⟨⟨hc, hdigits⟩, trivial⟩

theorem getElem?_insertReplica (dims : List ShardingDim) (coords : List ℕ) (replica : ℕ) {c : ℕ}
    {dim : ShardingDim} (hdim : dims[c]? = some dim) (hr : dim.isReplication = true) :
    (insertReplica dims coords replica)[c]? = some replica := by
  induction dims generalizing coords c with
  | nil => simp at hdim
  | cons d dims ih =>
      cases c with
      | zero =>
          obtain rfl : d = dim := by simpa using hdim
          simp [insertReplica, hr]
      | succ c =>
          have hdim : dims[c]? = some dim := by simpa using hdim
          cases hd : d.isReplication with
          | true => simpa [insertReplica, hd] using ih coords hdim
          | false => simpa [insertReplica, hd] using ih coords.tail hdim

/-- An index is determined by its real coordinates and its replica number. -/
theorem eq_insertReplica (dims : List ShardingDim) (index : List ℕ) (replica : ℕ)
    (hlen : index.length = dims.length)
    (hreplica : ∀ (c : ℕ) (dim : ShardingDim), dims[c]? = some dim → dim.isReplication = true →
      index[c]? = some replica) :
    index = insertReplica dims (realIndex dims index) replica := by
  induction dims generalizing index with
  | nil => simpa [insertReplica] using hlen
  | cons dim dims ih =>
      cases index with
      | nil => simp at hlen
      | cons i index =>
          have hlen' : index.length = dims.length := by simpa using hlen
          have htail := ih index hlen' fun c d hd hr ↦ by
            simpa using hreplica (c + 1) d (by simpa using hd) hr
          cases hr : dim.isReplication with
          | true =>
              have hi : i = replica := by simpa using hreplica 0 dim (by simp) hr
              simp only [realIndex, insertReplica, hr, if_true, hi]
              rw [← htail]
          | false =>
              simp only [realIndex, insertReplica, hr, Bool.false_eq_true, if_false,
                List.headD_cons, List.tail_cons]
              rw [← htail]

/-! ## One slice of an interval -/

def sliceInterval (interval : ℤ × ℤ) (sliceNumber totalSlices : ℕ) : ℤ × ℤ :=
  let sliceSize := (interval.2 - interval.1 + 1).tdiv totalSlices
  (interval.1 + sliceSize * sliceNumber, interval.1 + sliceSize * sliceNumber + sliceSize - 1)

/-- The slice of an element of an interval that the number of slices divides. -/
theorem mem_sliceInterval_iff (lo : ℤ) {width totalSlices : ℕ} (hwidth : 0 < width)
    (hslices : 0 < totalSlices) (sliceNumber : ℕ) (x : ℤ) :
    ((sliceInterval (lo, lo + (totalSlices * width : ℕ) - 1) sliceNumber totalSlices).1 ≤ x ∧
      x ≤ (sliceInterval (lo, lo + (totalSlices * width : ℕ) - 1) sliceNumber totalSlices).2) ↔
      (x - lo) / (width : ℤ) = sliceNumber := by
  have hsize : (lo + ((totalSlices * width : ℕ) : ℤ) - 1 - lo + 1).tdiv (totalSlices : ℤ) =
      (width : ℤ) := by
    have hextent : lo + ((totalSlices * width : ℕ) : ℤ) - 1 - lo + 1 =
        (totalSlices : ℤ) * (width : ℤ) := by push_cast; ring
    rw [hextent, Int.mul_tdiv_cancel_left]
    exact_mod_cast hslices.ne'
  have hpos : (0 : ℤ) < (width : ℤ) := by exact_mod_cast hwidth
  simp only [sliceInterval, hsize]
  rw [Int.ediv_eq_iff_of_pos hpos, mul_comm (sliceNumber : ℤ)]
  constructor <;> rintro ⟨h₁, h₂⟩ <;> constructor <;> linarith

theorem sliceInterval_subset (lo : ℤ) {width totalSlices sliceNumber : ℕ} (hwidth : 0 < width)
    (hslice : sliceNumber < totalSlices) {x : ℤ}
    (hx : (x - lo) / (width : ℤ) = sliceNumber) :
    lo ≤ x ∧ x ≤ lo + (totalSlices * width : ℕ) - 1 := by
  have hpos : (0 : ℤ) < (width : ℤ) := by exact_mod_cast hwidth
  rw [Int.ediv_eq_iff_of_pos hpos] at hx
  have hle : ((sliceNumber : ℤ) + 1) * width ≤ (totalSlices * width : ℕ) := by
    exact_mod_cast Nat.mul_le_mul_right width hslice
  have hnonneg : (0 : ℤ) ≤ (sliceNumber : ℤ) * width := by positivity
  constructor <;> linarith [hx.1, hx.2]

theorem forall₂_set_iff {α β : Type} (P : α → β → Prop) (xs : List α) {bs : List β} {k : ℕ}
    {b b' : β} (hb : bs[k]? = some b) (himp : ∀ x, P x b' → P x b) :
    List.Forall₂ P xs (bs.set k b') ↔
      List.Forall₂ P xs bs ∧ ∀ x, xs[k]? = some x → P x b' := by
  induction bs generalizing xs k with
  | nil => simp at hb
  | cons c bs ih =>
      cases xs with
      | nil => cases k <;> simp
      | cons x xs =>
          cases k with
          | zero =>
              obtain rfl : c = b := by simpa using hb
              simp only [List.set_cons_zero, List.forall₂_cons, List.getElem?_cons_zero,
                Option.some.injEq, forall_eq']
              constructor
              · rintro ⟨hx, hxs⟩
                exact ⟨⟨himp x hx, hxs⟩, hx⟩
              · rintro ⟨⟨-, hxs⟩, hx⟩
                exact ⟨hx, hxs⟩
          | succ k =>
              simp only [List.set_cons_succ, List.forall₂_cons, List.getElem?_cons_succ,
                ih xs (by simpa using hb)]
              tauto

theorem RealmShape.Contains.mem_interval {rect : RealmShape} {point : List ℤ}
    (h : rect.Contains point) {k : ℕ} {x : ℤ} {b : ℤ × ℤ} (hx : point[k]? = some x)
    (hb : rect.bounds[k]? = some b) : b.1 ≤ x ∧ x ≤ b.2 := by
  obtain ⟨hpoint, rfl⟩ := List.getElem?_eq_some_iff.mp hx
  obtain ⟨hbounds, rfl⟩ := List.getElem?_eq_some_iff.mp hb
  exact h.2.get hpoint hbounds

theorem eq_of_length_filter_le_one {α : Type} {p : α → Bool} {xs : List α}
    (h : (xs.filter p).length ≤ 1) {i j : ℕ} {a b : α} (hi : xs[i]? = some a) (ha : p a = true)
    (hj : xs[j]? = some b) (hb : p b = true) : i = j := by
  induction xs generalizing i j with
  | nil => simp at hi
  | cons x xs ih =>
      have hlone : p x = true → ∀ {k : ℕ} {c : α}, xs[k]? = some c → p c = true → False := by
        intro hx k c hk hc
        have hpos := List.length_pos_of_mem (List.mem_filter.mpr ⟨List.mem_of_getElem? hk, hc⟩)
        rw [List.filter_cons_of_pos hx, List.length_cons] at h
        omega
      cases i with
      | zero =>
          obtain rfl : x = a := by simpa using hi
          cases j with
          | zero => rfl
          | succ j => exact (hlone ha (by simpa using hj) hb).elim
      | succ i =>
          cases j with
          | zero =>
              obtain rfl : x = b := by simpa using hj
              exact (hlone hb (by simpa using hi) ha).elim
          | succ j =>
              have hle := (List.Sublist.length_le ((List.sublist_cons_self x xs).filter p)).trans h
              have hi' : xs[i]? = some a := by simpa using hi
              have hj' : xs[j]? = some b := by simpa using hj
              rw [ih hle hi' hj']

/-! ## The slices of all shards -/

/-- What `sliceDim` makes of the rectangle of a shard. -/
def Sharding.slicedBounds (sharding : Sharding) (replicatedDim replication dim shard : ℕ) :
    RealmShape :=
  let bounds := (sharding.tileBounds shard).bounds
  { sharding.tileBounds shard with
    bounds := bounds.set dim (sliceInterval (bounds.getD dim (0, 0))
      ((sharding.tileIndex shard).getD replicatedDim 0) replication) }

/-- A real dimension of an array with one replication dimension, such that the
tiles can be cut along it into as many slices as there are replicas. -/
structure Sliceable (sharding : Sharding) (replicatedDim replication dim : ℕ) : Prop where
  tileable : sharding.Tileable
  one : sharding.AtMostOneReplication
  replicated : ∃ d, sharding.dims[replicatedDim]? = some d ∧ d.isReplication = true ∧
    d.sharding = replication
  real : ∃ d, sharding.realDims[dim]? = some d ∧ d.sharding * replication ∣ d.size

namespace Sliceable

variable {sharding : Sharding} {c r k : ℕ} (h : Sliceable sharding c r k)

include h

theorem replication_pos : 0 < r := by
  obtain ⟨d, hd, -, rfl⟩ := h.replicated
  exact h.tileable.sharding_pos d (List.mem_of_getElem? hd)

theorem realDims_ne_nil : sharding.realDims ≠ [] := by
  obtain ⟨d, hd, -⟩ := h.real
  intro hnil
  simp [hnil] at hd

/-- There is no other replication dimension. -/
theorem eq_replicatedDim {c' : ℕ} {d : ShardingDim} (hd : sharding.dims[c']? = some d)
    (hr : d.isReplication = true) : c' = c := by
  obtain ⟨e, he, hre, -⟩ := h.replicated
  exact eq_of_length_filter_le_one h.one hd hr he hre

/-- The dimension that is cut, and the width of its slices. -/
theorem exists_width : ∃ d w, sharding.realDims[k]? = some d ∧ 0 < w ∧
    d.size / d.sharding = r * w := by
  obtain ⟨d, hd, w, hw⟩ := h.real
  have hmem : d ∈ sharding.dims := (List.mem_filter.mp (List.mem_of_getElem? hd)).1
  have hsize := h.tileable.size_pos d hmem
  have hpos := h.tileable.sharding_pos d hmem
  refine ⟨d, w, hd, Nat.pos_of_ne_zero fun hzero ↦ by simp [hzero] at hw; omega, ?_⟩
  rw [hw, Nat.mul_assoc, Nat.mul_div_cancel_left _ hpos]

theorem bounds_getElem? {d : ShardingDim} (hd : sharding.realDims[k]? = some d) (s : ℕ) :
    (sharding.tileBounds s).bounds[k]? =
      some (d.interval ((realIndex sharding.dims (sharding.tileIndex s)).getD k 0)) := by
  have hlen := length_tileIntervals sharding.dims (sharding.tileIndex s) (by simp)
  obtain ⟨hk, hdk⟩ := List.getElem?_eq_some_iff.mp hd
  rw [Sharding.tileBounds, if_neg h.realDims_ne_nil]
  simp only
  rw [tileIntervals_eq_zipWith _ _ (by simp)] at hlen ⊢
  rw [List.length_zipWith] at hlen
  have hki : k < (realIndex sharding.dims (sharding.tileIndex s)).length := by
    have : k < (sharding.dims.filter fun dim ↦ !dim.isReplication).length := hk
    omega
  rw [List.getElem?_zipWith, ← Sharding.realDims, hd, List.getElem?_eq_getElem hki,
    List.getD_eq_getElem _ _ hki]

/-- A slice holds the points of the tile whose place along the dimension that
is cut is that of the replica number. -/
theorem contains_slicedBounds_iff {d : ShardingDim} {w : ℕ}
    (hd : sharding.realDims[k]? = some d) (hw : 0 < w) (hwidth : d.size / d.sharding = r * w)
    {s : ℕ} (hs : s < sharding.devices.size) (point : List ℤ) :
    (sharding.slicedBounds c r k s).Contains point ↔
      (sharding.tileBounds s).Contains point ∧ ∀ x, point[k]? = some x →
        (x - ((r * w : ℕ) : ℤ) * (realIndex sharding.dims (sharding.tileIndex s)).getD k 0) /
          (w : ℤ) = (sharding.tileIndex s).getD c 0 := by
  have hb := h.bounds_getElem? hd s
  set i := (realIndex sharding.dims (sharding.tileIndex s)).getD k 0 with hi
  set replica := (sharding.tileIndex s).getD c 0 with hreplica
  have hlt : replica < r := by
    obtain ⟨e, he, -, rfl⟩ := h.replicated
    have hdigits := tileIndex_digits h.tileable.bijective (h.tileable.devices_eq ▸ hs)
    exact hdigits.getD_lt (by rw [Sharding.factors, List.getElem?_map, he, Option.map_some])
  have hinterval : d.interval i =
      (((r * w : ℕ) : ℤ) * i, ((r * w : ℕ) : ℤ) * i + ((r * w : ℕ) : ℤ) - 1) := by
    rw [ShardingDim.interval, hwidth]
  rw [hinterval] at hb
  have hslice := mem_sliceInterval_iff (((r * w : ℕ) : ℤ) * i) hw h.replication_pos replica
  have hset := forall₂_set_iff (fun x (b : ℤ × ℤ) ↦ b.1 ≤ x ∧ x ≤ b.2) point hb fun x hx ↦
    sliceInterval_subset _ hw hlt ((hslice x).mp hx)
  simp only [RealmShape.Contains, Sharding.slicedBounds, List.length_set,
    List.getD_eq_getElem?_getD, hb, Option.getD_some]
  rw [← List.getD_eq_getElem?_getD, ← hreplica, hset]
  simp only [hslice]
  tauto

/-- The index with a replica number at the replication dimension. -/
theorem insertReplica_spec {coords : List ℕ}
    (hdigits : Digits
      ((sharding.dims.filter fun dim ↦ !dim.isReplication).map ShardingDim.sharding) coords)
    {replica : ℕ} (hreplica : replica < r) :
    Digits sharding.factors (insertReplica sharding.dims coords replica) ∧
      realIndex sharding.dims (insertReplica sharding.dims coords replica) = coords := by
  refine insertReplica_digits sharding.dims coords replica hdigits fun dim hdim hr ↦ ?_
  obtain ⟨c', hc'⟩ := List.getElem?_of_mem hdim
  obtain ⟨e, he, -, rfl⟩ := h.replicated
  rw [h.eq_replicatedDim hc' hr, he, Option.some.injEq] at hc'
  exact hc' ▸ hreplica

/-- The place of a point along the dimension that is cut, within a tile that holds it. -/
theorem place_mem_range {d : ShardingDim} {w : ℕ} (hd : sharding.realDims[k]? = some d)
    (hw : 0 < w) (hwidth : d.size / d.sharding = r * w) {s : ℕ} {point : List ℤ}
    (hcontains : (sharding.tileBounds s).Contains point) {x : ℤ} (hx : point[k]? = some x) :
    0 ≤ (x - ((r * w : ℕ) : ℤ) * (realIndex sharding.dims (sharding.tileIndex s)).getD k 0) /
        (w : ℤ) ∧
      (x - ((r * w : ℕ) : ℤ) * (realIndex sharding.dims (sharding.tileIndex s)).getD k 0) /
        (w : ℤ) < r := by
  have hmem := hcontains.mem_interval hx (h.bounds_getElem? hd s)
  rw [ShardingDim.interval, hwidth] at hmem
  have hpos : (0 : ℤ) < (w : ℤ) := by exact_mod_cast hw
  constructor
  · exact Int.ediv_nonneg (by linarith [hmem.1]) hpos.le
  · rw [Int.ediv_lt_iff_lt_mul hpos]
    have hcast : ((r * w : ℕ) : ℤ) = (r : ℤ) * w := by push_cast; ring
    linarith [hmem.2]

/-- Every element of the array is in the slice of exactly one shard. -/
theorem existsUnique_slice {point : List ℤ} (hpoint : sharding.arrayShape.Contains point) :
    ∃! s, s < sharding.devices.size ∧ (sharding.slicedBounds c r k s).Contains point := by
  obtain ⟨d, w, hd, hw, hwidth⟩ := h.exists_width
  obtain ⟨hlen, coords, hdigits, htile⟩ :=
    exists_owner_coords h.tileable h.realDims_ne_nil hpoint
  obtain ⟨hk, -⟩ := List.getElem?_eq_some_iff.mp hd
  have hx : point[k]? = some point[k] := List.getElem?_eq_getElem (hlen ▸ hk)
  set place := (point[k] - ((r * w : ℕ) : ℤ) * coords.getD k 0) / (w : ℤ) with hplace
  have hiff : ∀ s < sharding.devices.size, (sharding.slicedBounds c r k s).Contains point ↔
      realIndex sharding.dims (sharding.tileIndex s) = coords ∧
        place = (sharding.tileIndex s).getD c 0 := by
    intro s hs
    rw [h.contains_slicedBounds_iff hd hw hwidth hs, htile, hx]
    simp only [Option.some.injEq, forall_eq']
    constructor
    · rintro ⟨rfl, hrep⟩
      exact ⟨rfl, hrep⟩
    · rintro ⟨rfl, hrep⟩
      exact ⟨rfl, hrep⟩
  -- some tile holds the point, so its place along the dimension is in range
  have hrange : 0 ≤ place ∧ place < r := by
    obtain ⟨hzero, hreal⟩ := h.insertReplica_spec hdigits h.replication_pos
    have hindex := tileIndex_tileShard h.tileable.bijective hzero
    have hcontains := (htile (sharding.tileShard (insertReplica sharding.dims coords 0))).mpr
      (by rw [hindex, hreal])
    have hplaced := h.place_mem_range hd hw hwidth hcontains hx
    rwa [hindex, hreal] at hplaced
  lift place to ℕ using hrange.1 with replica
  have hreplica : replica < r := by exact_mod_cast hrange.2
  obtain ⟨hindexDigits, hreal⟩ := h.insertReplica_spec hdigits hreplica
  have hprod := h.tileable.devices_eq
  have hshard := tileShard_lt h.tileable.bijective hindexDigits
  refine ⟨sharding.tileShard (insertReplica sharding.dims coords replica), ⟨hprod ▸ hshard, ?_⟩, ?_⟩
  · rw [hiff _ (hprod ▸ hshard), tileIndex_tileShard h.tileable.bijective hindexDigits]
    obtain ⟨e, he, hr, -⟩ := h.replicated
    refine ⟨hreal, ?_⟩
    rw [List.getD_eq_getElem?_getD, getElem?_insertReplica _ _ _ he hr, Option.getD_some]
  · rintro s ⟨hs, hcontains⟩
    obtain ⟨hcoords, hplace⟩ := (hiff s hs).mp hcontains
    apply tileIndex_injOn h.tileable.bijective (hprod ▸ hs) hshard
    rw [tileIndex_tileShard h.tileable.bijective hindexDigits, ← hcoords]
    refine eq_insertReplica sharding.dims _ replica (by simp) fun c' dim hdim hr ↦ ?_
    obtain rfl := h.eq_replicatedDim hdim hr
    obtain ⟨hlt, -⟩ := List.getElem?_eq_some_iff.mp hdim
    have hlt : c' < (sharding.tileIndex s).length := by simpa using hlt
    rw [List.getElem?_eq_getElem hlt, Option.some.injEq]
    rw [List.getD_eq_getElem _ _ hlt] at hplace
    exact_mod_cast hplace.symm

theorem slicedBounds_subset {s : ℕ} (hs : s < sharding.devices.size) {point : List ℤ}
    (hpoint : (sharding.slicedBounds c r k s).Contains point) :
    (sharding.tileBounds s).Contains point := by
  obtain ⟨d, w, hd, hw, hwidth⟩ := h.exists_width
  exact ((h.contains_slicedBounds_iff hd hw hwidth hs point).mp hpoint).1

end Sliceable

/-! ## Whole tiles -/

/-- Without replication every element of the array is in the tile of exactly
one shard. -/
theorem existsUnique_tile {sharding : Sharding} (h : sharding.Tileable)
    (hfull : sharding.fullySharded = true) {point : List ℤ}
    (hpoint : sharding.arrayShape.Contains point) :
    ∃! s, s < sharding.devices.size ∧ (sharding.tileBounds s).Contains point := by
  have hprod := devices_pos h.sharding_pos h.devices_eq
  have htotal : sharding.totalSharding = sharding.devices.size := of_decide_eq_true hfull
  have hone : sharding.replication = 1 := by
    have hmul := totalSharding_mul_replication h
    rw [htotal] at hmul
    exact Nat.eq_of_mul_eq_mul_left hprod (by rw [hmul, mul_one])
  by_cases hreal : sharding.realDims = []
  · -- a scalar without replication is on a single device
    have hall : ∀ dim ∈ sharding.dims, dim.isReplication = true := by
      intro dim hdim
      by_contra hr
      have hmem : dim ∈ sharding.realDims := List.mem_filter.mpr ⟨hdim, by simpa using hr⟩
      simp [hreal] at hmem
    have hsize : sharding.devices.size = 1 := by
      rw [← h.devices_eq, ← hone, Sharding.replication, List.filter_eq_self.mpr hall]
      rfl
    refine ⟨0, ⟨hprod, ?_⟩, fun s hs ↦ by omega⟩
    simpa [Sharding.tileBounds, Sharding.arrayShape, hreal] using hpoint
  · have hcard := card_tiles_containing h hreal hpoint
    rw [hone, Finset.card_eq_one] at hcard
    obtain ⟨s, hs⟩ := hcard
    have hmem : ∀ t, (t < sharding.devices.size ∧ (sharding.tileBounds t).Contains point) ↔
        t = s := by
      intro t
      rw [← Finset.mem_singleton, ← hs, Finset.mem_filter, Finset.mem_range]
    exact ⟨s, (hmem s).mpr rfl, fun t ht ↦ (hmem t).mp ht⟩

end Zuku
