import Zuku.ScatterGather
import Zuku.Library.ListLookup

/-!
# The dimension of a scatter-gather

Dimensions are compared with their permutation field.  Two shardings with
bijective permutations that differ in one dimension cannot differ in the
permutation field alone, so that the factors of the dimension differ and the
assertion of the planner holds.
-/

namespace Zuku

open Checked

/-! ## The counted dimension -/

theorem differingDims_of_eq {pairs : List (ShardingDim × ShardingDim)}
    (h : ∀ pair ∈ pairs, pair.1 = pair.2) (k : ℕ) (found : ℕ × Option ℕ) :
    differingDims pairs k found = found := by
  induction pairs generalizing k with
  | nil => rfl
  | cons pair pairs ih =>
      obtain ⟨hpair, hpairs⟩ := List.forall_mem_cons.mp h
      obtain ⟨x, y⟩ := pair
      rw [differingDims, if_neg (not_not_intro hpair)]
      exact ih hpairs (k + 1)

/-- The one dimension that is counted differs, and it is the last one remembered. -/
theorem exists_differing_dim {src dst : Sharding} (hlength : src.dims.length = dst.dims.length)
    {last : Option ℕ} (h : differingDims (src.dims.zip dst.dims) 0 (0, none) = (1, last)) :
    ∃ dim srcDim dstDim, last = some dim ∧ src.dims[dim]? = some srcDim ∧
      dst.dims[dim]? = some dstDim ∧ srcDim ≠ dstDim ∧
        ∀ j ≠ dim, src.dims[j]? = dst.dims[j]? := by
  obtain ⟨dim, hlast, hlt, hsame⟩ := differingDims_one (congrArg Prod.fst h)
  rw [h, Nat.zero_add] at hlast
  have hsrc : dim < src.dims.length := by simp at hlt; omega
  have hdst : dim < dst.dims.length := hlength ▸ hsrc
  have hother (j : ℕ) (hj : j ≠ dim) : src.dims[j]? = dst.dims[j]? :=
    getElem?_dims_eq hlength hsame hj
  refine ⟨dim, _, _, hlast, List.getElem?_eq_getElem hsrc, List.getElem?_eq_getElem hdst,
    fun heq ↦ ?_, hother⟩
  -- without a difference there is nothing to count
  have hall : ∀ pair ∈ src.dims.zip dst.dims, pair.1 = pair.2 := by
    intro pair hpair
    obtain ⟨j, hj⟩ := List.getElem?_of_mem hpair
    obtain ⟨hx, hy⟩ := List.getElem?_zip_eq_some.mp hj
    by_cases hne : j = dim
    · subst hne
      rw [List.getElem?_eq_getElem hsrc, Option.some.injEq] at hx
      rw [List.getElem?_eq_getElem hdst, Option.some.injEq] at hy
      rw [← hx, ← hy, heq]
    · rw [hother j hne, hy, Option.some.injEq] at hx
      exact hx.symm
  rw [differingDims_of_eq hall] at h
  simp at h

/-- Bijective permutations cannot differ in one place only. -/
theorem permutation_eq {src dst : Sharding}
    (hsrc : IndexedWrites.Covers src.dims.length src.permutations)
    (hdst : IndexedWrites.Covers dst.dims.length dst.permutations)
    (hlength : src.dims.length = dst.dims.length) {dim : ℕ}
    (hsame : ∀ j ≠ dim, src.dims[j]? = dst.dims[j]?) : src.permutations = dst.permutations := by
  rw [← hlength] at hdst
  refine @ListLookup.eq_of_perm_of_getElem?_eq _ _ dim _ (hsrc.trans hdst.symm) fun j hj ↦ ?_
  rw [Sharding.permutations, Sharding.permutations, List.getElem?_map, List.getElem?_map,
    hsame j hj]

theorem sharding_ne_of_differing {src dst : Sharding}
    (hsizes : src.dims.map ShardingDim.size = dst.dims.map ShardingDim.size)
    (hsrc : IndexedWrites.Covers src.dims.length src.permutations)
    (hdst : IndexedWrites.Covers dst.dims.length dst.permutations)
    {dim : ℕ} {srcDim dstDim : ShardingDim} (hsrcDim : src.dims[dim]? = some srcDim)
    (hdstDim : dst.dims[dim]? = some dstDim) (hne : srcDim ≠ dstDim)
    (hsame : ∀ j ≠ dim, src.dims[j]? = dst.dims[j]?) : srcDim.sharding ≠ dstDim.sharding := by
  intro hsharding
  have hlength : src.dims.length = dst.dims.length := by
    simpa using congrArg List.length hsizes
  have hsize := congrArg (·[dim]?) hsizes
  have hpermutation := congrArg (·[dim]?) (permutation_eq hsrc hdst hlength hsame)
  simp only [Sharding.permutations, List.getElem?_map, hsrcDim, hdstDim, Option.map_some,
    Option.some.injEq] at hsize hpermutation
  cases srcDim
  cases dstDim
  simp_all

/-! ## Functions without assertions -/

theorem neverAsserts_write (rect : RealmShape) (lo hi : ℤ) :
    NeverFaults .assertionFailed (rect.write lo hi) := by
  unfold RealmShape.write NeverFaults
  split <;> simp

theorem neverAsserts_makeTileBox [RealmBuild] (index : List ℕ) (sharding : Sharding) :
    NeverFaults .assertionFailed (makeTileBox index sharding) := by
  have hloop (dims : List ShardingDim) (boxDim : ℕ) (bounds : RealmShape) :
      NeverFaults .assertionFailed (makeTileBoxLoop index boxDim dims bounds) := by
    induction dims generalizing boxDim bounds with
    | nil => exact neverFaults_ok _
    | cons dim dims ih =>
        refine (neverFaults_checkedDiv (by simp) _ _).bind fun tileSize ↦ ?_
        split_ifs
        · exact (neverFaults_vectorAt (by simp) _ _).bind fun _ ↦
            (neverAsserts_write _ _ _).bind fun _ ↦ ih _ _
        · exact ih _ _
  have hrank (rank : ℕ) (what : String) :
      NeverFaults .assertionFailed (selectRank rank what) := by
    unfold selectRank NeverFaults
    split_ifs <;> simp
  exact (hrank _ _).bind fun _ ↦ hloop _ _ _

theorem neverAsserts_computeTileIndex (shard : ℕ) (sharding : Sharding) :
    NeverFaults .assertionFailed (computeTileIndex shard sharding) := by
  have hunpermute (dims : List ShardingDim) (pDim : ℕ) (extents permutation : List ℕ) :
      NeverFaults .assertionFailed (unpermute dims pDim extents permutation) := by
    induction dims generalizing pDim extents permutation with
    | nil => exact neverFaults_ok _
    | cons dim dims ih =>
        exact (neverFaults_vectorSet (by simp) _ _ _).bind fun _ ↦
          (neverFaults_vectorSet (by simp) _ _ _).bind fun _ ↦ ih _ _ _
  have hsplit (digits : List (ℕ × ℕ)) (stride remainder : ℕ) (indices : List ℕ) :
      NeverFaults .assertionFailed (splitIndex digits stride remainder indices) := by
    induction digits generalizing stride remainder indices with
    | nil => exact neverFaults_ok _
    | cons digit digits ih =>
        exact (neverFaults_checkedDiv (by simp) _ _).bind fun _ ↦
          (neverFaults_checkedDiv (by simp) _ _).bind fun _ ↦
            (neverFaults_vectorSet (by simp) _ _ _).bind fun _ ↦ ih _ _ _
  exact (hunpermute _ _ _ _).bind fun _ ↦
    (neverFaults_checkedProd (by simp) _).bind fun _ ↦ hsplit _ _ _ _

theorem neverAsserts_computeTileShard (indices : List ℕ) (sharding : Sharding) :
    NeverFaults .assertionFailed (computeTileShard indices sharding) := by
  have hloop (dims : List ShardingDim) (indices : List ℕ) (dim index : ℕ) :
      NeverFaults .assertionFailed (computeTileShardLoop dims dim index indices) := by
    induction indices generalizing dim index with
    | nil => exact neverFaults_ok _
    | cons i indices ih => exact (neverFaults_vectorAt (by simp) _ _).bind fun _ ↦ ih _ _
  cases indices with
  | nil => exact neverFaults_ok _
  | cons i indices => exact hloop _ _ _ _

theorem neverAsserts_foldedSlice [RealmBuild] (dim q shard : ℕ) (fine coarse : Sharding) :
    NeverFaults .assertionFailed (foldedSlice dim q shard fine coarse) :=
  (neverAsserts_computeTileIndex _ _).bind fun _ ↦
    (neverAsserts_makeTileBox _ _).bind fun _ ↦
      (neverFaults_vectorAt (by simp) _ _).bind fun _ ↦
        (neverFaults_checkedDiv (by simp) _ _).bind fun _ ↦
          (neverFaults_vectorSet (by simp) _ _ _).bind fun _ ↦
            (neverAsserts_computeTileShard _ _).bind fun _ ↦ neverFaults_ok _

theorem neverAsserts_unfoldedSlices [RealmBuild] (dim q shard : ℕ) (fine coarse : Sharding) :
    NeverFaults .assertionFailed (unfoldedSlices dim q shard fine coarse) :=
  (neverAsserts_computeTileIndex _ _).bind fun _ ↦
    (neverFaults_vectorAt (by simp) _ _).bind fun _ ↦
      neverFaults_mapM (fun _ ↦ (neverFaults_vectorSet (by simp) _ _ _).bind fun _ ↦
        (neverAsserts_makeTileBox _ _).bind fun _ ↦
          (neverAsserts_computeTileShard _ _).bind fun _ ↦ neverFaults_ok _) _

theorem neverAsserts_getScatterGatherConfig [RealmBuild] {dim : ℕ} {src dst : Sharding}
    {srcDim dstDim : ShardingDim} (hsrc : src.dims[dim]? = some srcDim)
    (hdst : dst.dims[dim]? = some dstDim) (hne : srcDim.sharding ≠ dstDim.sharding)
    (srcShard dstShard : Option ℕ) :
    NeverFaults .assertionFailed (getScatterGatherConfig dim srcShard dstShard src dst) := by
  rw [getScatterGatherConfig, vectorAt_of_getElem? hsrc, ok_bind, vectorAt_of_getElem? hdst,
    ok_bind, assertThat_of hne, ok_bind]
  split_ifs
  · refine (neverFaults_checkedDiv (by simp) _ _).bind fun q ↦
      (neverFaults_checkedDiv (by simp) _ _).bind fun _ ↦ ?_
    refine (neverFaults_whenSome (fun _ ↦ ?_) _ _).bind fun _ ↦
      (neverFaults_whenSome (fun _ ↦ ?_) _ _).bind fun _ ↦ neverFaults_ok _
    · exact (neverAsserts_foldedSlice _ _ _ _ _).bind fun _ ↦
        (neverFaults_checkedMod (by simp) _ _).bind fun _ ↦ neverFaults_ok _
    · exact (neverAsserts_unfoldedSlices _ _ _ _ _).bind fun _ ↦ neverFaults_ok _
  · refine (neverFaults_checkedDiv (by simp) _ _).bind fun q ↦
      (neverFaults_checkedDiv (by simp) _ _).bind fun _ ↦ ?_
    refine (neverFaults_whenSome (fun _ ↦ ?_) _ _).bind fun _ ↦
      (neverFaults_whenSome (fun _ ↦ ?_) _ _).bind fun _ ↦ neverFaults_ok _
    · exact (neverAsserts_foldedSlice _ _ _ _ _).bind fun _ ↦ neverFaults_ok _
    · exact (neverAsserts_unfoldedSlices _ _ _ _ _).bind fun _ ↦ neverFaults_ok _

/-! ## The assertion -/

/-- The assertion of the planner cannot fail, and the number of slices is positive. -/
theorem scatterGather_neverAsserts [RealmBuild] {src dst : Sharding}
    (hsizes : src.dims.map ShardingDim.size = dst.dims.map ShardingDim.size)
    (hsrc : IndexedWrites.Covers src.dims.length src.permutations)
    (hdst : IndexedWrites.Covers dst.dims.length dst.permutations)
    (hposSrc : ∀ shardingDim ∈ src.dims, 1 ≤ shardingDim.sharding)
    (hposDst : ∀ shardingDim ∈ dst.dims, 1 ≤ shardingDim.sharding) {last : Option ℕ}
    (hone : differingDims (src.dims.zip dst.dims) 0 (0, none) = (1, last)) :
    (∃ dim srcDim dstDim, last = some dim ∧ src.dims[dim]? = some srcDim ∧
      dst.dims[dim]? = some dstDim ∧ srcDim.sharding ≠ dstDim.sharding ∧
        (dstDim.sharding < srcDim.sharding → 1 ≤ srcDim.sharding / dstDim.sharding) ∧
        (srcDim.sharding < dstDim.sharding → 1 ≤ dstDim.sharding / srcDim.sharding)) ∧
      ∀ p, determineScatterGatherConfig p src dst ≠ .error .assertionFailed := by
  have hlength : src.dims.length = dst.dims.length := by
    simpa using congrArg List.length hsizes
  obtain ⟨dim, srcDim, dstDim, rfl, hsrcDim, hdstDim, hne, hsame⟩ :=
    exists_differing_dim hlength hone
  have hsharding := sharding_ne_of_differing hsizes hsrc hdst hsrcDim hdstDim hne hsame
  have hposSrc := hposSrc srcDim (List.mem_of_getElem? hsrcDim)
  have hposDst := hposDst dstDim (List.mem_of_getElem? hdstDim)
  refine ⟨⟨dim, srcDim, dstDim, rfl, hsrcDim, hdstDim, hsharding,
    fun h ↦ Nat.div_pos h.le hposDst, fun h ↦ Nat.div_pos h.le hposSrc⟩, fun p ↦ ?_⟩
  rw [determineScatterGatherConfig, hone]
  exact (neverAsserts_getScatterGatherConfig hsrcDim hdstDim hsharding _ _).bind
    fun _ ↦ neverFaults_ok _

/-- The columns are halved onto one device each, in a transposed mesh. -/
theorem scatterGather_neverAsserts_columns :
    @determineScatterGatherConfig .rankFour ⟨.gpu, 3, 3⟩ ⟨[⟨8, 4, 1⟩, ⟨6, 2, 0⟩], ⟨0, 8⟩⟩
      ⟨[⟨8, 4, 1⟩, ⟨6, 1, 0⟩], ⟨2, 4⟩⟩ ≠ .error .assertionFailed :=
  (@scatterGather_neverAsserts .rankFour ⟨[⟨8, 4, 1⟩, ⟨6, 2, 0⟩], ⟨0, 8⟩⟩
    ⟨[⟨8, 4, 1⟩, ⟨6, 1, 0⟩], ⟨2, 4⟩⟩ (by decide) (by decide) (by decide) (by decide) (by decide)
    (some 1) (by decide)).2 ⟨.gpu, 3, 3⟩

end Zuku
