import Zuku.BroadcastTree

/-!
# Paths to the root of a broadcast tree

A rank receives from the rank with its lowest set bit cleared, so the number of
hops to the root is the number of its set bits.  Every rank it sends to names it
as the parent.
-/

namespace Zuku

open Checked LowBit

section

variable (srcShard destRootShard : ℕ) (dstDevices : DeviceList)

/-- A rank is so many hops away from the rank that receives from the source. -/
inductive HopsToRoot : ℕ → ℕ → Prop
  | root {rank target} :
      getTargetConfig srcShard destRootShard dstDevices rank = .ok target →
      target.srcShard = some srcShard → HopsToRoot rank 0
  | hop {rank parent hops target} :
      getTargetConfig srcShard destRootShard dstDevices rank = .ok target →
      target.dstRootShard = some (destRootShard + parent) → HopsToRoot parent hops →
      HopsToRoot rank (hops + 1)

/-- The place of a rank in its tree: where the search of the intervals ends,
its parent, the hops to the root and its children. -/
structure TreeRank (rank : ℕ) : Prop where
  split : ∃ power split, nextPowerOf2 dstDevices.size = .ok power ∧
    searchSplit rank power = .ok split ∧ split.splitStart = rank ∧
    (0 < rank → rank % 2 = 0 →
      IsGreatest {power | (∃ j, power = 2 ^ j) ∧ power ∣ rank} split.splitSize)
  parent : 0 < rank → ∃ target parent k,
    getTargetConfig srcShard destRootShard dstDevices rank = .ok target ∧
    target.dstRootShard = some (destRootShard + parent) ∧
    IsLowBit rank k ∧ parent = rank - 2 ^ k
  hops : ∀ hops, HopsToRoot srcShard destRootShard dstDevices rank hops ↔
    hops = rank.bitIndices.length
  leaves : ∃ target, getTargetConfig srcShard destRootShard dstDevices rank = .ok target ∧
    target.dstLeafShards.Nodup ∧
    ∀ leaf ∈ target.dstLeafShards, ∃ child childTarget, leaf = destRootShard + child ∧
      rank < child ∧ child < dstDevices.size ∧
      getTargetConfig srcShard destRootShard dstDevices child = .ok childTarget ∧
      childTarget.dstRootShard = some (destRootShard + rank)

variable {dstDevices : DeviceList} {rank : ℕ}

theorem splitSize_greatest (hrank : rank < dstDevices.size) :
    ∃ power split, nextPowerOf2 dstDevices.size = .ok power ∧
      searchSplit rank power = .ok split ∧ split.splitStart = rank ∧
      (0 < rank → rank % 2 = 0 →
        IsGreatest {power | (∃ j, power = 2 ^ j) ∧ power ∣ rank} split.splitSize) := by
  obtain ⟨a, hpower, hle, -⟩ := nextPowerOf2_spec dstDevices.size
  obtain ⟨height, hsearch, hheight⟩ := searchSplit_spec (hrank.trans_le hle)
  refine ⟨2 ^ a, ⟨rank, 2 ^ height⟩, hpower, hsearch, rfl, fun hpos _ ↦ ?_⟩
  rcases hheight with ⟨hzero, -⟩ | hlow
  · omega
  · exact hlow.isGreatest

/-- A rank that is not the root names its parent. -/
theorem exists_parent (hrank : rank < dstDevices.size) {k : ℕ} (hlow : IsLowBit rank k) :
    ∃ target, getTargetConfig srcShard destRootShard dstDevices rank = .ok target ∧
      target.srcShard = none ∧
      target.dstRootShard = some (destRootShard + (rank - 2 ^ k)) := by
  obtain ⟨a, ha⟩ := exists_treeHeight dstDevices.size
  have hne : rank ≠ 0 := hlow.pos.ne'
  refine ⟨_, getTargetConfig_eq srcShard destRootShard dstDevices ha hrank (.inr hlow), ?_, ?_⟩
  · exact if_neg hne
  · exact if_neg hne

theorem exists_root (hpos : 0 < dstDevices.size) :
    ∃ target, getTargetConfig srcShard destRootShard dstDevices 0 = .ok target ∧
      target.srcShard = some srcShard ∧ target.dstRootShard = none := by
  obtain ⟨a, ha⟩ := exists_treeHeight dstDevices.size
  exact ⟨_, getTargetConfig_eq srcShard destRootShard dstDevices ha hpos (.inl ⟨rfl, rfl⟩),
    rfl, rfl⟩

theorem hopsToRoot_zero_iff (hpos : 0 < dstDevices.size) {hops : ℕ} :
    HopsToRoot srcShard destRootShard dstDevices 0 hops ↔ hops = 0 := by
  obtain ⟨root, hroot, hsrc, hdst⟩ :=
    exists_root srcShard destRootShard hpos
  constructor
  · rintro (⟨-, -⟩ | ⟨htarget, hparent, -⟩)
    · rfl
    · obtain rfl := Except.ok.inj (hroot.symm.trans htarget)
      rw [hdst] at hparent
      cases hparent
  · rintro rfl
    exact .root hroot hsrc

/-- The hops from a rank are one more than those from its parent. -/
theorem hopsToRoot_iff_of_isLowBit (hrank : rank < dstDevices.size) {k hops : ℕ}
    (hlow : IsLowBit rank k) :
    HopsToRoot srcShard destRootShard dstDevices rank hops ↔
      ∃ rest, hops = rest + 1 ∧
        HopsToRoot srcShard destRootShard dstDevices (rank - 2 ^ k) rest := by
  obtain ⟨target, htarget, hsrc, hdst⟩ :=
    exists_parent srcShard destRootShard hrank hlow
  constructor
  · rintro (⟨hroot, hsource⟩ | ⟨hnamed, hparent, hrest⟩)
    · obtain rfl := Except.ok.inj (htarget.symm.trans hroot)
      rw [hsrc] at hsource
      cases hsource
    · obtain rfl := Except.ok.inj (htarget.symm.trans hnamed)
      rw [hdst, Option.some.injEq, Nat.add_left_cancel_iff] at hparent
      exact ⟨_, rfl, hparent ▸ hrest⟩
  · rintro ⟨rest, rfl, hrest⟩
    exact .hop htarget hdst hrest

/-- The induction follows the parents, each of which has one set bit less. -/
theorem hopsToRoot_iff (hrank : rank < dstDevices.size) {hops : ℕ} :
    HopsToRoot srcShard destRootShard dstDevices rank hops ↔ hops = rank.bitIndices.length := by
  induction rank using Nat.strong_induction_on generalizing hops with
  | _ rank ih =>
    rcases Nat.eq_zero_or_pos rank with rfl | hpos
    · rw [hopsToRoot_zero_iff srcShard destRootShard hrank, Nat.bitIndices_zero, List.length_nil]
    · obtain ⟨k, hlow⟩ := exists_isLowBit hpos
      have hpow := Nat.two_pow_pos k
      rw [hopsToRoot_iff_of_isLowBit srcShard destRootShard hrank hlow, hlow.bitIndices_eq,
        List.length_cons]
      constructor
      · rintro ⟨rest, rfl, hrest⟩
        rw [(ih (rank - 2 ^ k) (by omega) (by omega)).mp hrest]
      · intro hhops
        exact ⟨_, hhops, (ih (rank - 2 ^ k) (by omega) (by omega)).mpr rfl⟩

/-- Every child of a rank has the rank as its parent. -/
theorem leaves_name_parent (hrank : rank < dstDevices.size) :
    ∃ target, getTargetConfig srcShard destRootShard dstDevices rank = .ok target ∧
      target.dstLeafShards.Nodup ∧
      ∀ leaf ∈ target.dstLeafShards, ∃ child childTarget, leaf = destRootShard + child ∧
        rank < child ∧ child < dstDevices.size ∧
        getTargetConfig srcShard destRootShard dstDevices child = .ok childTarget ∧
        childTarget.dstRootShard = some (destRootShard + rank) := by
  obtain ⟨a, ha⟩ := exists_treeHeight dstDevices.size
  obtain ⟨height, hheight⟩ := exists_rankHeight a rank
  refine ⟨_, getTargetConfig_eq srcShard destRootShard dstDevices ha hrank hheight, ?_, ?_⟩
  · apply (nodup_leafRanks _ _ _).map
    exact add_right_injective destRootShard
  · intro leaf hleaf
    obtain ⟨child, hchild, rfl⟩ := List.mem_map.mp hleaf
    obtain ⟨hroom, j, hj, rfl⟩ := mem_leafRanks.mp hchild
    have hpow := Nat.two_pow_pos j
    have hfar := Nat.pow_le_pow_right (n := 2) (by norm_num) (by omega : j ≤ height - 1)
    have hlow : IsLowBit (rank + 2 ^ j) j := isLowBit_add ((pow_dvd_pow 2 hj).trans hheight.dvd)
    obtain ⟨childTarget, htarget, -, hparent⟩ :=
      exists_parent srcShard destRootShard
        (by omega : rank + 2 ^ j < dstDevices.size) hlow
    rw [Nat.add_sub_cancel] at hparent
    exact ⟨rank + 2 ^ j, childTarget, rfl, by omega, by omega, htarget, hparent⟩

end

/-- Every rank of a group of any size has its place in the tree. -/
theorem broadcast_tree_rank (srcShard destRootShard : ℕ) (dstDevices : DeviceList) (rank : ℕ)
    (hrank : rank < dstDevices.size) : TreeRank srcShard destRootShard dstDevices rank where
  split := splitSize_greatest hrank
  parent hpos := by
    obtain ⟨k, hlow⟩ := exists_isLowBit hpos
    obtain ⟨target, htarget, -, hparent⟩ := exists_parent srcShard destRootShard hrank hlow
    exact ⟨target, _, k, htarget, hparent, hlow, rfl⟩
  hops _ := hopsToRoot_iff srcShard destRootShard hrank
  leaves := leaves_name_parent srcShard destRootShard hrank

/-- Rank 6 of a group of seven is two hops away from the root. -/
theorem treeRank_six_of_seven : TreeRank 1 3 ⟨0, 7⟩ 6 :=
  broadcast_tree_rank 1 3 ⟨0, 7⟩ 6 (by decide)

end Zuku
