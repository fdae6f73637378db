import Zuku.ReshardBroadcast

/-!
# Which ranks of a broadcast tree are fed

The descent of a rank ends at its lowest set bit, so its parent is the rank
with that bit cleared.  A rank sends to its children from the farthest one to
the nearest one, but only when the farthest one exists.
-/

namespace Zuku

open Checked LowBit

/-! ## The two loops -/

theorem nextPowerOf2_spec (numLeaves : ℕ) :
    ∃ a, nextPowerOf2 numLeaves = .ok (2 ^ a) ∧ numLeaves ≤ 2 ^ a ∧
      (0 < a → 2 ^ a < 2 * numLeaves) := by
  obtain ⟨power, hrun, ⟨a, rfl, hsmall⟩, hexit⟩ := whileLoop_spec
    (fun power ↦ decide (power < numLeaves)) (fun power ↦ power * 2)
    (fun power ↦ ∃ a, power = 2 ^ a ∧ (0 < a → 2 ^ a < 2 * numLeaves))
    (fun power ↦ numLeaves - power)
    (by
      rintro _ ⟨a, rfl, -⟩ hcond
      have hlt : 2 ^ a < numLeaves := of_decide_eq_true hcond
      exact ⟨a + 1, by rw [pow_succ], fun _ ↦ by rw [pow_succ]; omega⟩)
    (by
      rintro _ ⟨a, rfl, -⟩ hcond
      have hlt : 2 ^ a < numLeaves := of_decide_eq_true hcond
      have hpos := Nat.two_pow_pos a
      omega)
    numLeaves 1 ⟨0, rfl, by omega⟩ (by omega)
  exact ⟨a, hrun, by simpa using hexit, hsmall⟩

/-- The height of a rank in a tree of height `a`: its subtree covers the ranks
up to the next multiple of `2 ^ height`. -/
def RankHeight (a rank height : ℕ) : Prop :=
  rank = 0 ∧ height = a ∨ IsLowBit rank height

/-- The interval of the descent has the rank strictly inside it, and is
centred at the root or at a rank of its own size. -/
structure Split.Descends (a myRank : ℕ) (split : Split) (height : ℕ) : Prop where
  size_eq : split.splitSize = 2 ^ height
  start : RankHeight a split.splitStart height
  start_lt : split.splitStart < myRank + 2 ^ height
  lt_start : myRank < split.splitStart + 2 ^ height

theorem Split.Descends.dvd {a myRank height : ℕ} {split : Split}
    (h : split.Descends a myRank height) : 2 ^ height ∣ split.splitStart := by
  rcases h.start with ⟨hzero, -⟩ | hlow
  · exact hzero ▸ dvd_zero _
  · exact hlow.dvd

theorem Split.Descends.step {a myRank height : ℕ} {split : Split}
    (h : split.Descends a myRank height) (hne : split.splitStart ≠ myRank) :
    ∃ below, height = below + 1 ∧ (split.step myRank).Descends a myRank below := by
  rcases height with _ | below
  · have := h.start_lt
    have := h.lt_start
    omega
  refine ⟨below, rfl, ?_⟩
  have hpow : 2 ^ (below + 1) = 2 ^ below + 2 ^ below := by rw [pow_succ]; ring
  have hhalf : split.splitSize / 2 = 2 ^ below := by
    rw [h.size_eq, hpow]
    omega
  have hstart := h.start_lt
  have hrank := h.lt_start
  unfold Split.step
  rw [hhalf]
  rcases Nat.lt_or_gt_of_ne hne with hlt | hgt
  · rw [if_pos hlt]
    exact ⟨rfl, .inr (isLowBit_add h.dvd), by simp only; omega, by simp only; omega⟩
  · rw [if_neg (by omega), if_pos hgt]
    rcases h.start with ⟨hzero, -⟩ | hlow
    · omega
    · have hle := hlow.pow_le
      have hback : split.splitStart - 2 ^ below
          = split.splitStart - 2 ^ (below + 1) + 2 ^ below := by omega
      have hdvd : 2 ^ (below + 1) ∣ split.splitStart - 2 ^ (below + 1) :=
        Nat.dvd_sub hlow.dvd dvd_rfl
      refine ⟨rfl, .inr ?_, by simp only; omega, by simp only; omega⟩
      simp only [hback]
      exact isLowBit_add hdvd

theorem searchSplit_spec {a myRank : ℕ} (hrank : myRank < 2 ^ a) :
    ∃ height, searchSplit myRank (2 ^ a) = .ok ⟨myRank, 2 ^ height⟩ ∧
      RankHeight a myRank height := by
  obtain ⟨split, hrun, ⟨height, hdesc⟩, hexit⟩ := whileLoop_spec
    (fun split : Split ↦ decide (split.splitStart ≠ myRank)) (Split.step myRank)
    (fun split ↦ ∃ height, split.Descends a myRank height) Split.splitSize
    (by
      rintro split ⟨height, hdesc⟩ hcond
      obtain ⟨below, -, hbelow⟩ := hdesc.step (of_decide_eq_true hcond)
      exact ⟨below, hbelow⟩)
    (by
      rintro split ⟨height, hdesc⟩ hcond
      obtain ⟨below, rfl, hbelow⟩ := hdesc.step (of_decide_eq_true hcond)
      rw [hbelow.size_eq, hdesc.size_eq]
      exact Nat.pow_lt_pow_right (by norm_num) (by omega))
    (2 ^ a) ⟨0, 2 ^ a⟩ ⟨a, rfl, .inl ⟨rfl, rfl⟩, by positivity, by simpa using hrank⟩ le_rfl
  have hstart : split.splitStart = myRank := by simpa using hexit
  refine ⟨height, ?_, hstart ▸ hdesc.start⟩
  unfold searchSplit
  rw [hrun, ← hstart, ← hdesc.size_eq]

/-- The ranks that a rank of a given height sends to, the farthest one first. -/
def leafRanks (numLeaves rank : ℕ) : ℕ → List ℕ
  | 0 => []
  | height + 1 =>
      if rank + 2 ^ height < numLeaves then
        (List.range (height + 1)).reverse.map fun j ↦ rank + 2 ^ j
      else []

theorem leafLoop_run (destRootShard numLeaves rank : ℕ) :
    ∀ (j : ℕ) (targets : List ℕ) (fuel : ℕ), j < fuel → rank + 2 ^ j < numLeaves →
      ∃ loop, whileLoop (LeafLoop.continues numLeaves) (LeafLoop.step destRootShard) fuel
        ⟨2 ^ j, rank + 2 ^ j, targets⟩ = .ok loop ∧
        loop.targets = targets ++
          ((List.range (j + 1)).reverse.map fun i ↦ destRootShard + (rank + 2 ^ i)) := by
  intro j targets fuel hfuel hlt
  induction j generalizing targets fuel with
  | zero =>
      rcases fuel with _ | fuel
      · omega
      have hcond : LeafLoop.continues numLeaves ⟨2 ^ 0, rank + 2 ^ 0, targets⟩ = true := by
        simpa [LeafLoop.continues] using hlt
      refine ⟨LeafLoop.step destRootShard ⟨2 ^ 0, rank + 2 ^ 0, targets⟩, ?_, by
        simp [LeafLoop.step]⟩
      rw [whileLoop_succ_of hcond, whileLoop_of_not (by simp [LeafLoop.continues, LeafLoop.step])]
  | succ j ih =>
      rcases fuel with _ | fuel
      · omega
      have hpow : 2 ^ (j + 1) = 2 ^ j + 2 ^ j := by rw [pow_succ]; ring
      have hpos := Nat.two_pow_pos j
      have hcond : LeafLoop.continues numLeaves ⟨2 ^ (j + 1), rank + 2 ^ (j + 1), targets⟩
          = true := by
        rw [LeafLoop.continues, Bool.and_eq_true, decide_eq_true_eq, decide_eq_true_eq]
        exact ⟨hlt, by positivity⟩
      have hstep : LeafLoop.step destRootShard ⟨2 ^ (j + 1), rank + 2 ^ (j + 1), targets⟩
          = ⟨2 ^ j, rank + 2 ^ j, targets ++ [destRootShard + (rank + 2 ^ (j + 1))]⟩ := by
        have hhalf : 2 ^ (j + 1) / 2 = 2 ^ j := by omega
        have hnext : rank + 2 ^ (j + 1) - 2 ^ j = rank + 2 ^ j := by omega
        simp only [LeafLoop.step, hhalf, hnext]
      obtain ⟨loop, hrun, htargets⟩ :=
        ih (targets ++ [destRootShard + (rank + 2 ^ (j + 1))]) fuel (by omega) (by omega)
      refine ⟨loop, by rw [whileLoop_succ_of hcond, hstep, hrun], ?_⟩
      rw [htargets, List.range_succ (n := j + 1)]
      simp

theorem leafTargets_eq (destRootShard numLeaves rank height : ℕ) :
    leafTargets destRootShard numLeaves ⟨rank, 2 ^ height⟩
      = .ok ((leafRanks numLeaves rank height).map (destRootShard + ·)) := by
  unfold leafTargets
  rcases height with _ | height
  · simp only [pow_zero, Nat.reduceDiv]
    rw [whileLoop_of_not (by simp [LeafLoop.continues])]
    rfl
  have hhalf : 2 ^ (height + 1) / 2 = 2 ^ height := by
    rw [pow_succ]
    omega
  simp only [hhalf, leafRanks]
  split
  case isTrue hlt =>
    obtain ⟨loop, hrun, htargets⟩ :=
      leafLoop_run destRootShard numLeaves rank height [] (2 ^ height) Nat.lt_two_pow_self hlt
    simp only [hrun, ok_bind, htargets, pure_eq_ok, List.nil_append, List.map_map,
      Function.comp_def]
  case isFalse hge =>
    rw [whileLoop_of_not (by simp [LeafLoop.continues, hge])]
    rfl

/-! ## What a rank is told -/

/-- The configuration of a rank of a given height. -/
def rankConfig (srcShard destRootShard numLeaves rank height : ℕ) : TargetConfig where
  srcShard := if rank = 0 then some srcShard else none
  dstRootShard := if rank = 0 then none else some (destRootShard + (rank - 2 ^ height))
  dstLeafShards := (leafRanks numLeaves rank height).map (destRootShard + ·)

/-- A tree has the least height that has room for all its ranks. -/
def TreeHeight (numLeaves a : ℕ) : Prop :=
  numLeaves ≤ 2 ^ a ∧ (0 < a → 2 ^ a < 2 * numLeaves)

theorem exists_treeHeight (numLeaves : ℕ) : ∃ a, TreeHeight numLeaves a := by
  obtain ⟨a, -, hle, hlt⟩ := nextPowerOf2_spec numLeaves
  exact ⟨a, hle, hlt⟩

theorem TreeHeight.unique {numLeaves a b : ℕ} (ha : TreeHeight numLeaves a)
    (hb : TreeHeight numLeaves b) : a = b := by
  have hle : ∀ {a b}, TreeHeight numLeaves a → TreeHeight numLeaves b → a ≤ b := by
    intro a b ha hb
    by_contra hlt
    have hpow := Nat.pow_le_pow_right (n := 2) (by norm_num) (by omega : b + 1 ≤ a)
    rw [pow_succ] at hpow
    have := ha.2 (by omega)
    have := hb.1
    omega
  exact le_antisymm (hle ha hb) (hle hb ha)

theorem exists_rankHeight (a rank : ℕ) : ∃ height, RankHeight a rank height := by
  rcases Nat.eq_zero_or_pos rank with rfl | hpos
  · exact ⟨a, .inl ⟨rfl, rfl⟩⟩
  · obtain ⟨height, hlow⟩ := exists_isLowBit hpos
    exact ⟨height, .inr hlow⟩

theorem RankHeight.unique {a rank j k : ℕ} (hj : RankHeight a rank j)
    (hk : RankHeight a rank k) : j = k := by
  rcases hj with ⟨rfl, rfl⟩ | hj <;> rcases hk with ⟨hzero, rfl⟩ | hk
  · rfl
  · exact absurd hk.pos (lt_irrefl 0)
  · exact absurd hj.pos (by omega)
  · exact hj.unique hk

theorem RankHeight.dvd {a rank height : ℕ} (h : RankHeight a rank height) :
    2 ^ height ∣ rank := by
  rcases h with ⟨rfl, -⟩ | hlow
  · exact dvd_zero _
  · exact hlow.dvd

theorem getTargetConfig_eq (srcShard destRootShard : ℕ) (dstDevices : DeviceList)
    {a rank height : ℕ} (ha : TreeHeight dstDevices.size a) (hrank : rank < dstDevices.size)
    (hheight : RankHeight a rank height) :
    getTargetConfig srcShard destRootShard dstDevices rank
      = .ok (rankConfig srcShard destRootShard dstDevices.size rank height) := by
  unfold getTargetConfig rankConfig
  by_cases hodd : rank % 2 = 1
  · have hzero : height = 0 := hheight.unique (.inr (isLowBit_zero_iff.mpr hodd))
    have hne : rank ≠ 0 := by omega
    subst hzero
    rw [if_pos (by omega), if_neg hne, if_neg hne, Nat.add_sub_assoc (by omega)]
    rfl
  · obtain ⟨b, hpower, hb⟩ := nextPowerOf2_spec dstDevices.size
    obtain rfl := ha.unique hb
    obtain ⟨k, hsearch, hk⟩ := searchSplit_spec (hrank.trans_le ha.1)
    obtain rfl := hk.unique hheight
    rw [if_neg (by omega)]
    simp only [hpower, ok_bind, hsearch, leafTargets_eq, pure_eq_ok]
    rcases Nat.eq_zero_or_pos rank with rfl | hpos
    · rfl
    · have hle : 2 ^ k ≤ rank := Nat.le_of_dvd hpos hheight.dvd
      rw [if_pos hpos, if_neg hpos.ne', if_neg hpos.ne', Nat.add_sub_assoc hle]

/-! ## Parents and children -/

theorem mem_leafRanks {numLeaves rank height leaf : ℕ} :
    leaf ∈ leafRanks numLeaves rank height ↔
      rank + 2 ^ (height - 1) < numLeaves ∧ ∃ j < height, leaf = rank + 2 ^ j := by
  rcases height with _ | height
  · simp [leafRanks]
  · rw [leafRanks]
    split
    case isTrue hlt => simp [hlt, eq_comm]
    case isFalse hge => simp [hge]

theorem nodup_leafRanks (numLeaves rank height : ℕ) : (leafRanks numLeaves rank height).Nodup := by
  rcases height with _ | height
  · exact List.nodup_nil
  · rw [leafRanks]
    split
    case isTrue =>
      refine (List.nodup_reverse.mpr List.nodup_range).map fun i j hij ↦ ?_
      exact Nat.pow_right_injective le_rfl (Nat.add_left_cancel hij)
    case isFalse => exact List.nodup_nil

/-- Only the rank with the lowest set bit cleared can send to a rank. -/
theorem eq_of_mem_leafRanks {a numLeaves parent height leaf j : ℕ}
    (hheight : RankHeight a parent height) (hleaf : IsLowBit leaf j)
    (hmem : leaf ∈ leafRanks numLeaves parent height) : parent = leaf - 2 ^ j := by
  obtain ⟨-, i, hi, rfl⟩ := mem_leafRanks.mp hmem
  have hlow := isLowBit_add ((pow_dvd_pow 2 hi).trans hheight.dvd)
  rw [hleaf.unique hlow, Nat.add_sub_cancel]

section Tree

variable (srcShard destRootShard : ℕ) (dstDevices : DeviceList)

/-- The parent a rank names lists it exactly once, and no other rank of the
group lists it. -/
def RankFed (rank : ℕ) : Prop :=
  ∃ parent < dstDevices.size, ∃ target parentTarget,
    getTargetConfig srcShard destRootShard dstDevices rank = .ok target ∧
    target.dstRootShard = some (destRootShard + parent) ∧
    getTargetConfig srcShard destRootShard dstDevices parent = .ok parentTarget ∧
    parentTarget.dstLeafShards.count (destRootShard + rank) = 1 ∧
    ∀ other < dstDevices.size, other ≠ parent → ∀ otherTarget,
      getTargetConfig srcShard destRootShard dstDevices other = .ok otherTarget →
        destRootShard + rank ∉ otherTarget.dstLeafShards

/-- The ranks whose shard has the data of the source shard once every copy
that has both a sender and a receiver is done. -/
inductive Receives : ℕ → Prop
  | fromSource {rank target} :
      getTargetConfig srcShard destRootShard dstDevices rank = .ok target →
      target.srcShard = some srcShard → Receives rank
  | fromParent {rank parent target parentTarget} :
      Receives parent →
      getTargetConfig srcShard destRootShard dstDevices rank = .ok target →
      target.dstRootShard = some (destRootShard + parent) →
      getTargetConfig srcShard destRootShard dstDevices parent = .ok parentTarget →
      destRootShard + rank ∈ parentTarget.dstLeafShards → Receives rank

variable {srcShard destRootShard dstDevices}

theorem rankFed_iff_mem {a rank parent j height : ℕ} (ha : TreeHeight dstDevices.size a)
    (hrank : rank < dstDevices.size) (hlow : IsLowBit rank j) (hparent : rank = parent + 2 ^ j)
    (hheight : RankHeight a parent height) :
    RankFed srcShard destRootShard dstDevices rank ↔
      rank ∈ leafRanks dstDevices.size parent height := by
  have hpow := Nat.two_pow_pos j
  have hlt : parent < dstDevices.size := by omega
  have hne : rank ≠ 0 := hlow.pos.ne'
  have hcfg := getTargetConfig_eq srcShard destRootShard dstDevices ha hrank (.inr hlow)
  have hparentCfg := getTargetConfig_eq srcShard destRootShard dstDevices ha hlt hheight
  have hroot : (rankConfig srcShard destRootShard dstDevices.size rank j).dstRootShard
      = some (destRootShard + parent) := by
    simp only [rankConfig, if_neg hne]
    rw [hparent, Nat.add_sub_cancel]
  constructor
  · rintro ⟨named, -, target, namedTarget, htarget, hnamed, hnamedCfg, hcount, -⟩
    obtain rfl := Except.ok.inj (hcfg.symm.trans htarget)
    obtain rfl : parent = named := by
      rw [hroot, Option.some.injEq] at hnamed
      omega
    obtain rfl := Except.ok.inj (hparentCfg.symm.trans hnamedCfg)
    have hmem := List.count_pos_iff.mp (hcount ▸ Nat.one_pos)
    simpa [rankConfig] using hmem
  · intro hmem
    refine ⟨parent, hlt, _, _, hcfg, hroot, hparentCfg, ?_, ?_⟩
    · have hnodup := (nodup_leafRanks dstDevices.size parent height).map
        (add_right_injective destRootShard)
      exact List.count_eq_one_of_mem hnodup (List.mem_map_of_mem hmem)
    · intro other hother hneq otherTarget hotherCfg hlisted
      obtain ⟨k, hk⟩ := exists_rankHeight a other
      have hcfg' := getTargetConfig_eq srcShard destRootShard dstDevices ha hother hk
      obtain rfl := Except.ok.inj (hcfg'.symm.trans hotherCfg)
      have hlisted : rank ∈ leafRanks dstDevices.size other k := by
        simpa [rankConfig] using hlisted
      have := eq_of_mem_leafRanks hk hlow hlisted
      omega

/-- The root's farthest child is in range, so only a parent other than the
root can leave a rank out. -/
theorem rankFed_iff {rank parent j : ℕ} (hrank : rank < dstDevices.size)
    (hlow : IsLowBit rank j) (hparent : rank = parent + 2 ^ j) :
    RankFed srcShard destRootShard dstDevices rank ↔
      ∀ k, IsLowBit parent (k + 1) → parent + 2 ^ k < dstDevices.size := by
  obtain ⟨a, ha⟩ := exists_treeHeight dstDevices.size
  obtain ⟨height, hheight⟩ := exists_rankHeight a parent
  rw [rankFed_iff_mem ha hrank hlow hparent hheight, mem_leafRanks]
  have hpow := Nat.two_pow_pos j
  have hjlt : j < height := by
    rcases hheight with ⟨rfl, rfl⟩ | hheight
    · have := ha.1
      exact (Nat.pow_lt_pow_iff_right (a := 2) (by norm_num)).mp (by omega)
    · refine hheight.le_of_dvd ?_
      have := hlow.dvd_sub
      rwa [hparent, Nat.add_sub_cancel] at this
  constructor
  · rintro ⟨hroom, -⟩ k hk
    rcases hheight with ⟨rfl, -⟩ | hheight
    · exact absurd hk.pos (lt_irrefl 0)
    · rwa [hheight.unique hk] at hroom
  · intro hroom
    refine ⟨?_, j, hjlt, hparent⟩
    rcases hheight with ⟨rfl, rfl⟩ | hheight
    · have hsmall := ha.2 (by omega)
      have hhalf : 2 ^ height = 2 ^ (height - 1) * 2 := by
        rw [← pow_succ, Nat.sub_add_cancel (by omega)]
      omega
    · exact hroom (height - 1) (by rwa [Nat.sub_add_cancel (by omega)])

theorem forall_rankFed_iff :
    (∀ rank, 1 ≤ rank → rank < dstDevices.size →
      RankFed srcShard destRootShard dstDevices rank) ↔ IsOnesThenZeros dstDevices.size := by
  constructor
  · intro hfed
    by_contra hn
    obtain ⟨a, hle, hlt⟩ := exists_treeHeight dstDevices.size
    have ha : 0 < a := by
      rcases Nat.eq_zero_or_pos a with rfl | ha
      · rcases Nat.le_one_iff_eq_zero_or_eq_one.mp hle with hzero | hone
        · exact absurd ⟨0, 1, by omega⟩ hn
        · exact absurd ⟨0, 0, by omega⟩ hn
      · exact ha
    obtain ⟨p, k, hp, hsucc, hroom⟩ := exists_no_room hn hle (hlt ha)
    have hlow : IsLowBit (p + 2 ^ 0) 0 :=
      isLowBit_add ((pow_dvd_pow 2 (by omega)).trans hp.dvd)
    have := (rankFed_iff hsucc hlow rfl).mp (hfed (p + 1) (by omega) hsucc) k hp
    omega
  · intro hn rank hpos hrank
    obtain ⟨j, hlow⟩ := exists_isLowBit hpos
    have hle := hlow.pow_le
    have hpow := Nat.two_pow_pos j
    have hparent : rank = rank - 2 ^ j + 2 ^ j := by omega
    refine (rankFed_iff hrank hlow hparent).mpr fun k hk ↦ ?_
    exact hn.room hk (by omega)

theorem receives_zero (hpos : 0 < dstDevices.size) :
    Receives srcShard destRootShard dstDevices 0 := by
  obtain ⟨a, ha⟩ := exists_treeHeight dstDevices.size
  exact .fromSource (getTargetConfig_eq srcShard destRootShard dstDevices ha hpos
    (.inl ⟨rfl, rfl⟩)) rfl

theorem forall_receives_iff :
    (∀ rank < dstDevices.size, Receives srcShard destRootShard dstDevices rank) ↔
      ∀ rank, 1 ≤ rank → rank < dstDevices.size →
        RankFed srcShard destRootShard dstDevices rank := by
  obtain ⟨a, ha⟩ := exists_treeHeight dstDevices.size
  constructor
  · intro hall rank hpos hrank
    obtain ⟨j, hlow⟩ := exists_isLowBit hpos
    have hne : rank ≠ 0 := by omega
    have hle := hlow.pow_le
    have hcfg := getTargetConfig_eq srcShard destRootShard dstDevices ha hrank (.inr hlow)
    obtain ⟨htarget, hsrc⟩ | ⟨-, htarget, hroot, hparentCfg, hmem⟩ := hall rank hrank
    · obtain rfl := Except.ok.inj (hcfg.symm.trans htarget)
      simp [rankConfig, hne] at hsrc
    · rename_i parent _ _
      obtain rfl := Except.ok.inj (hcfg.symm.trans htarget)
      have hparent : rank = parent + 2 ^ j := by
        simp only [rankConfig, if_neg hne, Option.some.injEq] at hroot
        omega
      obtain ⟨height, hheight⟩ := exists_rankHeight a parent
      have hlt : parent < dstDevices.size := by
        have := Nat.two_pow_pos j
        omega
      have hcfg' := getTargetConfig_eq srcShard destRootShard dstDevices ha hlt hheight
      obtain rfl := Except.ok.inj (hcfg'.symm.trans hparentCfg)
      rw [rankFed_iff_mem ha hrank hlow hparent hheight]
      simpa [rankConfig] using hmem
  · intro hfed rank
    induction rank using Nat.strong_induction_on with
    | _ rank ih =>
      intro hrank
      rcases Nat.eq_zero_or_pos rank with rfl | hpos
      · exact receives_zero hrank
      obtain ⟨parent, hlt, target, parentTarget, htarget, hroot, hparentCfg, hcount, -⟩ :=
        hfed rank hpos hrank
      have hmem := List.count_pos_iff.mp (hcount ▸ Nat.one_pos)
      have hparent : parent < rank := by
        obtain ⟨j, hlow⟩ := exists_isLowBit hpos
        have hcfg := getTargetConfig_eq srcShard destRootShard dstDevices ha hrank (.inr hlow)
        obtain rfl := Except.ok.inj (hcfg.symm.trans htarget)
        simp only [rankConfig, if_neg hpos.ne', Option.some.injEq] at hroot
        have := Nat.two_pow_pos j
        omega
      exact .fromParent (ih parent hparent hlt) htarget hroot hparentCfg hmem

end Tree

/-- A group of `n` destination shards is fed as a whole exactly when `n - 1`
is written in binary as ones followed by zeros, and one of its ranks is fed
exactly when the farthest child of its parent is in the group. -/
theorem broadcast_tree_fed_iff (srcShard destRootShard : ℕ) (dstDevices : DeviceList) :
    (∀ rank < dstDevices.size, ∃ target,
      getTargetConfig srcShard destRootShard dstDevices rank = .ok target) ∧
    (∀ rank parent j, rank < dstDevices.size → IsLowBit rank j → rank = parent + 2 ^ j →
      (RankFed srcShard destRootShard dstDevices rank ↔
        ∀ k, IsLowBit parent (k + 1) → parent + 2 ^ k < dstDevices.size)) ∧
    ((∀ rank, 1 ≤ rank → rank < dstDevices.size →
      RankFed srcShard destRootShard dstDevices rank) ↔
        ∃ a b, dstDevices.size + 2 ^ b = 2 ^ a + 1) ∧
    ((∀ rank < dstDevices.size, Receives srcShard destRootShard dstDevices rank) ↔
      ∃ a b, dstDevices.size + 2 ^ b = 2 ^ a + 1) := by
  refine ⟨fun rank hrank ↦ ?_, fun rank parent j ↦ rankFed_iff, forall_rankFed_iff,
    forall_receives_iff.trans forall_rankFed_iff⟩
  obtain ⟨a, ha⟩ := exists_treeHeight dstDevices.size
  obtain ⟨height, hheight⟩ := exists_rankHeight a rank
  exact ⟨_, getTargetConfig_eq srcShard destRootShard dstDevices ha hrank hheight⟩

/-- A group of seven is fed, although seven is not a power of two. -/
theorem rankFed_of_seven :
    ∀ rank, 1 ≤ rank → rank < 7 → RankFed 1 3 ⟨0, 7⟩ rank :=
  (broadcast_tree_fed_iff 1 3 ⟨0, 7⟩).2.2.1.mpr ⟨3, 1, rfl⟩

/-- In a group of six, rank 5 waits for rank 4, which sends to nobody. -/
theorem not_rankFed_five_of_six :
    ¬ ∀ srcShard destRootShard dstDevices rank, 1 ≤ rank → rank < DeviceList.size dstDevices →
      RankFed srcShard destRootShard dstDevices rank := by
  intro hfed
  obtain ⟨parent, -, target, parentTarget, htarget, hroot, hparent, hcount, -⟩ :=
    hfed 0 0 ⟨0, 6⟩ 5 (by decide) (by decide)
  have hfive : getTargetConfig 0 0 ⟨0, 6⟩ 5 = .ok { dstRootShard := some 4 } := by rfl
  have hfour : getTargetConfig 0 0 ⟨0, 6⟩ 4 = .ok { dstRootShard := some 0 } := by rfl
  obtain rfl := Except.ok.inj (hfive.symm.trans htarget)
  obtain rfl : 4 = parent := by simpa using hroot
  obtain rfl := Except.ok.inj (hfour.symm.trans hparent)
  simp at hcount

end Zuku
