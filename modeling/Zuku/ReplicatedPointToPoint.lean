import Zuku.ScatterShards

/-!
# Copying between replicated arrays

When the source has at least as many devices as the destination, shard `i` is
sent to shard `i`.  A processor leaves the exchange out only when it is not a
destination device, so a destination device whose own source shard has a number
that no destination shard has still sends it.
-/

namespace Zuku

open Checked

/-- The shards sent are the shards received, and they are destination shards. -/
def PointToPointMatches [RealmBuild] (machine : Machine) (src dst : Sharding) : Prop :=
  ∃ calls, machine.reshard src dst = .ok calls ∧
    {pair | pair ∈ (calls.flatMap ReshardCalls.sends).map ReshardCall.key} =
      {pair | pair ∈ (calls.flatMap ReshardCalls.receives).map ReshardCall.key} ∧
    ∀ call ∈ calls.flatMap ReshardCalls.sends,
      call.srcShardId = call.dstShardId ∧ call.dstShardId < dst.devices.size

/-- The device of a source shard takes part when the shard has a partner or the
device is a destination. -/
def TakesPart (src dst : Sharding) (shard : ℕ) : Prop :=
  shard < dst.devices.size ∨ dst.devices.contains (src.devices.start + shard) = true

instance (src dst : Sharding) (shard : ℕ) : Decidable (TakesPart src dst shard) :=
  inferInstanceAs (Decidable (_ ∨ _))

/-- The call for shard `i` of one side. -/
def pointToPointCall (bounds : ℕ → RealmShape) (shard : ℕ) : ReshardCall :=
  ⟨shard, shard, bounds shard, false⟩

section

variable [RealmBuild] {src dst : Sharding}

theorem determineShardingConfig_replicated (hsrc : src.isReplicated = true)
    (hdst : dst.isReplicated = true) (hn : 2 ≤ dst.devices.size)
    (hmn : dst.devices.size ≤ src.devices.size) (p : Processor) :
    determineShardingConfig p src dst = determineShardingConfigFullyReplicated p src dst := by
  have hsrcOne : src.totalSharding = 1 := of_decide_eq_true hsrc
  have hdstOne : dst.totalSharding = 1 := of_decide_eq_true hdst
  have hsrcFull : src.fullySharded = false := by
    rw [Sharding.fullySharded, hsrcOne, decide_eq_false_iff_not]
    omega
  have hdstFull : dst.fullySharded = false := by
    rw [Sharding.fullySharded, hdstOne, decide_eq_false_iff_not]
    omega
  simp [determineShardingConfig, hsrcFull, hdstFull, hsrc, hdst]

theorem reshardPointToPoint_eq {srcBounds dstBounds : ℕ → RealmShape}
    (hsrc : ∀ s < src.devices.size, computeTileBounds s src = .ok (srcBounds s))
    (hdst : ∀ t < dst.devices.size, computeTileBounds t dst = .ok (dstBounds t))
    (p : Processor) :
    reshardPointToPoint p src dst =
      .ok ⟨(src.devices.shardId p.globalId).elim [] fun s ↦ [pointToPointCall srcBounds s],
        (dst.devices.shardId p.globalId).elim [] fun t ↦ [pointToPointCall dstBounds t]⟩ := by
  have hside (sharding : Sharding) (bounds : ℕ → RealmShape)
      (hbounds : ∀ s < sharding.devices.size, computeTileBounds s sharding = .ok (bounds s))
      (call : ℕ × RealmShape → Exec (List ReshardCall))
      (hcall : ∀ s, call (s, bounds s) = .ok [pointToPointCall bounds s]) :
      onTile p sharding (tile p sharding >>= call) =
      .ok ((sharding.devices.shardId p.globalId).elim [] fun s ↦ [pointToPointCall bounds s]) := by
    rw [onTile_eq]
    apply whenSome_eq_ok
    intro s hs
    have hlt := ((sharding.devices.shardId_eq_some_iff _ _).mp hs).1
    rw [tile_eq_ok_iff.mpr ⟨hs, hbounds s hlt⟩, ok_bind, hcall]
  rw [reshardPointToPoint, hside dst dstBounds hdst _ fun _ ↦ rfl, ok_bind,
    hside src srcBounds hsrc _ fun _ ↦ rfl]
  rfl

/-- What one processor sends and receives. -/
theorem reshard_replicated {srcBounds dstBounds : ℕ → RealmShape}
    (hsrc : src.isReplicated = true) (hdst : dst.isReplicated = true)
    (hn : 2 ≤ dst.devices.size) (hmn : dst.devices.size ≤ src.devices.size)
    (hsrcBounds : ∀ s < src.devices.size, computeTileBounds s src = .ok (srcBounds s))
    (hdstBounds : ∀ t < dst.devices.size, computeTileBounds t dst = .ok (dstBounds t))
    (p : Processor) :
    reshard p src dst =
      .ok ⟨(src.devices.shardId p.globalId).elim [] fun s ↦
          if TakesPart src dst s then [pointToPointCall srcBounds s] else [],
        (dst.devices.shardId p.globalId).elim [] fun t ↦ [pointToPointCall dstBounds t]⟩ := by
  rw [reshard, determineShardingConfig_replicated hsrc hdst hn hmn,
    determineShardingConfigFullyReplicated, if_pos hmn]
  have hmem (s : ℕ) (hs : src.devices.shardId p.globalId = some s) :
      s < src.devices.size ∧ p.globalId = src.devices.start + s :=
    (src.devices.shardId_eq_some_iff _ _).mp hs
  by_cases hskip : (!dst.devices.contains p.globalId &&
      decide ((dst.devices.size : ℤ) ≤ (p.globalId : ℤ) - src.devices.start)) = true
  · rw [if_pos hskip, pure_eq_ok, ok_bind, reshardCalls]
    rw [Bool.and_eq_true, Bool.not_eq_true', decide_eq_true_eq] at hskip
    obtain ⟨houtside, hbeyond⟩ := hskip
    have hnone : dst.devices.shardId p.globalId = none := by
      rw [← Option.not_isSome_iff_eq_none, DeviceList.isSome_shardId, houtside]
      exact Bool.false_ne_true
    rw [hnone]
    cases hs : src.devices.shardId p.globalId with
    | none => rfl
    | some s =>
        obtain ⟨-, hid⟩ := hmem s hs
        have hapart : ¬TakesPart src dst s := by
          rintro (hlt | hcontains)
          · omega
          · rw [← hid, houtside] at hcontains
            exact Bool.false_ne_true hcontains
        simp [hapart]
  · rw [if_neg hskip, pure_eq_ok, ok_bind, reshardCalls,
      reshardPointToPoint_eq hsrcBounds hdstBounds]
    cases hs : src.devices.shardId p.globalId with
    | none => rfl
    | some s =>
        obtain ⟨-, hid⟩ := hmem s hs
        have hpart : TakesPart src dst s := by
          by_contra hapart
          rw [TakesPart, not_or, ← hid, Bool.not_eq_true] at hapart
          apply hskip
          rw [hapart.2, Bool.not_false, Bool.true_and, decide_eq_true_eq]
          omega
        simp [hpart]

/-- The shards sent by all processors, and the shards received. -/
theorem reshard_replicated_machine {machine : Machine} (hsrcHosts : machine.Hosts src.devices)
    (hdstHosts : machine.Hosts dst.devices) (hsrc : src.isReplicated = true)
    (hdst : dst.isReplicated = true) (hn : 2 ≤ dst.devices.size)
    (hmn : dst.devices.size ≤ src.devices.size) (hsrcTiles : src.HasTiles)
    (hdstTiles : dst.HasTiles) :
    ∃ calls, ∃ srcBounds dstBounds : ℕ → RealmShape, machine.reshard src dst = .ok calls ∧
      calls.flatMap ReshardCalls.sends = ((List.range src.devices.size).filter
        (TakesPart src dst ·)).map (pointToPointCall srcBounds) ∧
      calls.flatMap ReshardCalls.receives =
        (List.range dst.devices.size).map (pointToPointCall dstBounds) := by
  obtain ⟨srcBounds, hsrcBounds⟩ := hsrcTiles
  obtain ⟨dstBounds, hdstBounds⟩ := hdstTiles
  obtain ⟨calls, hcalls, hsends, hreceives⟩ := machine.reshard_of_shards hsrcHosts hdstHosts
    _ _ (reshard_replicated hsrc hdst hn hmn hsrcBounds hdstBounds)
  refine ⟨calls, srcBounds, dstBounds, hcalls, ?_, ?_⟩
  · rw [hsends, ← List.flatMap_singleton' (List.range src.devices.size),
      List.filter_flatMap, List.map_flatMap, List.flatMap_singleton']
    apply List.flatMap_congr
    intro s _
    by_cases hpart : TakesPart src dst s <;> simp [hpart]
  · rw [hreceives, ← List.map_eq_flatMap]

omit [RealmBuild] in
/-- A source shard without a partner is sent exactly when its device lies in
both device lists. -/
theorem exists_takesPart_iff (hn : 1 ≤ dst.devices.size) :
    (∃ s < src.devices.size, dst.devices.size ≤ s ∧ TakesPart src dst s) ↔
      ¬(src.devices.size ≤ dst.devices.size ∨ dst.devices.start ≤ src.devices.start ∨
        src.devices.start + src.devices.size ≤ dst.devices.start) := by
  simp only [TakesPart, DeviceList.contains_eq_true]
  constructor
  · rintro ⟨s, hs, hbeyond, hpart⟩
    omega
  · intro h
    refine ⟨max dst.devices.size (dst.devices.start - src.devices.start), ?_, ?_, ?_⟩ <;> omega

end

/-- Every shard that is sent is received exactly when no source shard without a
partner has its device among the destination devices. -/
theorem pointToPoint_matches_iff [RealmBuild] (machine : Machine) (src dst : Sharding)
    (hsrcHosts : machine.Hosts src.devices) (hdstHosts : machine.Hosts dst.devices)
    (hsrc : src.isReplicated = true) (hdst : dst.isReplicated = true)
    (hn : 2 ≤ dst.devices.size) (hmn : dst.devices.size ≤ src.devices.size)
    (hsrcTiles : src.HasTiles) (hdstTiles : dst.HasTiles) :
    PointToPointMatches machine src dst ↔
      src.devices.size ≤ dst.devices.size ∨ dst.devices.start ≤ src.devices.start ∨
        src.devices.start + src.devices.size ≤ dst.devices.start := by
  obtain ⟨calls, srcBounds, dstBounds, hcalls, hsends, hreceives⟩ :=
    reshard_replicated_machine hsrcHosts hdstHosts hsrc hdst hn hmn hsrcTiles hdstTiles
  rw [← not_iff_not, ← exists_takesPart_iff (by omega)]
  constructor
  · intro hmismatch
    by_contra hnone
    push Not at hnone
    apply hmismatch
    have hall : (List.range src.devices.size).filter (TakesPart src dst ·) =
        List.range dst.devices.size := by
      obtain ⟨rest, hrest⟩ := Nat.exists_eq_add_of_le hmn
      rw [hrest, List.range_add, List.filter_append]
      have hlow : (List.range dst.devices.size).filter (TakesPart src dst ·) =
          List.range dst.devices.size := by
        apply List.filter_eq_self.mpr
        intro s hs
        exact decide_eq_true (Or.inl (List.mem_range.mp hs))
      have hhigh : ((List.range rest).map (dst.devices.size + ·)).filter
          (TakesPart src dst ·) = [] := by
        apply List.filter_eq_nil_iff.mpr
        intro s hs
        obtain ⟨k, hk, rfl⟩ := List.mem_map.mp hs
        have hk := List.mem_range.mp hk
        rw [decide_eq_true_eq]
        exact hnone _ (by omega) (by omega)
      rw [hlow, hhigh, List.append_nil]
    refine ⟨calls, hcalls, ?_, ?_⟩
    · rw [hsends, hreceives, hall, List.map_map, List.map_map]
      rfl
    · intro call hcall
      rw [hsends, hall] at hcall
      obtain ⟨s, hs, rfl⟩ := List.mem_map.mp hcall
      exact ⟨rfl, List.mem_range.mp hs⟩
  · rintro ⟨s, hs, hbeyond, hpart⟩ ⟨calls', hcalls', -, hbelow⟩
    obtain rfl := Except.ok.inj (hcalls.symm.trans hcalls')
    have hsent : pointToPointCall srcBounds s ∈ calls.flatMap ReshardCalls.sends := by
      rw [hsends]
      apply List.mem_map_of_mem
      exact List.mem_filter.mpr ⟨List.mem_range.mpr hs, decide_eq_true hpart⟩
    obtain ⟨-, hlt⟩ := hbelow _ hsent
    have hlt : s < dst.devices.size := hlt
    omega

/-- Four source devices send to two destination devices that come first. -/
theorem pointToPoint_matches_nested :
    @PointToPointMatches .rankFour ⟨6, fun id ↦ ⟨.cpu, id, id⟩, fun _ ↦ rfl⟩
      ⟨[⟨8, 1, 0⟩, ⟨1, 4, 1⟩], ⟨0, 4⟩⟩ ⟨[⟨8, 1, 0⟩, ⟨1, 2, 1⟩], ⟨0, 2⟩⟩ := by
  let _ : RealmBuild := .rankFour
  exact (pointToPoint_matches_iff ⟨6, fun id ↦ ⟨.cpu, id, id⟩, fun _ ↦ rfl⟩
    ⟨[⟨8, 1, 0⟩, ⟨1, 4, 1⟩], ⟨0, 4⟩⟩ ⟨[⟨8, 1, 0⟩, ⟨1, 2, 1⟩], ⟨0, 2⟩⟩
    (by unfold Machine.Hosts; decide) (by unfold Machine.Hosts; decide) (by decide) (by decide)
    (by decide) (by decide)
    (hasTiles_of_tileable (by decide) (by decide) (Or.inl (by decide)))
    (hasTiles_of_tileable (by decide) (by decide) (Or.inl (by decide)))).mpr (by decide)

/-- When the destination devices are the last two of four, the last device
sends its source shard, which no destination shard is waiting for. -/
theorem not_pointToPoint_matches_last :
    ¬ ∀ (_ : RealmBuild) (machine : Machine) (src dst : Sharding),
      machine.Hosts src.devices → machine.Hosts dst.devices → src.isReplicated = true →
      dst.isReplicated = true → 2 ≤ dst.devices.size → dst.devices.size ≤ src.devices.size →
      src.HasTiles → dst.HasTiles → PointToPointMatches machine src dst := by
  intro h
  let _ : RealmBuild := .rankFour
  obtain ⟨calls, hcalls, -, hbelow⟩ := h .rankFour ⟨4, fun id ↦ ⟨.cpu, id, id⟩, fun _ ↦ rfl⟩
    ⟨[⟨8, 1, 0⟩, ⟨1, 4, 1⟩], ⟨0, 4⟩⟩ ⟨[⟨8, 1, 0⟩, ⟨1, 2, 1⟩], ⟨2, 2⟩⟩
    (by unfold Machine.Hosts; decide) (by unfold Machine.Hosts; decide) (by decide) (by decide)
    (by decide) (by decide)
    (hasTiles_of_tileable (by decide) (by decide) (Or.inl (by decide)))
    (hasTiles_of_tileable (by decide) (by decide) (Or.inl (by decide)))
  obtain ⟨own, hown, hrun⟩ := exists_of_mapM_eq_ok hcalls (by decide : 3 ∈ List.range 4)
  have hown' : own = ⟨[⟨3, 3, ⟨1, [(0, 7)]⟩, false⟩], [⟨1, 1, ⟨1, [(0, 7)]⟩, false⟩]⟩ :=
    Except.ok.inj (hrun.symm.trans (by decide))
  obtain ⟨-, hlt⟩ := hbelow ⟨3, 3, ⟨1, [(0, 7)]⟩, false⟩
    (List.mem_flatMap.mpr ⟨own, hown, by rw [hown']; exact List.mem_singleton_self _⟩)
  exact absurd hlt (by decide)

end Zuku
