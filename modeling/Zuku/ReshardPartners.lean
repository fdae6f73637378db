import Zuku.ReshardHazards

/-!
# The partners of a copy

A processor sends out of its own tiles and receives into its own tile.  No two
copies of a reshard have the same partners, so that the key of a copy names it.
-/

namespace Zuku

open Checked

/-- The shards of a copy, and whether both are shards of the destination. -/
def ReshardCall.partners (call : ReshardCall) : Bool × ℕ × ℕ :=
  (call.withinTarget, call.srcShardId, call.dstShardId)

/-- The sharding of the array that a copy reads. -/
def ReshardCall.sourceSharding (src dst : Sharding) (call : ReshardCall) : Sharding :=
  if call.withinTarget then dst else src

structure OwnCalls (p : Processor) (src dst : Sharding) (calls : ReshardCalls) : Prop where
  sends : ∀ call ∈ calls.sends,
    (call.sourceSharding src dst).devices.shardId p.globalId = some call.srcShardId
  receives : ∀ call ∈ calls.receives, dst.devices.shardId p.globalId = some call.dstShardId

/-- A call between the two arrays for the shard of the tile of the processor. -/
def OwnShard (p : Processor) (sharding : Sharding) (shard : ReshardCall → ℕ)
    (call : ReshardCall) : Prop :=
  call.withinTarget = false ∧ sharding.devices.shardId p.globalId = some (shard call)

theorem onTile_cases {p : Processor} {sharding : Sharding} {calls : Exec (List ReshardCall)}
    {out : List ReshardCall} (h : onTile p sharding calls = .ok out) :
    out = [] ∨ calls = .ok out := by
  rw [onTile_eq_ok_iff] at h
  split at h
  · exact Or.inr h
  · exact Or.inl h

theorem shardId_of_tile [RealmBuild] {p : Processor} {sharding : Sharding}
    {tile : ℕ × RealmShape} (h : Zuku.tile p sharding = .ok tile) :
    sharding.devices.shardId p.globalId = some tile.1 := (tile_eq_ok_iff.mp h).1

theorem shardId_of_optionalValue {shardId : Option ℕ} {shard : ℕ}
    (h : optionalValue shardId = .ok shard) : shardId = some shard := by
  cases shardId with
  | none => cases h
  | some s => exact congrArg some (Except.ok.inj h)

theorem exists_of_mem_mapM {α β : Type} {f : α → Exec β} {xs : List α} {ys : List β}
    (h : xs.mapM f = .ok ys) {y : β} (hy : y ∈ ys) : ∃ x, f x = .ok y := by
  obtain ⟨i, hi, rfl⟩ := List.getElem_of_mem hy
  have hall := mapM_eq_ok_iff.mp h
  exact ⟨_, hall.get (hall.length_eq ▸ hi) hi⟩

theorem map_of_mapM {α β γ : Type} {f : α → Exec β} {g : β → γ} {k : α → γ} {xs : List α}
    {ys : List β} (h : xs.mapM f = .ok ys) (hg : ∀ x y, f x = .ok y → g y = k x) :
    ys.map g = xs.map k := by
  have hall := mapM_eq_ok_iff.mp h
  clear h
  induction hall with
  | nil => rfl
  | cons hxy _ ih => rw [List.map_cons, List.map_cons, hg _ _ hxy, ih]

section Patterns

variable {p : Processor} {src dst : Sharding} {calls : ReshardCalls}

/-- Copies between the tiles of the two arrays. -/
structure OwnTiles (p : Processor) (src dst : Sharding) (calls : ReshardCalls) : Prop where
  sends : ∀ call ∈ calls.sends, OwnShard p src ReshardCall.srcShardId call
  receives : ∀ call ∈ calls.receives, OwnShard p dst ReshardCall.dstShardId call

theorem OwnTiles.ownCalls (h : OwnTiles p src dst calls) : OwnCalls p src dst calls where
  sends call hcall := by
    obtain ⟨hwithin, hshard⟩ := h.sends call hcall
    rw [ReshardCall.sourceSharding, hwithin]
    exact hshard
  receives call hcall := (h.receives call hcall).2

theorem nodup_map_of_nodup_map {α β γ : Type} {f : α → β} {g : α → γ} {xs : List α}
    (hfg : ∀ x y, f x = f y → g x = g y) (h : (xs.map g).Nodup) : (xs.map f).Nodup := by
  apply List.Nodup.map_on _ h.of_map
  intro x hx y hy heq
  exact List.inj_on_of_nodup_map h hx hy (hfg x y heq)

theorem nodup_partners_of_le_one {xs : List ReshardCall} (h : xs.length ≤ 1) :
    (xs.map ReshardCall.partners).Nodup := by
  cases xs with
  | nil => exact List.nodup_nil
  | cons call xs =>
      have hlength : xs.length = 0 := Nat.le_zero.mp (Nat.le_of_succ_le_succ h)
      obtain rfl : xs = [] := List.eq_nil_of_length_eq_zero hlength
      exact List.nodup_singleton _

/-- At most one call. -/
theorem ownShard_of_single {sharding : Sharding} {shard : ReshardCall → ℕ}
    {calls : List ReshardCall}
    (h : calls = [] ∨ ∃ call, OwnShard p sharding shard call ∧ calls = [call]) :
    (∀ call ∈ calls, OwnShard p sharding shard call) ∧ calls.length ≤ 1 := by
  rcases h with rfl | ⟨call, hcall, rfl⟩
  · exact ⟨by simp, Nat.zero_le 1⟩
  · exact ⟨by simpa using hcall, le_rfl⟩

variable [RealmBuild]

theorem ownTiles_pointToPoint (h : reshardPointToPoint p src dst = .ok calls) :
    OwnTiles p src dst calls ∧ calls.receives.length ≤ 1 := by
  obtain ⟨receives, hreceives, h⟩ := bind_eq_ok_iff.mp h
  obtain ⟨sends, hsends, h⟩ := bind_eq_ok_iff.mp h
  obtain rfl := Except.ok.inj h
  have hone {sharding : Sharding} {out : List ReshardCall} {shard : ReshardCall → ℕ}
      (hshard : ∀ s bounds, shard ⟨s, s, bounds, false⟩ = s)
      (hout : onTile p sharding (do
        let own ← tile p sharding
        pure [⟨own.1, own.1, own.2, false⟩]) = .ok out) :
      out = [] ∨ ∃ call, OwnShard p sharding shard call ∧ out = [call] := by
    rcases onTile_cases hout with hnil | hcalls
    · exact Or.inl hnil
    · obtain ⟨⟨s, bounds⟩, htile, hcalls⟩ := bind_eq_ok_iff.mp hcalls
      refine Or.inr ⟨⟨s, s, bounds, false⟩, ⟨rfl, ?_⟩, (Except.ok.inj hcalls).symm⟩
      rw [shardId_of_tile htile, hshard]
  have hsent : sends = [] ∨ ∃ call, OwnShard p src ReshardCall.srcShardId call ∧ sends = [call] :=
    hone (fun _ _ ↦ rfl) hsends
  have hreceived : receives = [] ∨ ∃ call, OwnShard p dst ReshardCall.dstShardId call ∧
      receives = [call] := hone (fun _ _ ↦ rfl) hreceives
  exact ⟨⟨(ownShard_of_single hsent).1, (ownShard_of_single hreceived).1⟩,
    (ownShard_of_single hreceived).2⟩

theorem ownTiles_scatterShards (h : reshardScatterShards p src dst = .ok calls) :
    OwnTiles p src dst calls ∧ calls.receives.length ≤ 1 := by
  obtain ⟨sends, hsends, h⟩ := bind_eq_ok_iff.mp h
  obtain ⟨receives, hreceives, h⟩ := bind_eq_ok_iff.mp h
  obtain rfl := Except.ok.inj h
  have hsent : ∀ call ∈ sends, OwnShard p src ReshardCall.srcShardId call := by
    rcases onTile_cases hsends with rfl | hcalls
    · simp
    · obtain ⟨_, -, hcalls⟩ := bind_eq_ok_iff.mp hcalls
      obtain ⟨shard, hshard, hcalls⟩ := bind_eq_ok_iff.mp hcalls
      intro call hcall
      obtain ⟨x, hcall⟩ := exists_of_mem_mapM hcalls hcall
      obtain ⟨_, -, hcall⟩ := bind_eq_ok_iff.mp hcall
      obtain rfl := Except.ok.inj hcall
      exact ⟨rfl, shardId_of_optionalValue hshard⟩
  have hone : receives = [] ∨ ∃ call, OwnShard p dst ReshardCall.dstShardId call ∧
      receives = [call] := by
    rcases onTile_cases hreceives with hnil | hcalls
    · exact Or.inl hnil
    · obtain ⟨⟨shard, bounds⟩, htile, hcalls⟩ := bind_eq_ok_iff.mp hcalls
      obtain ⟨_, -, hcalls⟩ := bind_eq_ok_iff.mp hcalls
      obtain ⟨source, -, hcalls⟩ := bind_eq_ok_iff.mp hcalls
      exact Or.inr ⟨_, ⟨rfl, shardId_of_tile htile⟩, (Except.ok.inj hcalls).symm⟩
  obtain ⟨hreceived, hlength⟩ := ownShard_of_single hone
  exact ⟨⟨hsent, hreceived⟩, hlength⟩

omit [RealmBuild] in
/-- The pieces come from different source shards. -/
theorem ownTiles_gatherShards {config : GatherShardsConfig}
    (hconfig : config.dstShard = dst.devices.shardId p.globalId)
    (h : reshardGatherShards p config src dst = .ok calls) :
    OwnTiles p src dst calls ∧ (calls.receives.map ReshardCall.srcShardId).Nodup := by
  obtain ⟨sends, hsends, h⟩ := bind_eq_ok_iff.mp h
  obtain ⟨receives, hreceives, h⟩ := bind_eq_ok_iff.mp h
  obtain rfl := Except.ok.inj h
  have hsent : ∀ call ∈ sends, OwnShard p src ReshardCall.srcShardId call := by
    rcases onTile_cases hsends with rfl | hcalls
    · simp
    · split at hcalls
      · cases hcalls
      · obtain ⟨shard, hshard, hcalls⟩ := bind_eq_ok_iff.mp hcalls
        intro call hcall
        obtain ⟨x, hcall⟩ := exists_of_mem_mapM hcalls hcall
        obtain ⟨_, -, hcall⟩ := bind_eq_ok_iff.mp hcall
        obtain rfl := Except.ok.inj hcall
        exact ⟨rfl, shardId_of_optionalValue hshard⟩
  have hreceived : (∀ call ∈ receives, OwnShard p dst ReshardCall.dstShardId call) ∧
      (receives.map ReshardCall.srcShardId).Nodup := by
    rcases onTile_cases hreceives with rfl | hcalls
    · simp
    · split at hcalls
      · cases hcalls
      · obtain ⟨shard, hshard, hcalls⟩ := bind_eq_ok_iff.mp hcalls
        constructor
        · intro call hcall
          obtain ⟨x, hcall⟩ := exists_of_mem_mapM hcalls hcall
          obtain ⟨_, -, hcall⟩ := bind_eq_ok_iff.mp hcall
          obtain rfl := Except.ok.inj hcall
          exact ⟨rfl, hconfig ▸ shardId_of_optionalValue hshard⟩
        · rw [map_of_mapM (k := id) hcalls, List.map_id]
          · exact List.nodup_range
          · intro x call hcall
            obtain ⟨_, -, hcall⟩ := bind_eq_ok_iff.mp hcall
            obtain rfl := Except.ok.inj hcall
            rfl
  exact ⟨⟨hsent, hreceived.1⟩, hreceived.2⟩

/-- The source of a tree sends for its own shard. -/
theorem ownShard_fromLocalSource {config : BroadcastConfig} {sends : List ReshardCall}
    (h : reshardBroadcastFromLocalSource p config src = .ok sends) :
    ∀ call ∈ sends, OwnShard p src ReshardCall.srcShardId call := by
  obtain ⟨source, -, h⟩ := bind_eq_ok_iff.mp h
  obtain ⟨⟨shard, bounds⟩, htile, h⟩ := bind_eq_ok_iff.mp h
  obtain rfl := Except.ok.inj h
  intro call hcall
  obtain ⟨root, -, rfl⟩ := List.mem_map.mp hcall
  exact ⟨rfl, shardId_of_tile htile⟩

/-- Every shard of a tree sends and receives for itself, and sends within the tree. -/
theorem ownCalls_toLocalTarget {config : BroadcastConfig} {target : ReshardCalls}
    (h : reshardBroadcastToLocalTarget p config dst = .ok target) :
    OwnCalls p src dst target ∧ target.receives.length ≤ 1 ∧
      ∀ call ∈ target.sends, call.withinTarget = true := by
  obtain ⟨role, -, h⟩ := bind_eq_ok_iff.mp h
  obtain ⟨⟨shard, bounds⟩, htile, h⟩ := bind_eq_ok_iff.mp h
  obtain rfl := Except.ok.inj h
  have hshard := shardId_of_tile htile
  refine ⟨⟨?_, ?_⟩, ?_, ?_⟩
  · intro call hcall
    obtain ⟨leaf, -, rfl⟩ := List.mem_map.mp hcall
    exact hshard
  · have hreceives : ∀ call ∈ broadcastReceives role shard bounds, call.dstShardId = shard := by
      rw [broadcastReceives]
      split <;> simp
    intro call hcall
    rw [hreceives call hcall]
    exact hshard
  · rw [broadcastReceives]
    split <;> simp
  · intro call hcall
    obtain ⟨leaf, -, rfl⟩ := List.mem_map.mp hcall
    rfl

theorem ownCalls_broadcast {config : BroadcastConfig}
    (h : reshardBroadcast p config src dst = .ok calls) :
    OwnCalls p src dst calls ∧ calls.receives.length ≤ 1 := by
  have hroots {sends : List ReshardCall}
      (hsends : onTile p src (reshardBroadcastFromLocalSource p config src) = .ok sends) :
      OwnTiles p src dst ⟨sends, []⟩ := by
    rcases onTile_cases hsends with rfl | hcalls
    · exact ⟨by simp, by simp⟩
    · exact ⟨ownShard_fromLocalSource hcalls, by simp⟩
  rw [reshardBroadcast] at h
  split at h
  · obtain ⟨target, htarget, h⟩ := bind_eq_ok_iff.mp h
    obtain ⟨sends, hsends, h⟩ := bind_eq_ok_iff.mp h
    obtain rfl := Except.ok.inj h
    have htree : OwnCalls p src dst target ∧ _ := ownCalls_toLocalTarget htarget
    obtain ⟨hown, hlength, -⟩ := htree
    refine ⟨⟨fun call hcall ↦ ?_, hown.receives⟩, hlength⟩
    rcases List.mem_append.mp hcall with hcall | hcall
    · exact hown.sends call hcall
    · exact (hroots hsends).ownCalls.sends call hcall
  · obtain ⟨sends, hsends, h⟩ := bind_eq_ok_iff.mp h
    obtain rfl := Except.ok.inj h
    exact ⟨(hroots hsends).ownCalls, Nat.zero_le 1⟩

/-! ## Slices -/

/-- The factor of the differing dimension becomes smaller. -/
def Contracts (src dst : Sharding) : Prop :=
  ∃ dim x y, (differingDims (src.dims.zip dst.dims) 0 (0, none)).2 = some dim ∧
    src.dims[dim]? = some x ∧ dst.dims[dim]? = some y ∧ y.sharding < x.sharding

omit [RealmBuild] in
theorem whenSome_cases {α β : Type} {x : Option α} {f : α → Exec (List β)} {out : List β}
    (h : whenSome x [] f = .ok out) : out = [] ∨ ∃ a, x = some a ∧ f a = .ok out := by
  cases x with
  | none => exact Or.inl (Except.ok.inj h).symm
  | some a => exact Or.inr ⟨a, rfl, h⟩

/-- The slices of a processor are for its own shards.  On the side with the larger
factor there is at most one. -/
theorem ownSlices {dim : ℕ} {srcShard dstShard : Option ℕ} {config : ScatterGatherConfig}
    (h : getScatterGatherConfig dim srcShard dstShard src dst = .ok config) :
    (∀ slice ∈ config.fromSource, srcShard = some slice.srcShard) ∧
      (∀ slice ∈ config.toTarget, dstShard = some slice.dstShard) ∧
        ∃ x y, src.dims[dim]? = some x ∧ dst.dims[dim]? = some y ∧
          if y.sharding < x.sharding then config.fromSource.length ≤ 1
          else config.toTarget.length ≤ 1 := by
  obtain ⟨x, hx, h⟩ := bind_eq_ok_iff.mp h
  obtain ⟨y, hy, h⟩ := bind_eq_ok_iff.mp h
  obtain ⟨_, -, h⟩ := bind_eq_ok_iff.mp h
  split at h
  · rename_i hlt
    obtain ⟨q, -, h⟩ := bind_eq_ok_iff.mp h
    obtain ⟨_, -, h⟩ := bind_eq_ok_iff.mp h
    obtain ⟨fromSource, hsource, h⟩ := bind_eq_ok_iff.mp h
    obtain ⟨toTarget, htarget, h⟩ := bind_eq_ok_iff.mp h
    obtain rfl := Except.ok.inj h
    have hown : (∀ slice ∈ fromSource, srcShard = some slice.srcShard) ∧
        fromSource.length ≤ 1 := by
      rcases whenSome_cases hsource with rfl | ⟨s, rfl, hslice⟩
      · simp
      · obtain ⟨_, -, hslice⟩ := bind_eq_ok_iff.mp hslice
        obtain ⟨_, -, hslice⟩ := bind_eq_ok_iff.mp hslice
        obtain rfl := Except.ok.inj hslice
        simp
    refine ⟨hown.1, ?_, x, y, vectorAt_eq_ok_iff.mp hx, vectorAt_eq_ok_iff.mp hy, ?_⟩
    · rcases whenSome_cases htarget with rfl | ⟨t, rfl, hslices⟩
      · simp
      · obtain ⟨_, -, hslices⟩ := bind_eq_ok_iff.mp hslices
        obtain rfl := Except.ok.inj hslices
        intro slice hslice
        obtain ⟨part, -, rfl⟩ := List.mem_map.mp hslice
        rfl
    · rw [if_pos hlt]
      exact hown.2
  · rename_i hlt
    obtain ⟨q, -, h⟩ := bind_eq_ok_iff.mp h
    obtain ⟨_, -, h⟩ := bind_eq_ok_iff.mp h
    obtain ⟨toTarget, htarget, h⟩ := bind_eq_ok_iff.mp h
    obtain ⟨fromSource, hsource, h⟩ := bind_eq_ok_iff.mp h
    obtain rfl := Except.ok.inj h
    have hown : (∀ slice ∈ toTarget, dstShard = some slice.dstShard) ∧ toTarget.length ≤ 1 := by
      rcases whenSome_cases htarget with rfl | ⟨t, rfl, hslice⟩
      · simp
      · obtain ⟨_, -, hslice⟩ := bind_eq_ok_iff.mp hslice
        obtain rfl := Except.ok.inj hslice
        simp
    refine ⟨?_, hown.1, x, y, vectorAt_eq_ok_iff.mp hx, vectorAt_eq_ok_iff.mp hy, ?_⟩
    · rcases whenSome_cases hsource with rfl | ⟨s, rfl, hslices⟩
      · simp
      · obtain ⟨_, -, hslices⟩ := bind_eq_ok_iff.mp hslices
        obtain rfl := Except.ok.inj hslices
        intro slice hslice
        obtain ⟨part, -, rfl⟩ := List.mem_map.mp hslice
        rfl
    · rw [if_neg hlt]
      exact hown.2

/-- Where one processor is given slices, all are. -/
theorem determineShardingConfig_eq {p₀ : Processor} {config : ScatterGatherConfig}
    (h : determineShardingConfig p₀ src dst = .ok (.scatterGather config)) (p : Processor) :
    determineShardingConfig p src dst = determineScatterGatherConfig p src dst := by
  have hfull : determineShardingConfigFullyReplicated p₀ src dst ≠ .ok (.scatterGather config) := by
    intro h
    rw [determineShardingConfigFullyReplicated] at h
    split at h
    · simp only at h
      split at h <;> cases h
    · obtain ⟨_, -, h⟩ := bind_eq_ok_iff.mp h
      cases h
  have hpartial : determinePartialToReplicatedConfig p₀ src dst ≠ .ok (.scatterGather config) := by
    intro h
    obtain ⟨_, -, h⟩ := bind_eq_ok_iff.mp h
    obtain ⟨_ | _, -, h⟩ := bind_eq_ok_iff.mp h
    · cases h
    · obtain ⟨_, -, h⟩ := bind_eq_ok_iff.mp h
      cases h
  rw [determineShardingConfig] at h ⊢
  split_ifs at h ⊢ with hgather hscatter hboth hpart hlength hsame
  · obtain ⟨_, -, h⟩ := bind_eq_ok_iff.mp h
    cases h
  · cases h
  · exact absurd h hfull
  · exact absurd h hpartial
  · cases h
  · cases h
  · rfl

theorem ownTiles_scatterGather {config : ScatterGatherConfig}
    (h : determineScatterGatherConfig p src dst = .ok (.scatterGather config)) :
    OwnTiles p src dst (reshardScatterGather p config src dst) ∧
      (Contracts src dst → (reshardScatterGather p config src dst).sends.length ≤ 1) ∧
      (¬Contracts src dst → (reshardScatterGather p config src dst).receives.length ≤ 1) := by
  have hcalls {slices : List SliceConfig} {sharding : Sharding} {shard : ReshardCall → ℕ}
      {own : SliceConfig → ℕ} (hshard : ∀ slice : SliceConfig,
        shard ⟨slice.srcShard, slice.dstShard, slice.bounds, false⟩ = own slice)
      (hslices : ∀ slice ∈ slices, sharding.devices.shardId p.globalId = some (own slice)) :
      ∀ call ∈ (if hasTile p sharding then scatterGatherCalls slices else []),
        OwnShard p sharding shard call := by
    intro call hcall
    split at hcall
    · obtain ⟨slice, hslice, rfl⟩ := List.mem_map.mp hcall
      exact ⟨rfl, by rw [hshard, hslices slice hslice]⟩
    · cases hcall
  have hlength {slices : List SliceConfig} {sharding : Sharding} (hslices : slices.length ≤ 1) :
      (if hasTile p sharding then scatterGatherCalls slices else []).length ≤ 1 := by
    split
    · simpa [scatterGatherCalls] using hslices
    · exact Nat.zero_le 1
  rw [determineScatterGatherConfig] at h
  split at h
  rename_i count last hdims
  split at h
  · obtain ⟨dim, hdim, h⟩ := bind_eq_ok_iff.mp h
    obtain ⟨config', hconfig, h⟩ := bind_eq_ok_iff.mp h
    obtain ⟨rfl⟩ : config' = config := by simpa using h
    obtain ⟨hsource, htarget, x, y, hx, hy, hone⟩ := ownSlices hconfig
    have hlast : (differingDims (src.dims.zip dst.dims) 0 (0, none)).2 = some dim := by
      rw [hdims]
      exact shardId_of_optionalValue hdim
    refine ⟨⟨hcalls (fun _ ↦ rfl) hsource, hcalls (fun _ ↦ rfl) htarget⟩, ?_, ?_⟩
    · rintro ⟨dim', x', y', hdim', hx', hy', hlt⟩
      obtain rfl := Option.some.inj (hlast.symm.trans hdim')
      obtain rfl := Option.some.inj (hx.symm.trans hx')
      obtain rfl := Option.some.inj (hy.symm.trans hy')
      rw [if_pos hlt] at hone
      exact hlength hone
    · intro hnot
      rw [if_neg fun hlt ↦ hnot ⟨dim, x, y, hlast, hx, hy, hlt⟩] at hone
      exact hlength hone
  · cases h

omit [RealmBuild] in
theorem dstShard_of_gatherBounds {shardBounds : ℕ → Exec RealmShape} {config : GatherShardsConfig}
    (h : gatherBounds p src dst shardBounds = .ok config) :
    config.dstShard = dst.devices.shardId p.globalId := by
  obtain ⟨_, -, h⟩ := bind_eq_ok_iff.mp h
  obtain ⟨_, -, h⟩ := bind_eq_ok_iff.mp h
  obtain rfl := Except.ok.inj h
  rfl

theorem dstShard_of_plan {config : GatherShardsConfig}
    (h : determineShardingConfig p src dst = .ok (.gatherShards config)) :
    config.dstShard = dst.devices.shardId p.globalId := by
  cases plannedBy_of_eq_ok h with
  | gatherSharded _ hrun => exact dstShard_of_gatherBounds hrun
  | gatherPartial _ hrun =>
      obtain ⟨_, -, hrun⟩ := bind_eq_ok_iff.mp hrun
      obtain ⟨_ | _, -, hrun⟩ := bind_eq_ok_iff.mp hrun
      · cases hrun
      · obtain ⟨_, hbounds, hrun⟩ := bind_eq_ok_iff.mp hrun
        obtain rfl := ReshardConfigVariant.gatherShards.inj (Except.ok.inj hrun)
        exact dstShard_of_gatherBounds hbounds

/-- Without slices, what a processor receives has different partners. -/
theorem ownCalls_of_plan {plan : ReshardConfigVariant}
    (hplan : determineShardingConfig p src dst = .ok plan)
    (h : reshardCalls p src dst plan = .ok calls) :
    OwnCalls p src dst calls ∧
      ((∀ config, plan ≠ .scatterGather config) →
        (calls.receives.map ReshardCall.partners).Nodup) := by
  cases plan with
  | unsupported => cases h
  | pointToPoint =>
      obtain ⟨hown, hone⟩ := ownTiles_pointToPoint h
      exact ⟨hown.ownCalls, fun _ ↦ nodup_partners_of_le_one hone⟩
  | scatterGather config =>
      obtain rfl := Except.ok.inj h
      exact ⟨(ownTiles_scatterGather (scatterGather_branch hplan).2).1.ownCalls,
        fun hnot ↦ absurd rfl (hnot config)⟩
  | broadcast config =>
      obtain ⟨hown, hone⟩ := ownCalls_broadcast h
      exact ⟨hown, fun _ ↦ nodup_partners_of_le_one hone⟩
  | gatherShards config =>
      obtain ⟨hown, hnodup⟩ := ownTiles_gatherShards (dstShard_of_plan hplan) h
      refine ⟨hown.ownCalls, fun _ ↦ nodup_map_of_nodup_map (fun call call' heq ↦ ?_) hnodup⟩
      exact congrArg (fun partners : Bool × ℕ × ℕ ↦ partners.2.1) heq
  | scatterShards config =>
      obtain ⟨hown, hone⟩ := ownTiles_scatterShards h
      exact ⟨hown.ownCalls, fun _ ↦ nodup_partners_of_le_one hone⟩
  | noOp =>
      obtain rfl := Except.ok.inj h
      exact ⟨⟨by simp, by simp⟩, fun _ ↦ List.nodup_nil⟩

theorem ownCalls_of_eq_ok (h : Zuku.reshard p src dst = .ok calls) : OwnCalls p src dst calls := by
  obtain ⟨plan, hplan, h⟩ := bind_eq_ok_iff.mp h
  exact (ownCalls_of_plan hplan h).1

end Patterns

/-! ## The processors of a copy -/

/-- The processor that a copy reads on. -/
def ReshardCall.sender (src dst : Sharding) (call : ReshardCall) : ℕ :=
  (call.sourceSharding src dst).devices.start + call.srcShardId

/-- The processor that a copy writes on. -/
def ReshardCall.receiver (dst : Sharding) (call : ReshardCall) : ℕ :=
  dst.devices.start + call.dstShardId

theorem ReshardCall.sender_congr {src dst : Sharding} {call call' : ReshardCall}
    (h : call.partners = call'.partners) : call.sender src dst = call'.sender src dst := by
  obtain ⟨hwithin, hshard, -⟩ : call.withinTarget = call'.withinTarget ∧
      call.srcShardId = call'.srcShardId ∧ call.dstShardId = call'.dstShardId := by
    simpa [partners] using h
  rw [sender, sender, sourceSharding, sourceSharding, hwithin, hshard]

theorem ReshardCall.receiver_congr {dst : Sharding} {call call' : ReshardCall}
    (h : call.partners = call'.partners) : call.receiver dst = call'.receiver dst :=
  congrArg (fun partners : Bool × ℕ × ℕ ↦ dst.devices.start + partners.2.2) h

namespace Machine

variable [RealmBuild] {machine : Machine} {src dst : Sharding} {calls : List ReshardCalls}

/-- Every processor has its own calls. -/
theorem reshard_getElem? (h : machine.reshard src dst = .ok calls) {id : ℕ} {c : ReshardCalls}
    (hc : calls[id]? = some c) :
    id < machine.numProcessors ∧ Zuku.reshard (machine.processor id) src dst = .ok c := by
  have hall := mapM_eq_ok_iff.mp h
  obtain ⟨hid, rfl⟩ := List.getElem?_eq_some_iff.mp hc
  have hlt : id < (List.range machine.numProcessors).length := hall.length_eq ▸ hid
  have hrun := hall.get hlt hid
  rw [List.get_eq_getElem, List.getElem_range] at hrun
  exact ⟨by simpa using hlt, hrun⟩

theorem sender_eq (h : machine.reshard src dst = .ok calls) {id : ℕ} {c : ReshardCalls}
    (hc : calls[id]? = some c) {call : ReshardCall} (hcall : call ∈ c.sends) :
    call.sender src dst = id := by
  have hown := (ownCalls_of_eq_ok (reshard_getElem? h hc).2).sends call hcall
  rw [machine.globalId_eq, DeviceList.shardId_eq_some_iff] at hown
  exact hown.2.symm

theorem receiver_eq (h : machine.reshard src dst = .ok calls) {id : ℕ} {c : ReshardCalls}
    (hc : calls[id]? = some c) {call : ReshardCall} (hcall : call ∈ c.receives) :
    call.receiver dst = id := by
  have hown := (ownCalls_of_eq_ok (reshard_getElem? h hc).2).receives call hcall
  rw [machine.globalId_eq, DeviceList.shardId_eq_some_iff] at hown
  exact hown.2.symm

omit [RealmBuild] in
/-- Different processors have calls with different partners. -/
theorem nodup_partners_of_owner {side : ReshardCalls → List ReshardCall}
    {owner : ReshardCall → ℕ}
    (howner : ∀ call call' : ReshardCall, call.partners = call'.partners →
      owner call = owner call')
    (hside : ∀ id c, calls[id]? = some c → (∀ call ∈ side c, owner call = id) ∧
      ((side c).map ReshardCall.partners).Nodup) :
    ((calls.flatMap side).map ReshardCall.partners).Nodup := by
  rw [List.map_flatMap, List.nodup_flatMap]
  constructor
  · intro c hc
    obtain ⟨id, hid⟩ := List.getElem?_of_mem hc
    exact (hside id c hid).2
  · rw [List.pairwise_iff_getElem]
    intro i j hi hj hij
    have hne := hij.ne
    rintro partners hpi hpj
    obtain ⟨call, hcall, rfl⟩ := List.mem_map.mp hpi
    obtain ⟨call', hcall', heq⟩ := List.mem_map.mp hpj
    apply hne
    rw [← (hside i _ (List.getElem?_eq_getElem hi)).1 call hcall,
      ← (hside j _ (List.getElem?_eq_getElem hj)).1 call' hcall']
    exact howner call call' heq.symm

/-- On one of the two sides, all calls have different partners. -/
theorem nodup_partners_or (h : machine.reshard src dst = .ok calls) :
    ((calls.flatMap ReshardCalls.sends).map ReshardCall.partners).Nodup ∨
      ((calls.flatMap ReshardCalls.receives).map ReshardCall.partners).Nodup := by
  have hsends (hone : ∀ (id : ℕ) (c : ReshardCalls), calls[id]? = some c → c.sends.length ≤ 1) :
      ((calls.flatMap ReshardCalls.sends).map ReshardCall.partners).Nodup := by
    apply nodup_partners_of_owner fun call call' ↦ ReshardCall.sender_congr
    exact fun id c hc ↦ ⟨fun call ↦ sender_eq h hc, nodup_partners_of_le_one (hone id c hc)⟩
  have hreceives (hown : ∀ (id : ℕ) (c : ReshardCalls), calls[id]? = some c →
      (c.receives.map ReshardCall.partners).Nodup) :
      ((calls.flatMap ReshardCalls.receives).map ReshardCall.partners).Nodup := by
    apply nodup_partners_of_owner fun call call' ↦ ReshardCall.receiver_congr
    exact fun id c hc ↦ ⟨fun call ↦ receiver_eq h hc, hown id c hc⟩
  by_cases hslices : ∃ p₀ config, determineShardingConfig p₀ src dst = .ok (.scatterGather config)
  · obtain ⟨p₀, config₀, hp₀⟩ := hslices
    have hcalls (id : ℕ) (c : ReshardCalls) (hc : calls[id]? = some c) :
        (Contracts src dst → c.sends.length ≤ 1) ∧
          (¬Contracts src dst → c.receives.length ≤ 1) := by
      obtain ⟨plan, hplan, hrun⟩ := bind_eq_ok_iff.mp (reshard_getElem? h hc).2
      rw [determineShardingConfig_eq hp₀] at hplan
      obtain ⟨config, rfl⟩ : ∃ config, plan = .scatterGather config := by
        rw [determineScatterGatherConfig] at hplan
        split at hplan
        split at hplan
        · obtain ⟨_, -, hplan⟩ := bind_eq_ok_iff.mp hplan
          obtain ⟨config, -, hplan⟩ := bind_eq_ok_iff.mp hplan
          exact ⟨config, (Except.ok.inj hplan).symm⟩
        · obtain rfl := Except.ok.inj hplan
          cases hrun
      obtain rfl := Except.ok.inj hrun
      exact (ownTiles_scatterGather hplan).2
    by_cases hcontracts : Contracts src dst
    · exact Or.inl (hsends fun id c hc ↦ (hcalls id c hc).1 hcontracts)
    · exact Or.inr (hreceives fun id c hc ↦
        nodup_partners_of_le_one ((hcalls id c hc).2 hcontracts))
  · refine Or.inr (hreceives fun id c hc ↦ ?_)
    obtain ⟨plan, hplan, hrun⟩ := bind_eq_ok_iff.mp (reshard_getElem? h hc).2
    apply (ownCalls_of_plan hplan hrun).2
    rintro config rfl
    exact hslices ⟨_, config, hplan⟩

/-- When the sends and the receives match, no two copies have the same partners. -/
theorem nodup_partners (h : machine.reshard src dst = .ok calls)
    (hmatched : (calls.flatMap ReshardCalls.sends).Perm (calls.flatMap ReshardCalls.receives)) :
    ((calls.flatMap ReshardCalls.receives).map ReshardCall.partners).Nodup := by
  rcases nodup_partners_or h with hsends | hreceives
  · exact (hmatched.map ReshardCall.partners).nodup_iff.mp hsends
  · exact hreceives

end Machine

end Zuku
