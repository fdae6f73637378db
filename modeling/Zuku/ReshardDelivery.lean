import Zuku.GatherShards
import Zuku.BroadcastRoles
import Zuku.Library.CopyNetwork

/-!
# What a reshard leaves in the destination

When every send of a reshard has its receive, each receive is one copy, from a
source tile or, inside a broadcast tree, from another destination tile.  Copies
that stay inside the tiles and together cover those of the destination leave the
global array in it, in every order in which a copy out of a destination tile
comes after the copies into it.
-/

namespace Zuku

open Checked CopyNetwork

/-! ## Copies between tiles -/

/-- The tiles of the two arrays. -/
inductive ArraySide where
  | src (shard : ℕ)
  | dst (shard : ℕ)
  deriving DecidableEq, Repr

def ReshardCall.source (call : ReshardCall) : ArraySide :=
  if call.withinTarget then .dst call.srcShardId else .src call.srcShardId

def ReshardCall.copy (call : ReshardCall) : Transfer ArraySide (List ℤ) :=
  ⟨call.source, .dst call.dstShardId, {point | call.bounds.Contains point}⟩

/-- No copy out of a destination tile comes before a copy into it. -/
def InTreeOrder (copies : List ReshardCall) : Prop :=
  copies.Pairwise fun call later ↦ call.source ≠ .dst later.dstShardId

/-- The rectangle of the tile that a copy reads. -/
def sourceBounds (src dst : Sharding) : ArraySide → RealmShape
  | .src shard => src.tileBounds shard
  | .dst shard => dst.tileBounds shard

def IsShard (src dst : Sharding) : ArraySide → Prop
  | .src shard => shard < src.devices.size
  | .dst shard => shard < dst.devices.size

/-- A copy stays inside the tile it reads and the tile it writes. -/
structure InsideTiles (src dst : Sharding) (call : ReshardCall) : Prop where
  source_isShard : IsShard src dst call.source
  source_ne_target : call.source ≠ .dst call.dstShardId
  source_contains : ∀ point, call.bounds.Contains point →
    (sourceBounds src dst call.source).Contains point
  target_isShard : call.dstShardId < dst.devices.size
  target_contains : ∀ point, call.bounds.Contains point →
    (dst.tileBounds call.dstShardId).Contains point

/-- The copies stay inside the tiles and cover those of the destination. -/
structure Delivers (src dst : Sharding) (copies : List ReshardCall) : Prop where
  inside : ∀ call ∈ copies, InsideTiles src dst call
  covers : ∀ t < dst.devices.size, ∀ point, (dst.tileBounds t).Contains point →
    ∃ call ∈ copies, call.dstShardId = t ∧ call.bounds.Contains point
  inTreeOrder : InTreeOrder copies

/-- The copies of a reshard move the array, in every order that the broadcast
trees allow. -/
structure MovesArray (src dst : Sharding) (copies : List ReshardCall) : Prop where
  delivers : Delivers src dst copies
  holdsGlobal : ∀ {α : Type} (global : List ℤ → α) (tiles : ArraySide → List ℤ → α),
    HoldsGlobal src global (fun shard ↦ tiles (.src shard)) →
    ∀ order : List ReshardCall, order.Perm copies → InTreeOrder order →
      HoldsGlobal dst global fun shard ↦ run (order.map ReshardCall.copy) tiles (.dst shard)

/-- The points of the source tiles. -/
def sourcePoints (src : Sharding) : Set (ArraySide × List ℤ) :=
  {p | ∃ s < src.devices.size, p.1 = .src s ∧ (src.tileBounds s).Contains p.2}

theorem mem_written_copy {call : ReshardCall} {shard : ℕ} {point : List ℤ} :
    (ArraySide.dst shard, point) ∈ call.copy.written ↔
      call.dstShardId = shard ∧ call.bounds.Contains point := by
  rw [Transfer.written, ReshardCall.copy, Set.mem_ofPred_eq, Set.mem_ofPred_eq, ArraySide.dst.injEq,
    eq_comm]

variable {src dst : Sharding} {copies : List ReshardCall}

/-- What a copy reads out of a destination tile has been written before. -/
theorem Delivers.feeds (h : Delivers src dst copies) {order : List ReshardCall}
    (hperm : order.Perm copies) (horder : InTreeOrder order) :
    Feeds (sourcePoints src) (order.map ReshardCall.copy) := by
  apply feeds_of_splits
  intro before copy after hsplit
  obtain ⟨before, rest, rfl, rfl, hrest⟩ := List.map_eq_append_iff.mp hsplit
  obtain ⟨call, after, rfl, rfl, rfl⟩ := List.map_eq_cons_iff.mp hrest
  have hmem : call ∈ before ++ call :: after := List.mem_append_right _ List.mem_cons_self
  have hinside := h.inside call (hperm.mem_iff.mp hmem)
  rintro ⟨side, point⟩ ⟨hside, hpoint⟩
  have hcontains := hinside.source_contains point hpoint
  have hshard := hinside.source_isShard
  change side = call.source at hside
  subst hside
  cases hsource : call.source with
  | src s =>
      rw [hsource] at hcontains hshard
      exact Or.inl ⟨s, hshard, rfl, hcontains⟩
  | dst t =>
      rw [hsource] at hcontains hshard
      obtain ⟨feeder, hfeeder, rfl, hfeeds⟩ := h.covers t hshard point hcontains
      -- the feeder of the tile does not come after the copy out of it
      have hpairwise := List.pairwise_append.mp horder
      have hlater := List.pairwise_cons.mp hpairwise.2.1
      have hfirst : feeder ∈ before := by
        rcases List.mem_append.mp (hperm.mem_iff.mpr hfeeder) with hbefore | hrest
        · exact hbefore
        · rcases List.mem_cons.mp hrest with rfl | hafter
          · exact absurd hsource (h.inside _ hfeeder).source_ne_target
          · exact absurd hsource (hlater.1 feeder hafter)
      exact Or.inr ⟨_, List.mem_map_of_mem hfirst, mem_written_copy.mpr ⟨rfl, hfeeds⟩⟩

theorem Delivers.movesArray (h : Delivers src dst copies) : MovesArray src dst copies := by
  refine ⟨h, fun global tiles hholds order hperm horder t ht point hpoint ↦ ?_⟩
  have hknown : sourcePoints src ⊆ right global tiles := by
    rintro ⟨_, p⟩ ⟨s, hs, rfl, hp⟩
    exact hholds s hs p hp
  obtain ⟨call, hcall, htarget, hcontains⟩ := h.covers t ht point hpoint
  have hwritten : (ArraySide.dst t, point) ∈ writtenBy (order.map ReshardCall.copy) :=
    ⟨_, List.mem_map_of_mem (hperm.mem_iff.mpr hcall), mem_written_copy.mpr ⟨htarget, hcontains⟩⟩
  exact right_run (h.feeds hperm horder) hknown (Or.inr hwritten)

/-- Without copies inside the destination every order is allowed. -/
theorem inTreeOrder_of_fromSource (h : ∀ call ∈ copies, call.withinTarget = false) :
    InTreeOrder copies := by
  refine List.pairwise_of_forall_mem_list fun call hcall later _ ↦ ?_
  rw [ReshardCall.source, h call hcall]
  exact ArraySide.noConfusion

/-- The copies that every destination shard receives for itself. -/
theorem delivers_of_receives {receives : ℕ → List ReshardCall}
    (htarget : ∀ t < dst.devices.size, ∀ call ∈ receives t, call.dstShardId = t)
    (hsource : ∀ t < dst.devices.size, ∀ call ∈ receives t, IsShard src dst call.source ∧
      call.source ≠ .dst t ∧ ∀ point, call.bounds.Contains point →
        (sourceBounds src dst call.source).Contains point)
    (hcovers : ∀ t < dst.devices.size, ∀ point, (dst.tileBounds t).Contains point ↔
      ∃ call ∈ receives t, call.bounds.Contains point)
    (horder : InTreeOrder ((List.range dst.devices.size).flatMap receives)) :
    Delivers src dst ((List.range dst.devices.size).flatMap receives) := by
  refine ⟨fun call hcall ↦ ?_, fun t ht point hpoint ↦ ?_, horder⟩
  · obtain ⟨t, ht, hcall⟩ := List.mem_flatMap.mp hcall
    have ht := List.mem_range.mp ht
    obtain ⟨hshard, hne, hcontains⟩ := hsource t ht call hcall
    have heq := htarget t ht call hcall
    refine ⟨hshard, heq.symm ▸ hne, hcontains, heq.symm ▸ ht, fun point hpoint ↦ ?_⟩
    rw [heq]
    exact (hcovers t ht point).mpr ⟨call, hcall, hpoint⟩
  · obtain ⟨call, hcall, hcontains⟩ := (hcovers t ht point).mp hpoint
    exact ⟨call, List.mem_flatMap.mpr ⟨t, List.mem_range.mpr ht, hcall⟩, htarget t ht call hcall,
      hcontains⟩

/-- Every destination shard gets its tile from one source shard. -/
theorem delivers_of_wholeTiles {sender : ℕ → ℕ}
    (hsender : ∀ t < dst.devices.size, sender t < src.devices.size ∧ ∀ point,
      (dst.tileBounds t).Contains point → (src.tileBounds (sender t)).Contains point) :
    Delivers src dst ((List.range dst.devices.size).flatMap fun t ↦
      [⟨sender t, t, dst.tileBounds t, false⟩]) := by
  apply delivers_of_receives
  · intro t _ call hcall
    rw [List.mem_singleton.mp hcall]
  · intro t ht call hcall
    rw [List.mem_singleton.mp hcall]
    exact ⟨(hsender t ht).1, ArraySide.noConfusion, (hsender t ht).2⟩
  · intro t _ point
    simp
  · apply inTreeOrder_of_fromSource
    intro call hcall
    obtain ⟨t, -, hcall⟩ := List.mem_flatMap.mp hcall
    rw [List.mem_singleton.mp hcall]

/-! ## What all processors receive -/

theorem flatMap_of_forall₂ {α β γ : Type} {R : α → β → Prop} {xs : List α} {ys : List β}
    (h : List.Forall₂ R xs ys) {f : α → List γ} {g : β → List γ}
    (hR : ∀ x y, R x y → g y = f x) : ys.flatMap g = xs.flatMap f := by
  induction h with
  | nil => rfl
  | cons hxy _ ih => rw [List.flatMap_cons, List.flatMap_cons, hR _ _ hxy, ih]

/-- One side of the calls of all processors, from what the processors that get
through their reshard do for the shards of a device list. -/
theorem Machine.flatMap_of_run [RealmBuild] {machine : Machine} {calls : List ReshardCalls}
    (hrun : machine.reshard src dst = .ok calls) {devices : DeviceList}
    (hhosts : machine.Hosts devices) {side : ReshardCalls → List ReshardCall}
    {own : ℕ → List ReshardCall}
    (h : ∀ p c, Zuku.reshard p src dst = .ok c →
      side c = (devices.shardId p.globalId).elim [] own) :
    calls.flatMap side = (List.range devices.size).flatMap own := by
  rw [flatMap_of_forall₂ (mapM_eq_ok_iff.mp hrun) fun id c hc ↦ h _ c hc]
  apply flatMap_range_devices devices hhosts
  · intro s hs
    rw [machine.globalId_eq, devices.shardId_start_add hs]
    rfl
  · intro id hid
    have hnone : devices.shardId (machine.processor id).globalId = none := by
      rw [← Option.not_isSome_iff_eq_none, DeviceList.isSome_shardId,
        machine.contains_processor]
      exact hid
    rw [hnone]
    rfl

end Zuku
