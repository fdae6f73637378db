import Zuku.ControllerOrder
import Zuku.MovedArray
import Zuku.Library.KeyedLogs

/-!
# The two sides of a copy

At every reshard of the program a key is used once on each side, if at all, and by
the same processors as at every other one.  So the sends and the receives that the
manager matches are those of one reshard.
-/

namespace Zuku

open Checked KeyedLogs

variable {κ α σ ε : Type} [DecidableEq κ]

/-! ## The plans of a program -/

/-- The calls of all processors fit together. -/
structure MatchedReshard [RealmBuild] (machine : Machine) (src dst : Sharding)
    (calls : List ReshardCalls) : Prop where
  same : SameArray src dst
  src_hosted : machine.Hosts src.devices
  dst_hosted : machine.Hosts dst.devices
  replication_last : ∀ p config, determineShardingConfig p src dst = .ok (.scatterGather config) →
    src.ReplicationLast ∧ dst.ReplicationLast
  run : machine.reshard src dst = .ok calls
  matched : (calls.flatMap ReshardCalls.sends).Perm (calls.flatMap ReshardCalls.receives)

namespace ReplicatedProgram

/-- Every reshard is from one array to another one, and its calls fit together. -/
def Reshardable [RealmBuild] (program : ReplicatedProgram κ α σ ε) : Prop :=
  ∀ src dst, .reshard src dst ∈ program.commands → src ≠ dst ∧ ∃ calls,
    MatchedReshard program.machine (program.array src).sharding (program.array dst).sharding calls

variable (program : ReplicatedProgram κ α σ ε)

/-- The processor of the source shard of a key. -/
def senderOf (key : StoreKey κ) : ℕ :=
  (program.array key.srcId).sharding.devices.start + key.srcShardId

/-- The processor of the destination shard of a key. -/
def receiverOf (key : StoreKey κ) : ℕ :=
  (program.array key.dstId).sharding.devices.start + key.dstShardId

omit [DecidableEq κ] in
theorem sender_eq (src dst : κ) (call : ReshardCall) :
    call.sender (program.array src).sharding (program.array dst).sharding =
      program.senderOf (call.keyBetween src dst) := by
  rw [ReshardCall.sender, ReshardCall.sourceSharding, senderOf, ReshardCall.keyBetween]
  simp only
  split <;> rfl

omit [DecidableEq κ] in
theorem receiver_eq (src dst : κ) (call : ReshardCall) :
    call.receiver (program.array dst).sharding = program.receiverOf (call.keyBetween src dst) := rfl

end ReplicatedProgram

omit [DecidableEq κ] in
/-- Between different arrays the key tells the partners. -/
theorem partners_of_key {src dst : κ} (hne : src ≠ dst) {call call' : ReshardCall}
    (h : call.keyBetween src dst = call'.keyBetween src dst) : call.partners = call'.partners := by
  obtain ⟨hsrc, -, hsrcShard, hdstShard⟩ := StoreKey.mk.inj h
  have hwithin : call.withinTarget = call'.withinTarget := by
    cases hcall : call.withinTarget <;> cases hcall' : call'.withinTarget
    · rfl
    · simp [hcall, hcall', hne] at hsrc
    · simp [hcall, hcall', hne.symm] at hsrc
    · rfl
  rw [ReshardCall.partners, ReshardCall.partners, hwithin, hsrcShard, hdstShard]

/-! ## The calls at one position -/

section Position

variable [RealmBuild] {machine : Machine} {src dst : Sharding} {calls : List ReshardCalls}

theorem MatchedReshard.nodup_partners (h : MatchedReshard machine src dst calls) {id : ℕ}
    {c : ReshardCalls} (hc : calls[id]? = some c) :
    (c.sends.map ReshardCall.partners).Nodup ∧ (c.receives.map ReshardCall.partners).Nodup := by
  have hreceives := machine.nodup_partners h.run h.matched
  have hsends := (h.matched.map ReshardCall.partners).nodup_iff.mpr hreceives
  rw [List.map_flatMap, List.nodup_flatMap] at hsends hreceives
  have hmem := List.mem_of_getElem? hc
  exact ⟨hsends.1 c hmem, hreceives.1 c hmem⟩

/-- The send of a receive, on the processor of the source shard. -/
theorem MatchedReshard.exists_send (h : MatchedReshard machine src dst calls) {id : ℕ}
    {c : ReshardCalls} (hc : calls[id]? = some c) {call : ReshardCall}
    (hcall : call ∈ c.receives) :
    ∃ c', calls[call.sender src dst]? = some c' ∧ call ∈ c'.sends := by
  have hmem : call ∈ calls.flatMap ReshardCalls.receives :=
    List.mem_flatMap.mpr ⟨c, List.mem_of_getElem? hc, hcall⟩
  obtain ⟨c', hc', hsend⟩ := List.mem_flatMap.mp (h.matched.mem_iff.mpr hmem)
  obtain ⟨p, hp⟩ := List.getElem?_of_mem hc'
  rw [Machine.sender_eq h.run hp hsend]
  exact ⟨c', hp, hsend⟩

theorem MatchedReshard.exists_receive (h : MatchedReshard machine src dst calls) {id : ℕ}
    {c : ReshardCalls} (hc : calls[id]? = some c) {call : ReshardCall} (hcall : call ∈ c.sends) :
    ∃ c', calls[call.receiver dst]? = some c' ∧ call ∈ c'.receives := by
  have hmem : call ∈ calls.flatMap ReshardCalls.sends :=
    List.mem_flatMap.mpr ⟨c, List.mem_of_getElem? hc, hcall⟩
  obtain ⟨c', hc', hreceive⟩ := List.mem_flatMap.mp (h.matched.mem_iff.mp hmem)
  obtain ⟨q, hq⟩ := List.getElem?_of_mem hc'
  rw [Machine.receiver_eq h.run hq hreceive]
  exact ⟨c', hq, hreceive⟩

end Position

/-! ## The calls of a run -/

namespace ReplicatedRun

variable [DecidableEq ε] [RealmBuild] {program : ReplicatedProgram κ α σ ε}
  (run : ReplicatedRun program) (hstream : program.StreamFree)
  {id : ℕ} (hid : id < program.machine.numProcessors) {i : ℕ}

include hid in
theorem launch_across {devices : DeviceList} {call : Processor → Call κ (List ℤ → α) σ ε}
    (hi : program.commands[i]? = some (.across devices call)) :
    (run.launch id i).sends = [] ∧ (run.launch id i).receives = [] := by
  have hstep := run.step id hid i _ hi
  rw [Command.launch] at hstep
  split at hstep
  · obtain ⟨hlaunch, -⟩ := Prod.mk.inj (Except.ok.inj hstep)
    rw [← hlaunch]
    exact ⟨rfl, rfl⟩
  · obtain ⟨hlaunch, -⟩ := Prod.mk.inj (Except.ok.inj hstep)
    rw [← hlaunch]
    exact ⟨rfl, rfl⟩

include hstream hid in
/-- A processor makes the calls of its plan. -/
theorem exists_launch {src dst : κ} (hi : program.commands[i]? = some (.reshard src dst))
    {calls : List ReshardCalls}
    (hrun : program.machine.reshard (program.array src).sharding (program.array dst).sharding =
      .ok calls) :
    ∃ state, run.launch id i = .reshard src dst state ∧ calls[id]? = some state.calls := by
  have hlength := (mapM_eq_ok_iff.mp hrun).length_eq
  rw [List.length_range] at hlength
  have hc := List.getElem?_eq_getElem (hlength ▸ hid)
  obtain ⟨-, hcalls⟩ := Machine.reshard_getElem? hrun hc
  have hlt : i < program.commands.length := (List.getElem?_eq_some_iff.mp hi).1
  obtain ⟨⟨state, next⟩, hreshard, hnext⟩ := bind_eq_ok_iff.mp (run.step id hid i _ hi)
  obtain ⟨hlaunch, -⟩ := Prod.mk.inj (Except.ok.inj hnext)
  obtain ⟨state', hstate, hreshard⟩ := bind_eq_ok_iff.mp hreshard
  obtain ⟨rfl, -⟩ := Prod.mk.inj (Except.ok.inj hreshard)
  have hvalue (s : κ) := run.value_eq hstream hid hlt.le s
  have hviewed : ((run.arrays id i).viewed src dst).value = some (program.array dst) := by
    by_cases hs : dst = src
    · rw [Arrays.viewed, hs, Function.update_self]
      exact hvalue src
    · rw [Arrays.viewed, Function.update_of_ne hs]
      exact hvalue dst
  obtain ⟨found, hfound, heq⟩ := ReshardEvents.exists_reshard (program.answers id)
    (((run.arrays id i).stores src).view (run.arrays id i).runtime.createUserEvent.1).1
    ((run.arrays id i).viewed src dst) (run.arrays id i).runtime.createUserEvent.2 (hvalue src)
    hviewed hcalls
  have hsame : found = state' := Except.ok.inj (hfound.symm.trans hstate)
  exact ⟨state', hlaunch.symm, by rw [← hsame, heq]; exact hc⟩

variable (hplans : program.Reshardable)

/-- The calls of a processor at one position, by the plan if it is a reshard. -/
inductive CallsAt (program : ReplicatedProgram κ α σ ε) (id i : ℕ) :
    Launch κ (Completion ε) → Prop where
  | none {launch : Launch κ (Completion ε)} : launch.sends = [] → launch.receives = [] →
      CallsAt program id i launch
  | reshard {src dst : κ} {calls : List ReshardCalls} {state : ReshardState (Completion ε)} :
      program.commands[i]? = some (.reshard src dst) → src ≠ dst →
      MatchedReshard program.machine (program.array src).sharding (program.array dst).sharding
        calls → calls[id]? = some state.calls → CallsAt program id i (.reshard src dst state)

include hstream hid hplans in
theorem callsAt (hi : i < program.commands.length) : CallsAt program id i (run.launch id i) := by
  have hcommand := List.getElem?_eq_getElem hi
  cases hc : program.commands[i] with
  | across devices call =>
      rw [hc] at hcommand
      obtain ⟨hsends, hreceives⟩ := run.launch_across hid hcommand
      exact .none hsends hreceives
  | reshard src dst =>
      rw [hc] at hcommand
      obtain ⟨hne, calls, hmatched⟩ := hplans src dst (List.mem_of_getElem? hcommand)
      obtain ⟨state, hlaunch, hcalls⟩ := run.exists_launch hstream hid hcommand hmatched.run
      rw [hlaunch]
      exact .reshard hcommand hne hmatched hcalls

end ReplicatedRun

omit [DecidableEq κ] in
/-- The entries of a reshard carry its calls. -/
theorem mem_sends_iff {src dst : κ} {state : ReshardState ε} {entry : StoreKey κ × IssuedCall ε} :
    entry ∈ (Launch.reshard src dst state).sends ↔
      entry.1 = entry.2.call.keyBetween src dst ∧ entry.2 ∈ state.forwards ++ state.sends := by
  rw [Launch.sends, List.mem_map]
  constructor
  · rintro ⟨copy, hcopy, rfl⟩
    exact ⟨rfl, hcopy⟩
  · rintro ⟨hkey, hcopy⟩
    exact ⟨entry.2, hcopy, Prod.ext hkey.symm rfl⟩

omit [DecidableEq κ] in
theorem mem_receives_iff {src dst : κ} {state : ReshardState ε}
    {entry : StoreKey κ × IssuedCall ε} :
    entry ∈ (Launch.reshard src dst state).receives ↔
      entry.1 = entry.2.call.keyBetween src dst ∧ entry.2 ∈ state.receives := by
  rw [Launch.receives, List.mem_map]
  constructor
  · rintro ⟨copy, hcopy, rfl⟩
    exact ⟨rfl, hcopy⟩
  · rintro ⟨hkey, hcopy⟩
    exact ⟨entry.2, hcopy, Prod.ext hkey.symm rfl⟩

section CallsAt

open ReplicatedRun

variable [DecidableEq ε] [RealmBuild] {program : ReplicatedProgram κ α σ ε} {id i : ℕ}
  {launch : Launch κ (Completion ε)}

omit [DecidableEq κ] [DecidableEq ε] in
theorem ReplicatedRun.CallsAt.nodup (h : CallsAt program id i launch) :
    (launch.sends.map Prod.fst).Nodup ∧ (launch.receives.map Prod.fst).Nodup := by
  cases h with
  | none hsends hreceives => simp [hsends, hreceives]
  | @reshard src dst calls state _ hne hmatched hcalls =>
      obtain ⟨hsends, hreceives⟩ := hmatched.nodup_partners hcalls
      have hkeys {xs : List ReshardCall} (hxs : (xs.map ReshardCall.partners).Nodup) :
          (xs.map (ReshardCall.keyBetween src dst)).Nodup :=
        nodup_map_of_nodup_map (fun call call' heq ↦ partners_of_key hne heq) hxs
      constructor
      · have hnodup := hkeys hsends
        rw [ReshardState.calls, List.map_map] at hnodup
        rw [Launch.sends, List.map_map]
        exact hnodup
      · have hnodup := hkeys hreceives
        rw [ReshardState.calls, List.map_map] at hnodup
        rw [Launch.receives, List.map_map]
        exact hnodup

omit [DecidableEq κ] [DecidableEq ε] in
/-- A key tells the processors that use it. -/
theorem ReplicatedRun.CallsAt.owner (h : CallsAt program id i launch) :
    (∀ entry ∈ launch.sends, program.senderOf entry.1 = id) ∧
      ∀ entry ∈ launch.receives, program.receiverOf entry.1 = id := by
  cases h with
  | none hsends hreceives => simp [hsends, hreceives]
  | @reshard src dst calls state _ _ hmatched hcalls =>
      constructor
      · intro entry hentry
        obtain ⟨hkey, hcopy⟩ := mem_sends_iff.mp hentry
        rw [hkey, ← program.sender_eq]
        exact Machine.sender_eq hmatched.run hcalls (List.mem_map_of_mem hcopy)
      · intro entry hentry
        obtain ⟨hkey, hcopy⟩ := mem_receives_iff.mp hentry
        rw [hkey, ← program.receiver_eq]
        exact Machine.receiver_eq hmatched.run hcalls (List.mem_map_of_mem hcopy)

end CallsAt

namespace ReplicatedRun

variable [DecidableEq ε] [RealmBuild] {program : ReplicatedProgram κ α σ ε}
  (run : ReplicatedRun program) (hstream : program.StreamFree) (hplans : program.Reshardable)
  {id : ℕ} (hid : id < program.machine.numProcessors) {i : ℕ}
  (hi : i < program.commands.length)

include hstream hplans hid hi

/-- What is received has been sent at the same position. -/
theorem exists_sendEntry {entry : StoreKey κ × IssuedCall (Completion ε)}
    (hentry : entry ∈ (run.launch id i).receives) :
    program.senderOf entry.1 < program.machine.numProcessors ∧
      ∃ entry' ∈ (run.launch (program.senderOf entry.1) i).sends,
        entry'.1 = entry.1 ∧ entry'.2.call = entry.2.call := by
  have h := run.callsAt hstream hid hplans hi
  generalize run.launch id i = launch at h hentry
  cases h with
  | none _ hreceives => simp [hreceives] at hentry
  | @reshard src dst calls state hcommand _ hmatched hcalls =>
      obtain ⟨hkey, hcopy⟩ := mem_receives_iff.mp hentry
      have hcall : entry.2.call ∈ state.calls.receives := List.mem_map_of_mem hcopy
      obtain ⟨c, hc, hsend⟩ := hmatched.exists_send hcalls hcall
      rw [program.sender_eq, ← hkey] at hc
      have hlt := (Machine.reshard_getElem? hmatched.run hc).1
      obtain ⟨state', hlaunch, hcalls'⟩ := run.exists_launch hstream hlt hcommand hmatched.run
      obtain rfl := Option.some.inj (hc.symm.trans hcalls')
      obtain ⟨copy, hcopy', heq⟩ := List.mem_map.mp hsend
      refine ⟨hlt, (copy.call.keyBetween src dst, copy), ?_, ?_, heq⟩
      · rw [hlaunch]
        exact mem_sends_iff.mpr ⟨rfl, hcopy'⟩
      · rw [hkey, heq]

/-- What is sent is received at the same position. -/
theorem exists_receiveEntry {entry : StoreKey κ × IssuedCall (Completion ε)}
    (hentry : entry ∈ (run.launch id i).sends) :
    program.receiverOf entry.1 < program.machine.numProcessors ∧
      ∃ entry' ∈ (run.launch (program.receiverOf entry.1) i).receives, entry'.1 = entry.1 := by
  have h := run.callsAt hstream hid hplans hi
  generalize run.launch id i = launch at h hentry
  cases h with
  | none hsends _ => simp [hsends] at hentry
  | @reshard src dst calls state hcommand _ hmatched hcalls =>
      obtain ⟨hkey, hcopy⟩ := mem_sends_iff.mp hentry
      have hcall : entry.2.call ∈ state.calls.sends := List.mem_map_of_mem hcopy
      obtain ⟨c, hc, hreceive⟩ := hmatched.exists_receive hcalls hcall
      rw [program.receiver_eq src, ← hkey] at hc
      have hlt := (Machine.reshard_getElem? hmatched.run hc).1
      obtain ⟨state', hlaunch, hcalls'⟩ := run.exists_launch hstream hlt hcommand hmatched.run
      obtain rfl := Option.some.inj (hc.symm.trans hcalls')
      obtain ⟨copy, hcopy', heq⟩ := List.mem_map.mp hreceive
      refine ⟨hlt, (copy.call.keyBetween src dst, copy), ?_, ?_⟩
      · rw [hlaunch]
        exact mem_receives_iff.mpr ⟨rfl, hcopy'⟩
      · rw [hkey, heq]

/-- The name of the copy of a call. -/
theorem copy_of_receive {name : StoreKey κ × ℕ → ℕ} (hnames : run.MatchesInOrder name)
    {entry : StoreKey κ × IssuedCall (Completion ε)}
    (hentry : entry ∈ (run.launch id i).receives) :
    entry.2.copy = .copy (name (entry.1,
      numberBefore (fun i ↦ (run.launch id i).receives) entry.1 i)) := by
  have hnodup := (run.callsAt hstream hid hplans hi).nodup.2
  obtain ⟨m, hm, hcount⟩ : ∃ m, (run.log Launch.receives id)[m]? = some entry ∧
      (((run.log Launch.receives id).take m).map Prod.fst).count entry.1 =
        numberBefore (fun i ↦ (run.launch id i).receives) entry.1 i :=
    exists_getElem? hi hentry hnodup
  rw [← hcount]
  exact hnames.receives id hid m entry hm

theorem copy_of_send {name : StoreKey κ × ℕ → ℕ} (hnames : run.MatchesInOrder name)
    {entry : StoreKey κ × IssuedCall (Completion ε)} (hentry : entry ∈ (run.launch id i).sends) :
    entry.2.copy = .copy (name (entry.1,
      numberBefore (fun i ↦ (run.launch id i).sends) entry.1 i)) := by
  have hnodup := (run.callsAt hstream hid hplans hi).nodup.1
  obtain ⟨m, hm, hcount⟩ : ∃ m, (run.log Launch.sends id)[m]? = some entry ∧
      (((run.log Launch.sends id).take m).map Prod.fst).count entry.1 =
        numberBefore (fun i ↦ (run.launch id i).sends) entry.1 i :=
    exists_getElem? hi hentry hnodup
  rw [← hcount]
  exact hnames.sends id hid m entry hm

/-- A receive and its send are for the same copy. -/
theorem exists_send_of_copy {name : StoreKey κ × ℕ → ℕ} (hnames : run.MatchesInOrder name)
    {entry : StoreKey κ × IssuedCall (Completion ε)}
    (hentry : entry ∈ (run.launch id i).receives) :
    program.senderOf entry.1 < program.machine.numProcessors ∧
      ∃ entry' ∈ (run.launch (program.senderOf entry.1) i).sends,
        entry'.1 = entry.1 ∧ entry'.2.call = entry.2.call ∧ entry'.2.copy = entry.2.copy := by
  obtain ⟨hsender, entry', hentry', hkey, hcall⟩ :=
    run.exists_sendEntry hstream hplans hid hi hentry
  have howner : program.receiverOf entry.1 = id :=
    (run.callsAt hstream hid hplans hi).owner.2 entry hentry
  have hnumber : numberBefore (fun i ↦ (run.launch (program.senderOf entry.1) i).sends) entry.1 i =
      numberBefore (fun i ↦ (run.launch id i).receives) entry.1 i := by
    apply numberBefore_congr
    · exact fun k hk ↦ (run.callsAt hstream hsender hplans (hk.trans hi)).nodup.1
    · exact fun k hk ↦ (run.callsAt hstream hid hplans (hk.trans hi)).nodup.2
    · intro k hk
      have hlt := hk.trans hi
      constructor
      · intro hmem
        obtain ⟨sent, hsent, hsentKey⟩ := List.mem_map.mp hmem
        obtain ⟨-, received, hreceived, heq⟩ :=
          run.exists_receiveEntry hstream hplans hsender hlt hsent
        rw [hsentKey, howner] at hreceived
        exact List.mem_map.mpr ⟨received, hreceived, heq.trans hsentKey⟩
      · intro hmem
        obtain ⟨received, hreceived, hreceivedKey⟩ := List.mem_map.mp hmem
        obtain ⟨-, sent, hsent, heq, -⟩ :=
          run.exists_sendEntry hstream hplans hid hlt hreceived
        rw [hreceivedKey] at hsent
        exact List.mem_map.mpr ⟨sent, hsent, heq.trans hreceivedKey⟩
  refine ⟨hsender, entry', hentry', hkey, hcall, ?_⟩
  rw [run.copy_of_send hstream hplans hsender hi hnames hentry',
    run.copy_of_receive hstream hplans hid hi hnames hentry, hkey, hnumber]

/-- Different receives are for different copies. -/
theorem eq_of_copy {name : StoreKey κ × ℕ → ℕ} (hnames : run.MatchesInOrder name)
    {entry entry' : StoreKey κ × IssuedCall (Completion ε)} {id' i' : ℕ}
    (hid' : id' < program.machine.numProcessors) (hi' : i' < program.commands.length)
    (hentry : entry ∈ (run.launch id i).receives) (hentry' : entry' ∈ (run.launch id' i').receives)
    (h : entry.2.copy = entry'.2.copy) : id = id' ∧ i = i' ∧ entry = entry' := by
  rw [run.copy_of_receive hstream hplans hid hi hnames hentry,
    run.copy_of_receive hstream hplans hid' hi' hnames hentry'] at h
  obtain ⟨hkey, hnumber⟩ := Prod.mk.inj (hnames.injective (ArraySignal.copy.inj h))
  have howner := (run.callsAt hstream hid hplans hi).owner.2 entry hentry
  have howner' := (run.callsAt hstream hid' hplans hi').owner.2 entry' hentry'
  obtain rfl : id = id' := by rw [← howner, ← howner', hkey]
  rw [← hkey] at hnumber
  have hmem : entry.1 ∈ (run.launch id i').receives.map Prod.fst :=
    hkey ▸ List.mem_map_of_mem hentry'
  obtain rfl : i = i' := eq_of_numberBefore_eq (List.mem_map_of_mem hentry) hmem hnumber
  have hnodup := (run.callsAt hstream hid hplans hi).nodup.2
  exact ⟨rfl, rfl, List.inj_on_of_nodup_map hnodup hentry hentry' hkey⟩

end ReplicatedRun

end Zuku
