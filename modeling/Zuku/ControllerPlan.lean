import Zuku.ControllerJobs

/-!
# The jobs against a single controller

A single controller executes the commands one after another, a task on all devices
of its list at once and a reshard as a whole.  Each position of the program is a
phase of the jobs: alone they turn the tiles before it into those after it, and they
wait for the jobs of earlier phases with which they conflict.
-/

namespace Zuku

variable {κ α σ ε : Type} [DecidableEq κ]

/-! ## One command after another -/

/-- The point is in the tile of the processor. -/
def Sharding.Holds (sharding : Sharding) (id : ℕ) (point : List ℤ) : Prop :=
  ∃ t < sharding.devices.size, id = sharding.devices.start + t ∧
    (sharding.tileBounds t).Contains point

/-- The tiles of an array by shards. -/
def ShardedArray.shardTiles (array : ShardedArray) (memory : Element κ → α) (s : κ) (shard : ℕ) :
    List ℤ → α :=
  tilesOf memory (array.sharding.devices.start + shard) s

/-- The single controller executes a command. -/
def Command.Executes (machine : Machine) (array : κ → ShardedArray) (before after : Element κ → α) :
    Command κ α σ ε → Prop
  | .across devices call =>
      (∀ id < machine.numProcessors, devices.contains id = true → tilesOf after id =
        ((call (machine.processor id)).toJob.after (tilesOf before id)
          (call (machine.processor id)).body.length).2) ∧
      ∀ x, ¬(x.processor < machine.numProcessors ∧ devices.contains x.processor = true) →
        after x = before x
  | .reshard src dst =>
      (∃ global, HoldsGlobal (array src).sharding global ((array src).shardTiles before src) ∧
        HoldsGlobal (array dst).sharding global ((array dst).shardTiles after dst)) ∧
      ∀ x, ¬(x.array = dst ∧ (array dst).sharding.Holds x.processor x.point) → after x = before x

/-- The contents of all tiles before every command. -/
def ReplicatedProgram.SingleController (program : ReplicatedProgram κ α σ ε)
    (values : ℕ → Element κ → α) : Prop :=
  ∀ (i : ℕ) command, program.commands[i]? = some command →
    command.Executes program.machine program.array (values i) (values (i + 1))

/-! ## Jobs that run alone -/

/-- On the tiles of its processor a task does what it does on the values of stores. -/
theorem Call.after_toTileJob {ε : Type} (call : Call κ (List ℤ → α) σ ε) (id : ℕ)
    (memory : Element κ → α) (n : ℕ) :
    ((call.toTileJob id).after memory n).1 = (call.toJob.after (tilesOf memory id) n).1 ∧
      tilesOf ((call.toTileJob id).after memory n).2 id =
        (call.toJob.after (tilesOf memory id) n).2 := by
  induction n with
  | zero => exact ⟨rfl, rfl⟩
  | succ n ih =>
      obtain ⟨hlocal, htiles⟩ := ih
      rw [PhasedJobs.Job.after, DeferredJobs.Job.after]
      generalize (call.toTileJob id).after memory n = alone at hlocal htiles ⊢
      generalize call.toJob.after (tilesOf memory id) n = values at hlocal htiles ⊢
      cases hf : call.body[n]? with
      | none =>
          simp only [toTileJob, toJob, List.getElem?_map, hf, Option.map_none]
          exact ⟨hlocal, htiles⟩
      | some f =>
          simp only [toTileJob, toJob, List.getElem?_map, hf, Option.map_some, runStep, ← htiles,
            ← hlocal]
          refine ⟨trivial, funext fun s ↦ funext fun point ↦ ?_⟩
          by_cases hs : s ∈ call.written
          · simp only [tilesOf, PhasedJobs.store, hs, and_self, if_true]
            cases (f _ _).2 s <;> rfl
          · simp only [tilesOf, PhasedJobs.store, hs, false_and, if_false, Option.getD_none]

namespace CopyRecord

variable {ε : Type} (record : CopyRecord κ ε) (array : κ → ShardedArray)
  {pieces : List (Set (List ℤ))} {init : σ} {m : Element κ → α}

open Classical in
theorem toJob_sets_of_piece {n : ℕ} {piece : Set (List ℤ)} (hpiece : pieces[n]? = some piece)
    (x : Element κ) : (record.toJob array pieces init).sets m n x =
      if (x.array = record.dst ∧ x.processor = record.receiver ∧ record.Covers x.point) ∧
        x.point ∈ piece then some (((record.toJob array pieces init).after m n).2
          ⟨record.source, record.sender array, x.point⟩) else none := by
  rw [PhasedJobs.Job.sets]
  generalize (record.toJob array pieces init).after m n = alone
  simp only [toJob, List.getElem?_map, hpiece, Option.map_some]

/-- A copy out of another tile sets what it finds there at its start. -/
theorem toJob_sets (hne : ¬(record.source = record.dst ∧ record.sender array = record.receiver))
    {n : ℕ} {x : Element κ} {v : α} (h : (record.toJob array pieces init).sets m n x = some v) :
    v = m ⟨record.source, record.sender array, x.point⟩ := by
  have hsource : ((record.toJob array pieces init).after m n).2
      ⟨record.source, record.sender array, x.point⟩ =
        m ⟨record.source, record.sender array, x.point⟩ :=
    (record.toJob array pieces init).after_of_not_mem m fun hx ↦ hne ⟨hx.1, hx.2.1⟩
  cases hpiece : pieces[n]? with
  | none =>
      rw [PhasedJobs.Job.sets] at h
      generalize (record.toJob array pieces init).after m n = alone at h
      simp only [toJob, List.getElem?_map, hpiece, Option.map_none, reduceCtorEq] at h
  | some piece =>
      rw [record.toJob_sets_of_piece array hpiece] at h
      split at h
      · rw [← Option.some.inj h]
        exact hsource
      · cases h

theorem toJob_after (hne : ¬(record.source = record.dst ∧ record.sender array = record.receiver))
    (hcover : ∀ point, ∃ piece ∈ pieces, point ∈ piece) {x : Element κ}
    (hx : x.array = record.dst ∧ x.processor = record.receiver ∧ record.Covers x.point) :
    ((record.toJob array pieces init).after m pieces.length).2 x =
      m ⟨record.source, record.sender array, x.point⟩ := by
  apply (record.toJob array pieces init).after_of_set m
  · exact fun k _ w hw ↦ record.toJob_sets array hne hw
  · obtain ⟨piece, hpiece, hpoint⟩ := hcover x.point
    obtain ⟨k, hk, rfl⟩ := List.getElem_of_mem hpiece
    refine ⟨k, hk, ?_⟩
    rw [record.toJob_sets_of_piece array (List.getElem?_eq_getElem hk), if_pos ⟨hx, hpoint⟩]
    exact Option.some_ne_none _

end CopyRecord

/-! ## The plan of a run -/

namespace ReplicatedRun

open PhasedJobs (Plan Coherent Ordered Serial)

variable [DecidableEq ε] [RealmBuild] {program : ReplicatedProgram κ α σ ε}
  (run : ReplicatedRun program) [Inhabited σ] (pieces : Pieces) (values : ℕ → Element κ → α)

/-- A copy inside a broadcast tree reads what another copy has written. -/
def fedElements : ReplicatedJob → Set (Element κ)
  | .task _ _ => ∅
  | .copy c => {x | x ∈ (run.job pieces (.copy c)).reads ∧
      ∃ record, run.copyOf c = some record ∧ record.issued.call.withinTarget = true}

noncomputable def plan : Plan ReplicatedJob (Element κ) α σ where
  job := run.job pieces
  phase := run.phase
  fed := run.fedElements pieces
  values i := values (min i program.commands.length)

variable {values}

theorem plan_values {i : ℕ} (hi : i ≤ program.commands.length) :
    (run.plan pieces values).values i = values i := congrArg values (min_eq_left hi)

theorem plan_phase_copy {c : ℕ} {record : CopyRecord κ (Completion ε)}
    (h : run.copyOf c = some record) :
    (run.plan pieces values).phase (.copy c) = record.position := run.phase_copy h

variable (hstream : program.StreamFree) (hplans : program.Reshardable)
  {name : StoreKey κ × ℕ → ℕ} (hnames : run.MatchesInOrder name)
  (hvalues : program.SingleController values)

include hstream hplans

omit [Inhabited σ] in
/-- A copy moves elements between two tiles of its reshard. -/
theorem insideTiles {record : CopyRecord κ (Completion ε)} (h : record ∈ run.copies) :
    InsideTiles (program.array record.src).sharding (program.array record.dst).sharding
        record.issued.call ∧
      record.receiver = record.issued.call.receiver (program.array record.dst).sharding := by
  obtain ⟨-, -, calls, hmatched, hcall⟩ := run.exists_plan hstream hplans h
  have hdelivers := reshard_delivers hmatched.same hmatched.src_hosted hmatched.dst_hosted
    hmatched.replication_last hmatched.run hmatched.matched
  refine ⟨hdelivers.inside _ hcall, ?_⟩
  obtain ⟨hi, hid, state, hlaunch, hissued⟩ := run.mem_copies_iff.mp h
  have hentry : (record.issued.call.keyBetween record.src record.dst, record.issued) ∈
      (run.launch record.receiver record.position).receives := by
    rw [hlaunch]
    exact mem_receives_iff.mpr ⟨rfl, hissued⟩
  exact ((run.callsAt hstream hid hplans hi).owner.2 _ hentry).symm

omit [Inhabited σ] in
theorem source_ne_target {record : CopyRecord κ (Completion ε)} (h : record ∈ run.copies) :
    ¬(record.source = record.dst ∧ record.sender program.array = record.receiver) := by
  rintro ⟨hsource, hsender⟩
  obtain ⟨hinside, hreceiver⟩ := run.insideTiles hstream hplans h
  obtain ⟨-, hne, -⟩ := run.exists_plan hstream hplans h
  have hapart := hinside.source_ne_target
  rw [hreceiver] at hsender
  rw [ReshardCall.source] at hapart
  rw [CopyRecord.source, ReshardCall.keyBetween] at hsource
  rw [CopyRecord.sender, ReshardCall.sender, ReshardCall.sourceSharding,
    ReshardCall.receiver] at hsender
  by_cases hwithin : record.issued.call.withinTarget = true
  · rw [if_pos hwithin] at hapart hsender
    exact hapart (congrArg ArraySide.dst (Nat.add_left_cancel hsender))
  · simp only [if_neg hwithin] at hsource
    exact hne hsource

include hvalues in
/-- What a copy finds in its source is what its target holds after the reshard. -/
theorem values_of_copy {c : ℕ} {record : CopyRecord κ (Completion ε)}
    (h : run.copyOf c = some record) {x : Element κ}
    (hx : x.array = record.dst ∧ x.processor = record.receiver ∧ record.Covers x.point) :
    (run.plan pieces values).start (.copy c)
        ⟨record.source, record.sender program.array, x.point⟩ =
      (run.plan pieces values).values (record.position + 1) x := by
  obtain ⟨hmem, -⟩ := run.copyOf_some h
  obtain ⟨hi, -⟩ := run.mem_copies_iff.mp hmem
  obtain ⟨hcommand, -⟩ := run.exists_plan hstream hplans hmem
  obtain ⟨hinside, hreceiver⟩ := run.insideTiles hstream hplans hmem
  obtain ⟨⟨global, hbefore, hafter⟩, -⟩ := hvalues record.position _ hcommand
  obtain ⟨hdst, hprocessor, hcovers⟩ := hx
  have hvalue : values (record.position + 1) x = global x.point := by
    rw [← hafter _ hinside.target_isShard x.point (hinside.target_contains x.point hcovers)]
    rw [ShardedArray.shardTiles, tilesOf, ← ReshardCall.receiver, ← hreceiver, ← hprocessor, ← hdst]
  rw [run.plan_values pieces hi, hvalue]
  have hshard := hinside.source_isShard
  have hcontains := hinside.source_contains x.point hcovers
  rw [ReshardCall.source] at hshard hcontains
  rw [CopyRecord.source, ReshardCall.keyBetween, CopyRecord.sender, ReshardCall.sender,
    ReshardCall.sourceSharding]
  by_cases hwithin : record.issued.call.withinTarget = true
  · simp only [if_pos hwithin] at hshard hcontains ⊢
    rw [Plan.start_of_fed, run.plan_phase_copy pieces h, run.plan_values pieces hi]
    · exact hafter _ hshard x.point hcontains
    · refine ⟨?_, record, h, hwithin⟩
      rw [run.job_copy pieces h]
      refine ⟨?_, ?_, hcovers⟩
      · rw [CopyRecord.source, ReshardCall.keyBetween, if_pos hwithin]
      · rw [CopyRecord.sender, ReshardCall.sender, ReshardCall.sourceSharding, if_pos hwithin]
  · simp only [if_neg hwithin] at hshard hcontains ⊢
    rw [Plan.start_of_not_fed, run.plan_phase_copy pieces h]
    · rw [run.plan_values pieces hi.le]
      exact hbefore _ hshard x.point hcontains
    · rintro ⟨-, record', hrecord', hwithin'⟩
      rw [h] at hrecord'
      exact hwithin (Option.some.inj hrecord' ▸ hwithin')

/-! ## The jobs of one position -/

omit hstream hplans in
theorem command_of_task {id i : ℕ} {x : Element κ}
    (hx : x ∈ (run.job pieces (.task id i)).reads ∨ x ∈ (run.job pieces (.task id i)).writes) :
    ∃ devices call, program.commands[i]? = some (.across devices call) := by
  obtain ⟨-, -, devices, call, hi, -⟩ := run.task_of_touches pieces hx
  exact ⟨devices, call, hi⟩

omit [Inhabited σ] in
theorem command_of_copy {c : ℕ} {record : CopyRecord κ (Completion ε)}
    (h : run.copyOf c = some record) : program.commands[run.phase (.copy c)]? =
      some (.reshard record.src record.dst) := by
  rw [run.phase_copy h]
  exact (run.exists_plan hstream hplans (run.copyOf_some h).1).1

/-- At one position there are tasks or copies of one reshard. -/
theorem sameCommand {j k : ReplicatedJob} (hphase : run.phase j = run.phase k) {x y : Element κ}
    (hj : x ∈ (run.job pieces j).reads ∨ x ∈ (run.job pieces j).writes)
    (hk : y ∈ (run.job pieces k).reads ∨ y ∈ (run.job pieces k).writes) :
    (∃ i, j = .task x.processor i ∧ k = .task y.processor i) ∨
      ∃ c d record record', j = .copy c ∧ k = .copy d ∧ run.copyOf c = some record ∧
        run.copyOf d = some record' ∧ record.position = record'.position ∧
        record.src = record'.src ∧ record.dst = record'.dst := by
  cases j with
  | task id i =>
      obtain ⟨hprocessor, -, devices, call, hcommand, -⟩ := run.task_of_touches pieces hj
      cases k with
      | task id' i' =>
          obtain ⟨hprocessor', -⟩ := run.task_of_touches pieces hk
          have hi : i = i' := hphase
          exact Or.inl ⟨i, by rw [hprocessor], by rw [hprocessor', hi]⟩
      | copy d =>
          obtain ⟨record', hrecord'⟩ := run.copy_of_touches pieces hk
          have hreshard := run.command_of_copy hstream hplans hrecord'
          have hi : i = run.phase (.copy d) := hphase
          rw [← hi, hcommand] at hreshard
          cases hreshard
  | copy c =>
      obtain ⟨record, hrecord⟩ := run.copy_of_touches pieces hj
      have hreshard := run.command_of_copy hstream hplans hrecord
      cases k with
      | task id' i' =>
          obtain ⟨devices, call, hcommand⟩ := run.command_of_task pieces hk
          have hi : run.phase (.copy c) = i' := hphase
          rw [hi, hcommand] at hreshard
          cases hreshard
      | copy d =>
          obtain ⟨record', hrecord'⟩ := run.copy_of_touches pieces hk
          have hreshard' := run.command_of_copy hstream hplans hrecord'
          rw [← hphase, hreshard] at hreshard'
          obtain ⟨hsrc, hdst⟩ := Command.reshard.inj (Option.some.inj hreshard')
          refine Or.inr ⟨c, d, record, record', rfl, rfl, hrecord, hrecord', ?_, hsrc, hdst⟩
          rwa [run.phase_copy hrecord, run.phase_copy hrecord'] at hphase

include hnames in
/-- The jobs wait for those that they must not overtake. -/
theorem plan_ordered : Ordered (run.plan pieces values) run.waits ReplicatedJob.completion
    run.Possible where
  earlier := by
    intro j k x hphase hconflict triggered hpossible hwaits
    rcases hconflict with ⟨hwrites, hreads | hwrites'⟩ | ⟨hreads, hwrites⟩
    · have hj := JobUse.of_writes run pieces hstream hplans hwrites
      obtain ⟨access, hk⟩ := JobUse.of_reads run pieces hstream hplans hnames hreads
      exact hj.ordered run hstream hk hphase (Or.inl rfl) hpossible hwaits
    · have hj := JobUse.of_writes run pieces hstream hplans hwrites
      have hk := JobUse.of_writes run pieces hstream hplans hwrites'
      exact hj.ordered run hstream hk hphase (Or.inl rfl) hpossible hwaits
    · obtain ⟨access, hj⟩ := JobUse.of_reads run pieces hstream hplans hnames hreads
      have hk := JobUse.of_writes run pieces hstream hplans hwrites
      exact hj.ordered run hstream hk hphase (Or.inr rfl) hpossible hwaits
  feeder := by
    intro j k x hphase hne hwrites hreads
    rcases run.sameCommand pieces hstream hplans hphase (Or.inr hwrites) (Or.inl hreads) with
      ⟨i, rfl, rfl⟩ | ⟨c, d, record, record', rfl, rfl, hrecord, hrecord', hposition, hsrc, hdst⟩
    · exact absurd rfl hne
    have htouched := hreads
    have hwritten : x ∈ (run.job pieces (.copy c)).writes := hwrites
    have hread : x ∈ (run.job pieces (.copy d)).reads := hreads
    rw [run.job_copy pieces hrecord] at hwritten
    rw [run.job_copy pieces hrecord'] at hread
    obtain ⟨hmem, hcopy⟩ := run.copyOf_some hrecord
    obtain ⟨hcommand, hapart, -⟩ := run.exists_plan hstream hplans hmem
    have hwithin : record'.issued.call.withinTarget = true := by
      by_contra hwithin
      have hsource : record'.source = record'.src := by
        rw [CopyRecord.source, ReshardCall.keyBetween]
        exact if_neg hwithin
      apply hapart
      rw [hsrc, ← hsource, ← hread.1, hwritten.1]
    refine ⟨⟨htouched, record', hrecord', hwithin⟩, fun triggered hpossible hwaits ↦ ?_⟩
    obtain ⟨-, hid, state, hlaunch, hissued⟩ := run.mem_copies_iff.mp hmem
    obtain ⟨hsender, state', forward, hlaunch', -, hforwardCopy, hforward⟩ :=
      run.exists_sent hstream hplans hnames hrecord'
    rw [if_pos hwithin] at hforward
    have hprocessor : record'.sender program.array = record.receiver := by
      rw [← hread.2.1, hwritten.2.1]
    rw [hprocessor] at hsender hlaunch'
    rw [← hposition, ← hsrc, ← hdst] at hlaunch'
    obtain ⟨-, -, rfl⟩ := Launch.reshard.inj (hlaunch.symm.trans hlaunch')
    have hforwardWaits : GlobalSignal.ofLocal record.receiver '' forward.precondition ⊆
        triggered := by
      refine subset_trans ?_ hwaits
      have hi := (List.getElem?_eq_some_iff.mp hcommand).1
      apply run.precondition_subset_waits hid hi
        (forward.call.keyBetween record.src record.dst) _ hforwardCopy
      rw [hlaunch]
      exact List.mem_append_left _ (mem_sends_iff.mpr ⟨rfl, List.mem_append_left _ hforward⟩)
    have hdone := run.fed hstream hid hcommand hlaunch hforward hissued hpossible hforwardWaits
    rw [hcopy] at hdone
    exact hdone

/-! ## The values of the plan -/

omit hstream hplans in
theorem start_task {id i : ℕ} (hi : i < program.commands.length) :
    (run.plan pieces values).start (.task id i) = values i := by
  funext x
  rw [Plan.start_of_not_fed _ (Set.notMem_empty x)]
  exact congrFun (run.plan_values pieces hi.le) x

omit hstream hplans in
/-- A task that runs alone does what it does in the execution of the single controller. -/
theorem alone_task {id i : ℕ} (hid : id < program.machine.numProcessors) {devices : DeviceList}
    {call : Processor → Call κ (List ℤ → α) σ ε}
    (hi : program.commands[i]? = some (.across devices call))
    (hcontains : devices.contains id = true) (n : ℕ) :
    ((run.plan pieces values).alone (.task id i) n).1 =
        ((call (program.machine.processor id)).toJob.after (tilesOf (values i) id) n).1 ∧
      tilesOf ((run.plan pieces values).alone (.task id i) n).2 id =
        ((call (program.machine.processor id)).toJob.after (tilesOf (values i) id) n).2 := by
  rw [Plan.alone, run.start_task pieces (List.getElem?_eq_some_iff.mp hi).1]
  change (((run.job pieces (.task id i)).after (values i) n).1 = _ ∧
    tilesOf ((run.job pieces (.task id i)).after (values i) n).2 id = _)
  rw [run.job_task pieces hid hi hcontains]
  exact Call.after_toTileJob _ _ _ _

include hvalues

theorem sets_copy {c n : ℕ} {record : CopyRecord κ (Completion ε)}
    (h : run.copyOf c = some record) {x : Element κ} {v : α}
    (hv : (run.plan pieces values).sets (.copy c) n x = some v) :
    v = (run.plan pieces values).values (record.position + 1) x := by
  have hsets : (run.job pieces (.copy c)).sets ((run.plan pieces values).start (.copy c)) n x =
      some v := hv
  rw [run.job_copy pieces h] at hsets
  have hwrites := (record.toJob program.array (pieces.pieces c) default).mem_writes_of_sets
    ((run.plan pieces values).start (.copy c)) (Option.ne_none_iff_exists'.mpr ⟨v, hsets⟩)
  have hapart := run.source_ne_target hstream hplans (run.copyOf_some h).1
  rw [record.toJob_sets program.array hapart hsets]
  exact run.values_of_copy pieces hstream hplans hvalues h hwrites

omit hstream hplans in
theorem written_task {id i : ℕ} {x : Element κ}
    (hx : x ∈ (run.job pieces (.task id i)).writes) :
    ((run.plan pieces values).alone (.task id i) (run.job pieces (.task id i)).steps.length).2 x =
      (run.plan pieces values).values (i + 1) x := by
  obtain ⟨rfl, hid, devices, call, hi, hcontains⟩ := run.task_of_touches pieces (Or.inr hx)
  have hlt := (List.getElem?_eq_some_iff.mp hi).1
  obtain ⟨htasks, -⟩ := hvalues i _ hi
  have hlength : (run.job pieces (.task x.processor i)).steps.length =
      (call (program.machine.processor x.processor)).body.length := by
    rw [run.job_task pieces hid hi hcontains, Call.toTileJob, List.length_map]
  have hvalue := (run.alone_task pieces hid hi hcontains _).2.trans
    (htasks x.processor hid hcontains).symm
  rw [hlength, run.plan_values pieces hlt]
  exact congrFun (congrFun hvalue x.array) x.point

theorem written_copy {c : ℕ} {x : Element κ} (hx : x ∈ (run.job pieces (.copy c)).writes) :
    ((run.plan pieces values).alone (.copy c) (run.job pieces (.copy c)).steps.length).2 x =
      (run.plan pieces values).values (run.phase (.copy c) + 1) x := by
  obtain ⟨record, hrecord⟩ := run.copy_of_touches pieces (Or.inr hx)
  have hapart := run.source_ne_target hstream hplans (run.copyOf_some hrecord).1
  have hlength : (run.job pieces (.copy c)).steps.length = (pieces.pieces c).length := by
    rw [run.job_copy pieces hrecord, CopyRecord.toJob, List.length_map]
  rw [hlength]
  rw [run.job_copy pieces hrecord] at hx
  rw [run.phase_copy hrecord, ← run.values_of_copy pieces hstream hplans hvalues hrecord hx]
  change ((run.job pieces (.copy c)).after _ (pieces.pieces c).length).2 x = _
  rw [run.job_copy pieces hrecord]
  exact record.toJob_after program.array hapart (pieces.cover c) hx

include hnames in
theorem unwritten {i : ℕ} {x : Element κ}
    (hnone : ∀ j, run.phase j = i → x ∉ (run.job pieces j).writes) :
    (run.plan pieces values).values (i + 1) x = (run.plan pieces values).values i x := by
  by_cases hi : i < program.commands.length
  · rw [run.plan_values pieces hi.le, run.plan_values pieces hi]
    have hcommand := List.getElem?_eq_getElem hi
    cases hc : program.commands[i] with
    | across devices call =>
        rw [hc] at hcommand
        obtain ⟨htasks, hrest⟩ := hvalues i _ hcommand
        by_cases hruns : x.processor < program.machine.numProcessors ∧
            devices.contains x.processor = true
        · have hwritten : x.array ∉ (call (program.machine.processor x.processor)).written := by
            intro hwritten
            apply hnone (.task x.processor i) rfl
            rw [run.job_task pieces hruns.1 hcommand hruns.2]
            exact ⟨hwritten, rfl⟩
          have hafter := congrFun (congrFun (htasks x.processor hruns.1 hruns.2) x.array) x.point
          rw [DeferredJobs.Job.after_of_not_mem _ _ _ hwritten] at hafter
          exact hafter
        · exact hrest x hruns
    | reshard src dst =>
        rw [hc] at hcommand
        obtain ⟨-, hrest⟩ := hvalues i _ hcommand
        apply hrest
        rintro ⟨harray, t, ht, hprocessor, hcontains⟩
        -- the tile is covered by what its processor receives
        obtain ⟨-, calls, hmatched⟩ := hplans src dst (List.mem_of_getElem? hcommand)
        have hdelivers := reshard_delivers hmatched.same hmatched.src_hosted hmatched.dst_hosted
          hmatched.replication_last hmatched.run hmatched.matched
        obtain ⟨call, hcall, htarget, hcovers⟩ := hdelivers.covers t ht x.point hcontains
        obtain ⟨c, hmem, hreceive⟩ := List.mem_flatMap.mp hcall
        obtain ⟨id, hc⟩ := List.getElem?_of_mem hmem
        have hid := (Machine.reshard_getElem? hmatched.run hc).1
        have howner := Machine.receiver_eq hmatched.run hc hreceive
        obtain ⟨state, hlaunch, hcalls⟩ := run.exists_launch hstream hid hcommand hmatched.run
        obtain rfl := Option.some.inj (hc.symm.trans hcalls)
        obtain ⟨issued, hissued, rfl⟩ := List.mem_map.mp hreceive
        have hrecord : (⟨i, id, src, dst, issued⟩ : CopyRecord κ (Completion ε)) ∈ run.copies :=
          run.mem_copies_iff.mpr ⟨hi, hid, state, hlaunch, hissued⟩
        obtain ⟨number, hnumber⟩ := run.exists_copyOf hstream hplans hnames hrecord
        apply hnone (.copy number) (run.phase_copy hnumber)
        rw [run.job_copy pieces hnumber]
        refine ⟨harray, ?_, hcovers⟩
        rw [hprocessor, ← howner, ReshardCall.receiver, htarget]
  · -- after the program nothing happens
    have hle := Nat.le_of_not_lt hi
    simp only [plan, min_eq_right hle, min_eq_right (Nat.le_succ_of_le hle)]

include hnames in
/-- One position after another the jobs do what the single controller does. -/
theorem plan_coherent : Coherent (run.plan pieces values) where
  fed_disjoint := by
    intro j
    cases j with
    | task id i => exact Set.empty_disjoint _
    | copy c =>
        rw [Set.disjoint_left]
        rintro x ⟨hreads, record, hrecord, -⟩ hwrites
        have hwritten : x ∈ (run.job pieces (.copy c)).writes := hwrites
        rw [run.job_copy pieces hrecord] at hreads hwritten
        apply run.source_ne_target hstream hplans (run.copyOf_some hrecord).1
        exact ⟨hreads.1.symm.trans hwritten.1, hreads.2.1.symm.trans hwritten.2.1⟩
  unwritten := fun i x hnone ↦ run.unwritten pieces hstream hplans hnames hvalues hnone
  written := by
    intro j x hx
    cases j with
    | task id i => exact run.written_task pieces hvalues hx
    | copy c => exact run.written_copy pieces hstream hplans hvalues hx
  agreed := by
    intro j k hne hphase x hj hk n v hv
    rcases run.sameCommand pieces hstream hplans hphase (Or.inr hj) (Or.inr hk) with
      ⟨i, rfl, rfl⟩ | ⟨c, d, record, record', rfl, rfl, hrecord, -⟩
    · exact absurd rfl hne
    · rw [run.sets_copy pieces hstream hplans hvalues hrecord hv]
      rw [run.plan_phase_copy pieces hrecord]

end ReplicatedRun

end Zuku
