import Zuku.ControllerPairs

/-!
# The order of the jobs of all processors

A job uses tiles through the stores of one or two processors, and on each of them
it waits for the earlier jobs that it must not overtake.  At one position of the
program only the copies inside a broadcast tree read what others write, and they
wait for it.
-/

namespace Zuku

variable {κ α σ ε : Type} [DecidableEq κ] [DecidableEq ε]

namespace ReplicatedRun

variable [RealmBuild] {program : ReplicatedProgram κ α σ ε} (run : ReplicatedRun program)

/-! ## The records of copies -/

theorem mem_copies_iff {record : CopyRecord κ (Completion ε)} :
    record ∈ run.copies ↔ record.position < program.commands.length ∧
      record.receiver < program.machine.numProcessors ∧ ∃ state,
        run.launch record.receiver record.position = .reshard record.src record.dst state ∧
          record.issued ∈ state.receives := by
  simp only [copies, List.mem_flatMap, List.mem_range]
  constructor
  · rintro ⟨i, hi, id, hid, hmem⟩
    split at hmem
    · rename_i src dst state hlaunch
      obtain ⟨issued, hissued, rfl⟩ := List.mem_map.mp hmem
      exact ⟨hi, hid, state, hlaunch, hissued⟩
    · cases hmem
  · rintro ⟨hi, hid, state, hlaunch, hissued⟩
    refine ⟨_, hi, _, hid, ?_⟩
    rw [hlaunch]
    exact List.mem_map.mpr ⟨record.issued, hissued, rfl⟩

theorem copyOf_some {c : ℕ} {record : CopyRecord κ (Completion ε)}
    (h : run.copyOf c = some record) :
    record ∈ run.copies ∧ record.issued.copy = .copy c :=
  ⟨List.mem_of_find?_eq_some h, by simpa using List.find?_some h⟩

variable (hstream : program.StreamFree) (hplans : program.Reshardable)

include hstream hplans

/-- A record belongs to a reshard whose calls fit together. -/
theorem exists_plan {record : CopyRecord κ (Completion ε)} (h : record ∈ run.copies) :
    program.commands[record.position]? = some (.reshard record.src record.dst) ∧
      record.src ≠ record.dst ∧ ∃ calls,
        MatchedReshard program.machine (program.array record.src).sharding
            (program.array record.dst).sharding calls ∧
          record.issued.call ∈ calls.flatMap ReshardCalls.receives := by
  obtain ⟨hi, hid, state, hlaunch, hissued⟩ := run.mem_copies_iff.mp h
  have hcalls := run.callsAt hstream hid hplans hi
  rw [hlaunch] at hcalls
  cases hcalls with
  | none _ hreceives =>
      rw [Launch.receives, List.map_eq_nil_iff] at hreceives
      simp [hreceives] at hissued
  | @reshard src dst calls state hcommand hne hmatched hc =>
      refine ⟨hcommand, hne, calls, hmatched, ?_⟩
      exact List.mem_flatMap.mpr ⟨_, List.mem_of_getElem? hc, List.mem_map_of_mem hissued⟩

variable {name : StoreKey κ × ℕ → ℕ} (hnames : run.MatchesInOrder name)

include hnames

/-- Every record is the one of its copy. -/
theorem exists_copyOf {record : CopyRecord κ (Completion ε)} (h : record ∈ run.copies) :
    ∃ c, run.copyOf c = some record := by
  obtain ⟨hi, hid, state, hlaunch, hissued⟩ := run.mem_copies_iff.mp h
  have hentry : (record.issued.call.keyBetween record.src record.dst, record.issued) ∈
      (run.launch record.receiver record.position).receives := by
    rw [hlaunch]
    exact mem_receives_iff.mpr ⟨rfl, hissued⟩
  obtain ⟨c, hc⟩ : ∃ c, record.issued.copy = .copy c :=
    ⟨_, run.copy_of_receive hstream hplans hid hi hnames hentry⟩
  have hsome : (run.copyOf c).isSome := by
    rw [copyOf, List.find?_isSome]
    exact ⟨record, h, by simpa using hc⟩
  obtain ⟨found, hfound⟩ := Option.isSome_iff_exists.mp hsome
  obtain ⟨hmem, hcopy⟩ := run.copyOf_some hfound
  obtain ⟨hi', hid', state', hlaunch', hissued'⟩ := run.mem_copies_iff.mp hmem
  have hentry' : (found.issued.call.keyBetween found.src found.dst, found.issued) ∈
      (run.launch found.receiver found.position).receives := by
    rw [hlaunch']
    exact mem_receives_iff.mpr ⟨rfl, hissued'⟩
  obtain ⟨hreceiver, hposition, heq⟩ := run.eq_of_copy hstream hplans hid hi hnames hid' hi' hentry
    hentry' (hc.trans hcopy.symm)
  rw [← hreceiver, ← hposition, hlaunch] at hlaunch'
  obtain ⟨hsrc, hdst, -⟩ := Launch.reshard.inj hlaunch'
  have hissuedEq : record.issued = found.issued := congrArg Prod.snd heq
  have hrecord : found = record := by
    cases found
    cases record
    simp_all
  exact ⟨c, hrecord ▸ hfound⟩

/-- The call on the side of the source of a copy. -/
theorem exists_sent {c : ℕ} {record : CopyRecord κ (Completion ε)}
    (h : run.copyOf c = some record) :
    record.sender program.array < program.machine.numProcessors ∧ ∃ state copy,
      run.launch (record.sender program.array) record.position =
          .reshard record.src record.dst state ∧ copy.call = record.issued.call ∧
        copy.copy = .copy c ∧
          if record.issued.call.withinTarget then copy ∈ state.forwards
          else copy ∈ state.sends := by
  obtain ⟨hmem, hcopy⟩ := run.copyOf_some h
  obtain ⟨hcommand, -, calls, hmatched, -⟩ := run.exists_plan hstream hplans hmem
  obtain ⟨hi, hid, state, hlaunch, hissued⟩ := run.mem_copies_iff.mp hmem
  have hentry : (record.issued.call.keyBetween record.src record.dst, record.issued) ∈
      (run.launch record.receiver record.position).receives := by
    rw [hlaunch]
    exact mem_receives_iff.mpr ⟨rfl, hissued⟩
  obtain ⟨hsender, entry, hsent, hkey, hcall, hsame⟩ :=
    run.exists_send_of_copy hstream hplans hid hi hnames hentry
  rw [← program.sender_eq] at hsender hsent
  obtain ⟨state', hlaunch', -⟩ := run.exists_launch hstream hsender hcommand hmatched.run
  have hsides := (run.launches hstream hsender hcommand).sides _ _ _ hlaunch'
  rw [hlaunch'] at hsent
  refine ⟨hsender, state', entry.2, hlaunch', hcall, hsame.trans hcopy, ?_⟩
  rw [← hcall]
  rcases List.mem_append.mp (mem_sends_iff.mp hsent).2 with hforward | hsend
  · rwa [if_pos (hsides.2 _ hforward)]
  · have hnot := hsides.1 _ hsend
    simpa [hnot] using hsend

omit hstream hplans hnames in
/-- A copy waits for the preconditions of its calls. -/
theorem precondition_subset_waits {c i id : ℕ} (hid : id < program.machine.numProcessors)
    (hi : i < program.commands.length) (key : StoreKey κ) {copy : IssuedCall (Completion ε)}
    (hentry : (key, copy) ∈ (run.launch id i).sends ++ (run.launch id i).receives)
    (hcopy : copy.copy = .copy c) :
    GlobalSignal.ofLocal id '' copy.precondition ⊆ run.waits (.copy c) :=
  fun _ hg ↦ ⟨id, hid, i, hi, (key, copy), hentry, hcopy, hg⟩

omit hstream hplans hnames in
theorem launch_task {id i : ℕ} (hid : id < program.machine.numProcessors) {devices : DeviceList}
    {call : Processor → Call κ (List ℤ → α) σ ε}
    (hi : program.commands[i]? = some (.across devices call))
    (hcontains : devices.contains id = true) :
    ∃ precondition, run.launch id i = .task precondition := by
  have hstep := run.step id hid i _ hi
  rw [Command.launch, program.machine.globalId_eq, if_pos hcontains] at hstep
  obtain ⟨hlaunch, -⟩ := Prod.mk.inj (Except.ok.inj hstep)
  exact ⟨_, hlaunch.symm⟩

end ReplicatedRun

/-! ## The uses of a job -/

namespace ReplicatedRun

variable [RealmBuild] {program : ReplicatedProgram κ α σ ε} (run : ReplicatedRun program)

/-- The position at which a job is launched. -/
def phase : ReplicatedJob → ℕ
  | .task _ position => position
  | .copy c => (run.copyOf c).elim 0 CopyRecord.position

theorem phase_copy {c : ℕ} {record : CopyRecord κ (Completion ε)}
    (h : run.copyOf c = some record) : run.phase (.copy c) = record.position := by
  rw [phase, h, Option.elim_some]

variable [Inhabited σ] (pieces : Pieces)

theorem job_task {id i : ℕ} (hid : id < program.machine.numProcessors) {devices : DeviceList}
    {call : Processor → Call κ (List ℤ → α) σ ε}
    (hi : program.commands[i]? = some (.across devices call))
    (hcontains : devices.contains id = true) :
    run.job pieces (.task id i) = (call (program.machine.processor id)).toTileJob id := by
  rw [job, hi]
  exact if_pos ⟨hid, hcontains⟩

theorem job_copy {c : ℕ} {record : CopyRecord κ (Completion ε)}
    (h : run.copyOf c = some record) :
    run.job pieces (.copy c) = record.toJob program.array (pieces.pieces c) default := by
  rw [job, h]

/-- A task that touches an element runs on its processor. -/
theorem task_of_touches {id i : ℕ} {x : Element κ}
    (hx : x ∈ (run.job pieces (.task id i)).reads ∨ x ∈ (run.job pieces (.task id i)).writes) :
    x.processor = id ∧ id < program.machine.numProcessors ∧ ∃ devices call,
      program.commands[i]? = some (.across devices call) ∧ devices.contains id = true := by
  rw [job] at hx
  split at hx
  · rename_i devices call hi
    split at hx
    · rename_i hruns
      refine ⟨?_, hruns.1, devices, call, hi, hruns.2⟩
      rcases hx with hx | hx
      · exact hx.2
      · exact hx.2
    · simp [idleTileJob] at hx
  · simp [idleTileJob] at hx

theorem copy_of_touches {c : ℕ} {x : Element κ}
    (hx : x ∈ (run.job pieces (.copy c)).reads ∨ x ∈ (run.job pieces (.copy c)).writes) :
    ∃ record, run.copyOf c = some record := by
  rw [job] at hx
  split at hx
  · rename_i record hrecord
    exact ⟨record, hrecord⟩
  · simp [idleTileJob] at hx

/-- The use of an array by which a job touches its tile on a processor. -/
structure JobUse (j : ReplicatedJob) (id : ℕ) (s : κ) (access : Access) : Prop where
  hosted : id < program.machine.numProcessors
  exists_use : ∃ command, program.commands[run.phase j]? = some command ∧
    ∃ use, UsedBy (program.machine.processor id) (run.phase j) command
        (run.launch id (run.phase j)) use ∧ use.store = s ∧ use.access = access ∧
      GlobalSignal.ofLocal id use.signal = j.completion ∧
      GlobalSignal.ofLocal id '' use.precondition ⊆ run.waits j

omit [Inhabited σ] in
theorem JobUse.of_argument {id i : ℕ} (hid : id < program.machine.numProcessors)
    {devices : DeviceList} {call : Processor → Call κ (List ℤ → α) σ ε}
    (hi : program.commands[i]? = some (.across devices call))
    (hcontains : devices.contains id = true) {s : κ} {access : Access}
    (hs : (s, access) ∈ (call (program.machine.processor id)).uses) :
    run.JobUse (.task id i) id s access := by
  obtain ⟨precondition, hlaunch⟩ := run.launch_task hid hi hcontains
  refine ⟨hid, _, hi, ⟨s, access, .external (.task i), precondition⟩, ?_, rfl, rfl, rfl, ?_⟩
  · rw [phase, hlaunch]
    exact .argument hs
  · rw [waits, hlaunch]

variable (hstream : program.StreamFree) (hplans : program.Reshardable)
  {name : StoreKey κ × ℕ → ℕ} (hnames : run.MatchesInOrder name)

include hstream hplans hnames

omit [Inhabited σ] in
theorem JobUse.of_source {c : ℕ} {record : CopyRecord κ (Completion ε)}
    (h : run.copyOf c = some record) :
    run.JobUse (.copy c) (record.sender program.array) record.source .read := by
  obtain ⟨hmem, -⟩ := run.copyOf_some h
  obtain ⟨hcommand, -⟩ := run.exists_plan hstream hplans hmem
  obtain ⟨hi, -⟩ := run.mem_copies_iff.mp hmem
  obtain ⟨hsender, state, copy, hlaunch, hcall, hcopy, hside⟩ :=
    run.exists_sent hstream hplans hnames h
  have hsent : copy ∈ state.forwards ++ state.sends := by
    split at hside
    · exact List.mem_append_left _ hside
    · exact List.mem_append_right _ hside
  have hwaits : GlobalSignal.ofLocal (record.sender program.array) '' copy.precondition ⊆
      run.waits (.copy c) := by
    apply run.precondition_subset_waits hsender hi
      (copy.call.keyBetween record.src record.dst) _ hcopy
    rw [hlaunch]
    exact List.mem_append_left _ (mem_sends_iff.mpr ⟨rfl, hsent⟩)
  refine ⟨hsender, _, by rw [run.phase_copy h]; exact hcommand,
    ⟨record.source, .read, copy.copy, copy.precondition⟩, ?_, rfl, rfl, by rw [hcopy]; rfl, hwaits⟩
  rw [run.phase_copy h, hlaunch, CopyRecord.source, ReshardCall.keyBetween]
  split at hside
  · rename_i hwithin
    simp only [if_pos hwithin]
    exact .forward hside
  · rename_i hwithin
    simp only [if_neg hwithin]
    exact .send hside

omit hnames [Inhabited σ] in
theorem JobUse.of_target {c : ℕ} {record : CopyRecord κ (Completion ε)}
    (h : run.copyOf c = some record) :
    run.JobUse (.copy c) record.receiver record.dst .write := by
  obtain ⟨hmem, hcopy⟩ := run.copyOf_some h
  obtain ⟨hcommand, -⟩ := run.exists_plan hstream hplans hmem
  obtain ⟨hi, hid, state, hlaunch, hissued⟩ := run.mem_copies_iff.mp hmem
  have hwaits : GlobalSignal.ofLocal record.receiver '' record.issued.precondition ⊆
      run.waits (.copy c) := by
    apply run.precondition_subset_waits hid hi
      (record.issued.call.keyBetween record.src record.dst) _ hcopy
    rw [hlaunch]
    exact List.mem_append_right _ (mem_receives_iff.mpr ⟨rfl, hissued⟩)
  refine ⟨hid, _, by rw [run.phase_copy h]; exact hcommand,
    ⟨record.dst, .write, record.issued.copy, record.issued.precondition⟩, ?_, rfl, rfl,
    by rw [hcopy]; rfl, hwaits⟩
  rw [run.phase_copy h, hlaunch]
  exact .receive hissued

theorem JobUse.of_reads {j : ReplicatedJob} {x : Element κ}
    (hx : x ∈ (run.job pieces j).reads) :
    ∃ access, run.JobUse j x.processor x.array access := by
  cases j with
  | task id i =>
      obtain ⟨hprocessor, hid, devices, call, hi, hcontains⟩ :=
        run.task_of_touches pieces (Or.inl hx)
      rw [run.job_task pieces hid hi hcontains] at hx
      obtain ⟨access, hs⟩ := Call.mem_stores_iff.mp hx.1
      rw [hprocessor]
      exact ⟨access, .of_argument run hid hi hcontains hs⟩
  | copy c =>
      obtain ⟨record, hrecord⟩ := run.copy_of_touches pieces (Or.inl hx)
      rw [run.job_copy pieces hrecord] at hx
      rw [hx.1, hx.2.1]
      exact ⟨.read, .of_source run hstream hplans hnames hrecord⟩

omit hnames in
theorem JobUse.of_writes {j : ReplicatedJob} {x : Element κ}
    (hx : x ∈ (run.job pieces j).writes) : run.JobUse j x.processor x.array .write := by
  cases j with
  | task id i =>
      obtain ⟨hprocessor, hid, devices, call, hi, hcontains⟩ :=
        run.task_of_touches pieces (Or.inr hx)
      rw [run.job_task pieces hid hi hcontains] at hx
      rw [hprocessor]
      exact .of_argument run hid hi hcontains (Call.mem_written_iff.mp hx.1)
  | copy c =>
      obtain ⟨record, hrecord⟩ := run.copy_of_touches pieces (Or.inr hx)
      rw [run.job_copy pieces hrecord] at hx
      rw [hx.1, hx.2.1]
      exact .of_target run hstream hplans hrecord

omit hnames hplans [Inhabited σ] in
/-- A job waits for those of earlier positions that it must not overtake. -/
theorem JobUse.ordered {j k : ReplicatedJob} {id : ℕ} {s : κ} {access access' : Access}
    (hj : run.JobUse j id s access) (hk : run.JobUse k id s access')
    (hphase : run.phase j < run.phase k) (hwrite : access = .write ∨ access' = .write)
    {triggered : Set (GlobalSignal ε)} (hpossible : run.Possible triggered)
    (hwaits : run.waits k ⊆ triggered) : j.completion ∈ triggered := by
  obtain ⟨hid, command, hcommand, use, huse, hstore, haccess, hsignal, -⟩ := hj
  obtain ⟨-, command', hcommand', use', huse', hstore', haccess', -, hwaits'⟩ := hk
  rw [← hsignal]
  apply run.ordered hstream hid hphase hcommand hcommand' huse huse' (hstore.trans hstore'.symm) _
    hpossible (hwaits'.trans hwaits)
  rwa [haccess, haccess']

end ReplicatedRun

end Zuku
