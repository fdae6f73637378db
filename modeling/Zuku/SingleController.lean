import Zuku.ControllerPlan

/-!
# Replicated control gives the values of a single controller

The tasks and copies that the processors launch, each on its own, give every tile
the values of the execution of one controller, in every order in which they can
run.
-/

namespace Zuku

open PhasedJobs (Serial)

variable {κ α σ ε : Type} [DecidableEq κ]

/-! ## Every schedule -/

namespace ReplicatedRun

variable [DecidableEq ε] [RealmBuild] {program : ReplicatedProgram κ α σ ε}
  (run : ReplicatedRun program)

/-- The job is a task that a processor starts or a copy that is made. -/
def Launched : ReplicatedJob → Prop
  | .task id i => id < program.machine.numProcessors ∧ ∃ devices call,
      program.commands[i]? = some (.across devices call) ∧ devices.contains id = true
  | .copy c => ∃ record, run.copyOf c = some record

/-- The tasks see what they see in the execution of the single controller, and in
the end so do the tiles. -/
structure FollowsController (values : ℕ → Element κ → α)
    (state : PhasedJobs.State ReplicatedJob (Element κ) α σ (GlobalSignal ε)) : Prop where
  locals : ∀ id < program.machine.numProcessors, ∀ (i : ℕ) devices call n l,
    program.commands[i]? = some (.across devices call) → devices.contains id = true →
    state.progress (.task id i) = some (n, l) →
    l = ((call (program.machine.processor id)).toJob.after (tilesOf (values i) id) n).1
  tiles : ∀ id < program.machine.numProcessors, ∀ (i : ℕ) devices call n l,
    program.commands[i]? = some (.across devices call) → devices.contains id = true →
    state.progress (.task id i) = some (n, l) → .task id i ∉ state.triggered →
    ∀ s ∈ (call (program.machine.processor id)).stores, tilesOf state.memory id s =
      ((call (program.machine.processor id)).toJob.after (tilesOf (values i) id) n).2 s
  final : (∀ j, run.Launched j → j.completion ∈ state.triggered) →
    state.memory = values program.commands.length

omit [DecidableEq κ] [DecidableEq ε] [RealmBuild] in
theorem completion_injective :
    Function.Injective (ReplicatedJob.completion : ReplicatedJob → GlobalSignal ε) := by
  intro j k h
  cases j <;> cases k <;> cases h <;> rfl

variable [Inhabited σ]

theorem launched_of_writes (pieces : Pieces) {j : ReplicatedJob} {x : Element κ}
    (hx : x ∈ (run.job pieces j).writes) :
    run.Launched j ∧ run.phase j < program.commands.length := by
  cases j with
  | task id i =>
      obtain ⟨-, hid, devices, call, hi, hcontains⟩ := run.task_of_touches pieces (Or.inr hx)
      exact ⟨⟨hid, devices, call, hi, hcontains⟩, (List.getElem?_eq_some_iff.mp hi).1⟩
  | copy c =>
      obtain ⟨record, hrecord⟩ := run.copy_of_touches pieces (Or.inr hx)
      refine ⟨⟨record, hrecord⟩, ?_⟩
      rw [run.phase_copy hrecord]
      exact (run.mem_copies_iff.mp (run.copyOf_some hrecord).1).1

/-- In every order in which the tasks and copies of all processors can run, the
tasks see the values of the single controller. -/
theorem controlReplicates (pieces : Pieces) (values : ℕ → Element κ → α)
    (hstream : program.StreamFree) (hplans : program.Reshardable)
    (name : StoreKey κ × ℕ → ℕ) (hnames : run.MatchesInOrder name)
    (hvalues : program.SingleController values) (triggered : Set (GlobalSignal ε))
    (hpossible : run.Possible triggered)
    (hpending : ∀ j : ReplicatedJob, j.completion ∉ triggered)
    (state : PhasedJobs.State ReplicatedJob (Element κ) α σ (GlobalSignal ε))
    (hrun : Relation.ReflTransGen
      (PhasedJobs.Step (run.job pieces) run.waits ReplicatedJob.completion run.Possible)
      ⟨values 0, fun _ ↦ none, triggered⟩ state) :
    run.FollowsController values state := by
  have hcoherent := run.plan_coherent pieces hstream hplans hnames hvalues
  have hordered : PhasedJobs.Ordered (run.plan pieces values) run.waits ReplicatedJob.completion
      run.Possible := run.plan_ordered pieces hstream hplans hnames
  have hinit : Serial (run.plan pieces values) run.waits ReplicatedJob.completion run.Possible
      ⟨values 0, fun _ ↦ none, triggered⟩ := by
    have hstart : (run.plan pieces values).values 0 = values 0 :=
      run.plan_values pieces (Nat.zero_le _)
    rw [← hstart]
    exact PhasedJobs.serial_init hpossible hpending
  have hserial := hinit.run hcoherent hordered completion_injective hrun
  constructor
  · intro id hid i devices call n l hi hcontains hprogress
    rw [hserial.locals _ n l hprogress]
    exact (run.alone_task pieces hid hi hcontains n).1
  · intro id hid i devices call n l hi hcontains hprogress hrunning s hs
    rw [← (run.alone_task pieces hid hi hcontains n).2]
    funext point
    apply hserial.memory_of_running hcoherent hordered hprogress hrunning
    change (⟨s, id, point⟩ : Element κ) ∈ (run.job pieces (.task id i)).reads
    rw [run.job_task pieces hid hi hcontains]
    exact ⟨hs, rfl⟩
  · intro hdone
    funext x
    have hlast : (run.plan pieces values).values program.commands.length =
        values program.commands.length := run.plan_values pieces le_rfl
    rw [← hlast]
    apply hserial.memory_eq_values hcoherent
    · exact fun j _ hx ↦ hdone j (run.launched_of_writes pieces hx).1
    · exact fun j hj ↦ (run.launched_of_writes pieces hj.mem_writes).2

end ReplicatedRun

/-! ## A run of a program -/

section Programs

open Checked

variable {κ α σ ε : Type} [DecidableEq κ] [DecidableEq ε] [RealmBuild]

namespace ReplicatedProgram

variable (program : ReplicatedProgram κ α σ ε) (id : ℕ)

/-- What a command comes to on a processor with these arrays. -/
def launchWith (i : ℕ) (arrays : Arrays κ (Completion ε)) :
    Exec (Launch κ (Completion ε) × Arrays κ (Completion ε)) :=
  match program.commands[i]? with
  | some command =>
      command.launch (program.machine.processor id) (program.answers id) i arrays
  | none => pure (.skipped, arrays)

/-- The arrays of a processor before a command, if none fails. -/
def arraysAt : ℕ → Arrays κ (Completion ε)
  | 0 => Arrays.init program.array (program.createEvent id)
  | i + 1 => (program.launchWith id i (arraysAt i)).toOption.elim (arraysAt i) Prod.snd

/-- What a command comes to, if none fails. -/
def launchAt (i : ℕ) : Launch κ (Completion ε) :=
  (program.launchWith id i (program.arraysAt id i)).toOption.elim .skipped Prod.fst

/-- No command fails on any processor. -/
def Succeeds : Prop :=
  ∀ id < program.machine.numProcessors, ∀ i < program.commands.length,
    (program.launchWith id i (program.arraysAt id i)).isOk = true

instance : Decidable program.Succeeds :=
  inferInstanceAs (Decidable (∀ id < program.machine.numProcessors,
    ∀ i < program.commands.length, (program.launchWith id i (program.arraysAt id i)).isOk = true))

/-- The run of a program without failures. -/
def run (h : program.Succeeds) : ReplicatedRun program where
  arrays := program.arraysAt
  launch := program.launchAt
  start _ _ := rfl
  step := by
    intro id hid i command hi
    have hok := h id hid i (List.getElem?_eq_some_iff.mp hi).1
    have hwith : program.launchWith id i (program.arraysAt id i) =
        command.launch (program.machine.processor id) (program.answers id) i
          (program.arraysAt id i) := by
      rw [launchWith, hi]
    rw [launchAt, arraysAt, ← hwith]
    cases hlaunch : program.launchWith id i (program.arraysAt id i) with
    | ok result => rfl
    | error _ =>
        rw [hlaunch] at hok
        cases hok

end ReplicatedProgram

end Programs

/-! ## Two arrays on three devices -/

section Decidability

variable {κ ε : Type} [DecidableEq κ] {name : StoreKey κ × ℕ → ℕ}
  {log : List (StoreKey κ × IssuedCall ε)}

theorem numbersCopies_iff : NumbersCopies name log ↔ ∀ n, ∀ h : n < log.length,
    log[n].2.copy = .copy (name (log[n].1, ((log.take n).map Prod.fst).count log[n].1)) := by
  constructor
  · exact fun h n hn ↦ h n _ (List.getElem?_eq_getElem hn)
  · intro h n entry hentry
    obtain ⟨hn, rfl⟩ := List.getElem?_eq_some_iff.mp hentry
    exact h n hn

instance [DecidableEq ε] : Decidable (NumbersCopies name log) :=
  decidable_of_iff _ numbersCopies_iff.symm

end Decidability

/-- The name of a copy from its key and its number. -/
def copyName : StoreKey Bool × ℕ → ℕ
  | (key, n) => Nat.pair (Nat.pair key.srcId.toNat key.dstId.toNat)
      (Nat.pair (Nat.pair key.srcShardId key.dstShardId) n)

theorem copyName_injective : Function.Injective copyName := by
  rintro ⟨⟨src, dst, s, t⟩, n⟩ ⟨⟨src', dst', s', t'⟩, n'⟩ h
  simp only [copyName, Nat.pair_eq_pair] at h
  obtain ⟨⟨hsrc, hdst⟩, ⟨rfl, rfl⟩, rfl⟩ := h
  have hinjective : ∀ a b : Bool, a.toNat = b.toNat → a = b := by decide
  rw [hinjective src src' hsrc, hinjective dst dst' hdst]

/-- A task on two devices sets the tiles of an array, which then moves to two devices
of which one is the same. -/
def handOver : ReplicatedProgram Bool ℕ ℕ ℕ where
  machine := ⟨3, fun id ↦ ⟨.gpu, id, id⟩, fun _ ↦ rfl⟩
  array
    | false => ⟨⟨[⟨4, 2, 0⟩], ⟨0, 2⟩⟩, by decide, by decide⟩
    | true => ⟨⟨[⟨4, 2, 0⟩], ⟨1, 2⟩⟩, by decide, by decide⟩
  createEvent _ _ := none
  answers id := ⟨fun n ↦ copyName (⟨false, true, id - 1 + n, id - 1 + n⟩, 0),
    fun n ↦ {.copy (copyName (⟨false, true, id - 1 + n, id - 1 + n⟩, 0))}⟩
  commands := [.across ⟨0, 2⟩ fun _ ↦
      ⟨{}, [.reference false], 0, [fun l _ ↦ (l, fun _ ↦ some fun _ ↦ 7)]⟩,
    .reshard false true]

open Classical in
/-- The tiles before every command. -/
noncomputable def handOverValues : ℕ → Element Bool → ℕ
  | 0, _ => 0
  | 1, x => if x.array = false ∧ x.processor < 2 then 7 else 0
  | _ + 2, x => if x.array = true ∧ (handOver.array true).sharding.Holds x.processor x.point
      then 7 else if x.array = false ∧ x.processor < 2 then 7 else 0

theorem handOver_singleController : handOver.SingleController handOverValues := by
  intro i command hi
  obtain _ | _ | i := i
  · obtain rfl := Option.some.inj hi
    refine ⟨fun id _ hcontains ↦ funext fun s ↦ funext fun point ↦ ?_, fun x hx ↦ if_neg ?_⟩
    · have hid : id < 2 := ((DeviceList.contains_eq_true _ _).mp hcontains).2
      cases s with
      | false => exact if_pos ⟨rfl, hid⟩
      | true => rfl
    · rintro ⟨-, hlt⟩
      apply hx
      exact ⟨hlt.trans (by decide), (DeviceList.contains_eq_true _ _).mpr ⟨Nat.zero_le _, hlt⟩⟩
  · obtain rfl := Option.some.inj hi
    refine ⟨⟨fun _ ↦ 7, fun s hs point _ ↦ ?_, fun t ht point hpoint ↦ ?_⟩, fun x hx ↦ if_neg hx⟩
    · exact if_pos ⟨rfl, (Nat.zero_add s).symm ▸ hs⟩
    · exact if_pos ⟨rfl, t, ht, rfl, hpoint⟩
  · cases hi

section

local instance handOverBuild : RealmBuild := .rankFour

theorem handOver_succeeds : handOver.Succeeds := by decide

def handOverRun : ReplicatedRun handOver := handOver.run handOver_succeeds

theorem handOver_matches : handOverRun.MatchesInOrder copyName := by
  refine ⟨copyName_injective, ?_, ?_⟩
  · decide
  · decide

theorem handOver_reshardable : handOver.Reshardable := by
  rintro src dst hmem
  rcases List.mem_cons.mp hmem with hcommand | hmem
  · cases hcommand
  cases List.mem_singleton.mp hmem
  refine ⟨by decide, _, ⟨⟨by decide, by decide, by decide, by decide, by decide,
    Or.inl (by decide)⟩, by unfold Machine.Hosts; decide, by unfold Machine.Hosts; decide,
    fun _ _ _ ↦ ⟨by decide, by decide⟩, rfl, by decide⟩⟩

theorem handOver_streamFree : handOver.StreamFree := by
  intro devices call hmem p
  rcases List.mem_cons.mp hmem with hcommand | hmem
  · obtain ⟨-, rfl⟩ := Command.across.inj hcommand
    rfl
  · cases List.mem_singleton.mp hmem

/-- Completions that can have triggered together, as far as the events of every
processor know. -/
theorem handOver_possible (done : Finset (GlobalSignal ℕ))
    (hdone : ∀ id < 3, ∀ p ∈ (handOver.arraysAt id 2).runtime.orders,
      (∀ a ∈ p.1, GlobalSignal.ofLocal id a ∈ done) →
        ∀ a ∈ p.2, GlobalSignal.ofLocal id a ∈ done) : handOverRun.Possible done := by
  intro id hid p hp hevent a ha
  exact Finset.mem_coe.mpr (hdone id hid p hp (fun b hb ↦ Finset.mem_coe.mp (hevent hb)) a ha)

theorem handOver_task_waits {id : ℕ} (hid : id < 2) : handOverRun.waits (.task id 0) = ∅ := by
  have hlaunch : handOverRun.launch id 0 = .task ∅ := by
    interval_cases id <;> rfl
  rw [ReplicatedRun.waits, hlaunch]
  simp only [Finset.coe_empty, Set.image_empty]

/-- The copy from a processor to the next one. -/
def handOverCopy (id : ℕ) : ℕ := copyName (⟨false, true, id, id⟩, 0)

/-- A copy waits for the task on the processor that it reads on. -/
theorem handOver_copy_waits {id : ℕ} (hid : id < 2) :
    handOverRun.waits (.copy (handOverCopy id)) ⊆ {.task id 0} := by
  rintro g ⟨id', hid', i, hi, entry, hentry, hcopy, a, ha, rfl⟩
  have hentries : ∀ entry ∈ (handOver.launchAt id' i).sends ++ (handOver.launchAt id' i).receives,
      entry.2.copy = .copy (handOverCopy id) →
        entry.2.precondition.image (GlobalSignal.ofLocal id') ⊆ {.task id 0} := by
    have hid' : id' < 3 := hid'
    have hi : i < 2 := hi
    interval_cases id' <;> interval_cases i <;> interval_cases id <;> decide
  exact Finset.mem_singleton.mp (hentries entry hentry hcopy (Finset.mem_image_of_mem _ ha))

/-- Two tasks and two copies are launched. -/
theorem handOver_launched {j : ReplicatedJob} (h : handOverRun.Launched j) :
    ∃ id < 2, j = .task id 0 ∨ j = .copy (handOverCopy id) := by
  cases j with
  | task id i =>
      obtain ⟨-, devices, call, hi, hcontains⟩ := h
      obtain _ | _ | i := i
      · obtain ⟨rfl, -⟩ := Command.across.inj (Option.some.inj hi)
        exact ⟨id, ((DeviceList.contains_eq_true _ _).mp hcontains).2, Or.inl rfl⟩
      · cases Option.some.inj hi
      · cases hi
  | copy c =>
      obtain ⟨record, hrecord⟩ := h
      obtain ⟨hmem, hcopy⟩ := handOverRun.copyOf_some hrecord
      have hcopies : ∀ record ∈ handOverRun.copies,
          ∃ id < 2, record.issued.copy = .copy (handOverCopy id) := by decide
      obtain ⟨id, hid, heq⟩ := hcopies record hmem
      obtain rfl := ArraySignal.copy.inj (hcopy.symm.trans heq)
      exact ⟨id, hid, Or.inr rfl⟩

def wholePieces : Pieces := ⟨fun _ ↦ [Set.univ], fun _ _ ↦ ⟨Set.univ, by simp⟩⟩

abbrev HandOverState := PhasedJobs.State ReplicatedJob (Element Bool) ℕ ℕ (GlobalSignal ℕ)

abbrev HandOverStep : HandOverState → HandOverState → Prop :=
  PhasedJobs.Step (handOverRun.job wholePieces) handOverRun.waits ReplicatedJob.completion
    handOverRun.Possible

/-- A job that waits for nothing else than what has triggered can be completed. -/
theorem handOver_complete {s : HandOverState} {j : ReplicatedJob}
    {done : Finset (GlobalSignal ℕ)} (htriggered : s.triggered = done)
    (hnone : s.progress j = none) (hwaits : handOverRun.waits j ⊆ done)
    (hpossible : handOverRun.Possible (insert j.completion done : Finset (GlobalSignal ℕ))) :
    ∃ s', Relation.ReflTransGen HandOverStep s s' ∧
      s'.triggered = (insert j.completion done : Finset (GlobalSignal ℕ)) ∧
      ∀ k ≠ j, s'.progress k = s.progress k := by
  rw [← htriggered] at hwaits
  rw [Finset.coe_insert, ← htriggered] at hpossible ⊢
  exact PhasedJobs.exists_complete hnone hwaits hpossible

/-- A schedule in which a copy runs before the task on the other device leaves the
values of the single controller. -/
theorem handOver_controlReplicates : ∃ state, Relation.ReflTransGen HandOverStep
    ⟨handOverValues 0, fun _ ↦ none, ∅⟩ state ∧
      handOverRun.FollowsController handOverValues state ∧ state.memory = handOverValues 2 := by
  obtain ⟨s₁, hrun₁, htriggered₁, hprogress₁⟩ :=
    handOver_complete (s := ⟨handOverValues 0, fun _ ↦ none, ∅⟩) (j := .task 0 0)
      Finset.coe_empty.symm rfl
      ((handOver_task_waits (show 0 < 2 by decide)).subset.trans (Set.empty_subset _))
      (handOver_possible _ (by decide))
  obtain ⟨s₂, hrun₂, htriggered₂, hprogress₂⟩ :=
    handOver_complete (j := .copy (handOverCopy 0)) htriggered₁ (hprogress₁ _ (by decide))
      ((handOver_copy_waits (by decide)).trans (by simp [ReplicatedJob.completion]))
      (handOver_possible _ (by decide))
  obtain ⟨s₃, hrun₃, htriggered₃, hprogress₃⟩ :=
    handOver_complete (j := .task 1 0) htriggered₂
      ((hprogress₂ _ (by decide)).trans (hprogress₁ _ (by decide)))
      ((handOver_task_waits (show 1 < 2 by decide)).subset.trans (Set.empty_subset _))
      (handOver_possible _ (by decide))
  obtain ⟨s₄, hrun₄, htriggered₄, -⟩ :=
    handOver_complete (j := .copy (handOverCopy 1)) htriggered₃
      ((hprogress₃ _ (by decide)).trans
        ((hprogress₂ _ (by decide)).trans (hprogress₁ _ (by decide))))
      ((handOver_copy_waits (by decide)).trans (by simp [ReplicatedJob.completion]))
      (handOver_possible _ (by decide))
  have hrun := ((hrun₁.trans hrun₂).trans hrun₃).trans hrun₄
  have hfollows : handOverRun.FollowsController handOverValues s₄ :=
    handOverRun.controlReplicates wholePieces handOverValues handOver_streamFree
      handOver_reshardable copyName handOver_matches handOver_singleController ∅
      (by simpa using handOver_possible ∅ (by decide)) (fun _ h ↦ h) s₄ hrun
  refine ⟨s₄, hrun, hfollows, hfollows.final fun j hj ↦ ?_⟩
  rw [htriggered₄]
  obtain ⟨id, hid, rfl | rfl⟩ := handOver_launched hj
  · interval_cases id <;> simp [ReplicatedJob.completion]
  · interval_cases id <;> simp [ReplicatedJob.completion]

end

end Zuku
