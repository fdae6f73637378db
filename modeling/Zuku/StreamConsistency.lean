import Zuku.StreamSchedules

/-!
# Stream-ordered tasks are sequentially consistent

A schedule of stream-ordered tasks is one of jobs that start with the first
entry that is executed and are done with the last: what is put on a stream in
between changes nothing.
-/

namespace Zuku

open DeferredJobs

variable {ε β κ ν σ : Type}

/-! ## Schedules as steps of jobs -/

/-- The progress of a task as that of a job: the event after the kernels is no
step of the job. -/
def jobProgress (call : StreamCall κ ν σ ε) (p : Progress σ) : Option (ℕ × σ) :=
  if 0 < p.executed then some (min p.executed call.body.length, p.state) else none

/-- The state of the jobs. -/
def StreamState.toState (program : List (StreamCall κ ν σ ε)) (state : StreamState κ ν σ ε) :
    State κ ν σ ℕ where
  memory := state.memory
  progress i := do
    let call ← program[i]?
    let p ← state.progress i
    jobProgress call p
  triggered := {i | Drained program state i}

section Simulation

variable {program : List (StreamCall κ ν σ ε)} {state : StreamState κ ν σ ε} {t : ℕ}
  {call : StreamCall κ ν σ ε} {p p' : Progress σ}

theorem toState_progress_update (hcall : program[t]? = some call) (memory : κ → ν)
    (queues : ℕ → List ℕ) :
    (StreamState.toState program { state with
      memory := memory
      progress := Function.update state.progress t (some p')
      queues := queues }).progress =
      Function.update (state.toState program).progress t (jobProgress call p') := by
  funext i
  by_cases heq : i = t
  · subst heq
    simp [StreamState.toState, hcall]
  · simp [StreamState.toState, heq]

theorem toState_progress (hcall : program[t]? = some call) (hp : state.progress t = some p) :
    (state.toState program).progress t = jobProgress call p := by
  simp [StreamState.toState, hcall, hp]

theorem drained_update (hcall : program[t]? = some call) (memory : κ → ν)
    (queues : ℕ → List ℕ) (i : ℕ) :
    Drained program { state with
      memory := memory
      progress := Function.update state.progress t (some p')
      queues := queues } i ↔
      (i = t ∧ p'.executed = call.entries) ∨ (i ≠ t ∧ Drained program state i) := by
  by_cases heq : i = t
  · subst heq
    simp [Drained, hcall]
  · simp [Drained, heq]

/-- A step that executes nothing is no step of the jobs. -/
theorem toState_update_of_executed (p' : Progress σ) (queues : ℕ → List ℕ)
    (hcall : program[t]? = some call)
    (hprogress : (state.toState program).progress t = jobProgress call p')
    (hdrained : Drained program state t ↔ p'.executed = call.entries) :
    StreamState.toState program { state with
      progress := Function.update state.progress t (some p')
      queues := queues } = state.toState program := by
  have hsame : (StreamState.toState program { state with
      progress := Function.update state.progress t (some p')
      queues := queues }).progress = (state.toState program).progress := by
    rw [toState_progress_update hcall state.memory queues, ← hprogress, Function.update_eq_self]
  have htriggered : {i | Drained program { state with
      progress := Function.update state.progress t (some p')
      queues := queues } i} = {i | Drained program state i} := by
    ext i
    refine (drained_update hcall state.memory queues i).trans ?_
    by_cases heq : i = t
    · subst heq
      simp [hdrained]
    · simp [heq]
  exact congrArg₂ (State.mk state.memory) hsame htriggered

theorem steps_done (hcall : program[t]? = some call) (hp : state.progress t = some p) :
    ((state.toState program).progress t).elim 0 Prod.fst = min p.executed call.body.length := by
  rw [toState_progress hcall hp, jobProgress]
  split
  · rfl
  · rename_i hzero
    rw [Nat.eq_zero_of_not_pos hzero, Nat.zero_min]
    rfl

theorem begun_of_progress (h : (state.toState program).progress t ≠ none) : Begun state t := by
  obtain ⟨progress, hprogress⟩ := Option.ne_none_iff_exists'.mp h
  simp only [StreamState.toState, Option.bind_eq_bind, Option.bind_eq_some_iff] at hprogress
  obtain ⟨call, -, p, hp, hjob⟩ := hprogress
  rw [jobProgress] at hjob
  split at hjob
  · exact ⟨p, hp, ‹_›⟩
  · cases hjob

variable [DecidableEq κ] [Inhabited σ]

/-- A job waits for all jobs before it with which it conflicts. -/
def jobWaits (program : List (StreamCall κ ν σ ε)) (j : ℕ) : Set ℕ :=
  {i | i < j ∧ Conflict (programJobs (toCalls program) i) (programJobs (toCalls program) j)}

theorem programJobs_toCalls (hcall : program[t]? = some call) :
    programJobs (toCalls program) t = (call.toCall t).toJob :=
  programJobs_of_getElem? (getElem?_toCalls hcall)

/-- Before its first entry a task is started as a job. -/
theorem steps_begin (hcall : program[t]? = some call) (hp : state.progress t = some p)
    (hlt : p.executed < call.entries) (hinitial : p.executed = 0 → p.state = call.init)
    (hwaits : jobWaits program t ⊆ {i | Drained program state i}) :
    Relation.ReflTransGen (Step (programJobs (toCalls program)) (jobWaits program) id)
      (state.toState program) { state.toState program with
        progress := Function.update (state.toState program).progress t
          (some (p.executed, p.state)) } := by
  have hprogress := toState_progress hcall hp
  by_cases hzero : p.executed = 0
  · have hnone : (state.toState program).progress t = none := by
      rw [hprogress, jobProgress, hzero]
      rfl
    have hinit : (programJobs (toCalls program) t).init = p.state := by
      rw [programJobs_toCalls hcall, hinitial hzero]
      rfl
    have hstart : Step (programJobs (toCalls program)) (jobWaits program) id
        (state.toState program) _ := Step.start hnone hwaits
    rw [hinit] at hstart
    rw [hzero]
    exact .single hstart
  · have hsome : (state.toState program).progress t = some (p.executed, p.state) := by
      rw [hprogress, jobProgress, if_pos (Nat.pos_of_ne_zero hzero),
        Nat.min_eq_left (Nat.le_of_lt_succ hlt)]
    rw [← hsome, Function.update_eq_self]

/-- The next entry of a task is the next step of its job, or its end. -/
theorem steps_perform (p' : Progress σ) (queues : ℕ → List ℕ)
    (hcall : program[t]? = some call) (hp : state.progress t = some p)
    (hlt : p.executed < call.entries) (hinitial : p.executed = 0 → p.state = call.init)
    (hwaits : jobWaits program t ⊆ {i | Drained program state i})
    (hexecuted : p'.executed = p.executed) (hstate : p'.state = p.state) :
    Relation.ReflTransGen (Step (programJobs (toCalls program)) (jobWaits program) id)
      (state.toState program)
      (StreamState.toState program (StreamState.perform (call.toCall t) t p'
        { state with queues := queues })) := by
  refine (steps_begin hcall hp hlt hinitial hwaits).tail ?_
  have hnot : ¬Drained program state t := by
    rintro ⟨call', q, hcall', hq, hdone⟩
    obtain rfl : call = call' := Option.some.inj (hcall.symm.trans hcall')
    obtain rfl : p = q := Option.some.inj (hp.symm.trans hq)
    exact hlt.ne hdone
  rw [StreamState.perform, hexecuted, hstate]
  have hbegun : ({ state.toState program with
      progress := Function.update (state.toState program).progress t
        (some (p.executed, p.state)) } : State κ ν σ ℕ).progress t =
        some (p.executed, p.state) := Function.update_self ..
  cases hf : (call.toCall t).body[p.executed]? with
  | some f =>
      have hstep : (programJobs (toCalls program) t).steps[p.executed]? =
          some ((call.toCall t).runStep f) := by
        rw [programJobs_toCalls hcall]
        exact (List.getElem?_map ..).trans (congrArg _ hf)
      have hbody : p.executed < call.body.length := (List.getElem?_eq_some_iff.mp hf).1
      have hadvance : Step (programJobs (toCalls program)) (jobWaits program) id _ _ :=
        Step.advance hbegun hstep
      convert hadvance using 1
      refine congrArg₂ (State.mk _) ?_ ?_
      · rw [Function.update_idem]
        refine (toState_progress_update hcall _ queues).trans ?_
        rw [jobProgress, if_pos (Nat.succ_pos _), Nat.min_eq_left hbody]
        rfl
      · ext i
        refine (drained_update hcall _ queues i).trans ?_
        by_cases heq : i = t
        · subst heq
          simp only [ne_eq, not_true_eq_false, false_and, or_false, true_and]
          exact iff_of_false (fun hdone ↦ by rw [StreamCall.entries] at hdone; omega) hnot
        · exact (or_iff_right fun hi ↦ heq hi.1).trans (and_iff_right heq)
  | none =>
      have hlength : p.executed = call.body.length :=
        Nat.le_antisymm (Nat.le_of_lt_succ hlt) (List.getElem?_eq_none_iff.mp hf)
      have hsteps : (programJobs (toCalls program) t).steps.length = p.executed := by
        rw [programJobs_toCalls hcall, hlength]
        exact List.length_map ..
      rw [← hsteps] at hbegun
      have hfinish : Step (programJobs (toCalls program)) (jobWaits program) id _ _ :=
        Step.finish hbegun
      rw [hsteps] at hfinish
      convert hfinish using 1
      refine congrArg₂ (State.mk _) ?_ ?_
      · refine (toState_progress_update hcall _ queues).trans ?_
        rw [jobProgress, if_pos (Nat.succ_pos _), Nat.min_eq_right (by simp [hlength]), hlength]
        rfl
      · ext i
        refine (drained_update hcall _ queues i).trans ?_
        by_cases heq : i = t
        · subst heq
          simp [StreamCall.entries, hlength]
        · have hinsert : i ∈ insert (id t) (state.toState program).triggered ↔
              Drained program state i := Set.mem_insert_iff.trans (or_iff_right heq)
          refine Iff.trans ?_ hinsert.symm
          exact (or_iff_right fun hi ↦ heq hi.1).trans (and_iff_right heq)

end Simulation

section Runs

variable {program : List (StreamCall κ ν σ ε)}
  {preconditions : List (Event (Completion (Released ε)))} {state state' : StreamState κ ν σ ε}
  [DecidableEq κ] [Inhabited σ]

/-- All that a task conflicts with before it has been executed once the tasks
that it follows have. -/
theorem StreamInv.jobWaits_subset (h : StreamInv program preconditions state)
    (horder : ∀ j, ∀ i ∈ jobWaits program j, Relation.TransGen (Follows program preconditions) i j)
    {t : ℕ} (hfollows : ∀ k, Follows program preconditions k t → Drained program state k) :
    jobWaits program t ⊆ {i | Drained program state i} :=
  fun i hi ↦ h.drained_of_transGen (horder t i hi) hfollows

theorem steps_of_step [DecidableEq ε] (h : StreamInv program preconditions state)
    (hsame : SameStream program)
    (horder : ∀ j, ∀ i ∈ jobWaits program j, Relation.TransGen (Follows program preconditions) i j)
    {action : StreamAction ε} (hstep : state.step program preconditions action = some state') :
    Relation.ReflTransGen (Step (programJobs (toCalls program)) (jobWaits program) id)
      (state.toState program) (state'.toState program) := by
  cases action with
  | start task =>
      obtain ⟨call, precondition, hcall, -, hnone, -, rfl⟩ := StreamState.start_cases hstep
      have hprogress : (state.toState program).progress task =
          jobProgress call { state := call.init } := by
        simp [StreamState.toState, hcall, hnone, jobProgress]
      have hdrained : Drained program state task ↔
          ({ state := call.init } : Progress σ).executed = call.entries := by
        simp [Drained, hnone, StreamCall.entries]
      exact (toState_update_of_executed _ state.queues hcall hprogress hdrained).symm ▸ .refl
  | launch task =>
      obtain ⟨call, p, hcall, hp, hopen, ⟨stream, -, rfl⟩ | ⟨hdirect, rfl⟩⟩ :=
        StreamState.launch_cases hstep
      · have hprogress := toState_progress hcall hp
        have hdrained : Drained program state task ↔ p.executed = call.entries := by
          simp [Drained, hcall, hp]
        exact (toState_update_of_executed { p with launched := p.launched + 1 } _ hcall hprogress
          hdrained).symm ▸ .refl
      · have hlt := (h.executed_le hcall hp).trans_lt hopen
        exact steps_perform { p with launched := p.launched + 1 } state.queues hcall hp hlt
          (h.initial task call p hcall hp)
          (h.jobWaits_subset horder fun k ↦ h.drained_of_direct hsame hcall hp hdirect) rfl rfl
  | execute stream =>
      obtain ⟨task, queue, call, p, hqueue, hcall, hp, rfl⟩ := StreamState.execute_cases hstep
      have hlt : p.executed < call.entries := by
        obtain ⟨call', -, hcall', hdispatch, -⟩ :=
          h.queue_mem stream task (hqueue ▸ List.mem_cons_self)
        obtain rfl : call = call' := Option.some.inj (hcall.symm.trans hcall')
        have hpending := h.launched_eq task call p hcall hp
        simp only [hdispatch, queued, hqueue, List.count_cons_self] at hpending
        exact lt_of_lt_of_le (by omega) (h.launched_le task call p hcall hp)
      exact steps_perform p _ hcall hp hlt (h.initial task call p hcall hp)
        (h.jobWaits_subset horder fun k ↦ h.drained_of_first hsame hqueue) rfl rfl
  | returnControl task =>
      obtain ⟨call, p, -, -, -, rfl⟩ := StreamState.returnControl_cases hstep
      exact .refl
  | finish task =>
      obtain ⟨-, rfl⟩ := StreamState.finish_cases hstep
      exact .refl
  | outside e =>
      obtain rfl := Option.some.inj hstep
      exact .refl

theorem steps_of_run [DecidableEq ε] (h : StreamInv program preconditions state)
    (hsame : SameStream program)
    (horder : ∀ j, ∀ i ∈ jobWaits program j, Relation.TransGen (Follows program preconditions) i j)
    {actions : List (StreamAction ε)}
    (hrun : state.run program preconditions actions = some state') :
    StreamInv program preconditions state' ∧
      Relation.ReflTransGen (Step (programJobs (toCalls program)) (jobWaits program) id)
        (state.toState program) (state'.toState program) := by
  induction actions generalizing state with
  | nil =>
      obtain rfl := Option.some.inj hrun
      exact ⟨h, .refl⟩
  | cons action actions ih =>
      rw [StreamState.run, Option.bind_eq_bind, Option.bind_eq_some_iff] at hrun
      obtain ⟨next, hstep, hrun⟩ := hrun
      obtain ⟨hinv, hsteps⟩ := ih (h.step hsame hstep) hrun
      exact ⟨hinv, (steps_of_step h hsame horder hstep).trans hsteps⟩

end Runs

/-! ## Sequential consistency -/

section Consistency

variable [DecidableEq κ] [Inhabited σ]

/-- In this state the entries of conflicting tasks have been executed in program
order, and every task has seen what it sees when the tasks run one by one. -/
structure StreamConsistent (program : List (StreamCall κ ν σ ε)) (memory : κ → ν)
    (state : StreamState κ ν σ ε) : Prop where
  program_order : ∀ (i j : ℕ) (a b : StreamCall κ ν σ ε), i < j → program[i]? = some a →
    program[j]? = some b → (a.toCall i).Conflicts (b.toCall j) → Begun state j →
    Drained program state i
  locals : ∀ (i : ℕ) call p, program[i]? = some call → state.progress i = some p →
    p.state = (sequentialState (toCalls program) memory i p.executed).1
  /-- The next entry finds the stores as in the sequential program. -/
  values : ∀ (i : ℕ) call p, program[i]? = some call → state.progress i = some p →
    p.executed < call.entries →
    (∀ stream, call.dispatch = .gpuStream stream → (state.queues stream).head? = some i) →
    ∀ s ∈ (call.toCall i).stores,
      state.memory s = (sequentialState (toCalls program) memory i p.executed).2 s
  final : (∀ i < program.length, .task i ∈ state.triggered) →
    state.memory = valuesBefore (toCalls program) memory program.length

variable {program : List (StreamCall κ ν σ ε)} {memory : κ → ν}

/-- The event after the kernels of a task changes nothing in the sequential
program. -/
theorem sequentialState_min {i n : ℕ} {call : StreamCall κ ν σ ε} (hi : program[i]? = some call)
    (hn : n ≤ call.entries) :
    sequentialState (toCalls program) memory i (min n call.body.length) =
      sequentialState (toCalls program) memory i n := by
  rcases Nat.le_or_eq_of_le_succ hn with hle | rfl
  · rw [Nat.min_eq_left hle]
  · have hnone : (programJobs (toCalls program) i).steps[call.body.length]? = none := by
      rw [programJobs_toCalls hi]
      exact List.getElem?_eq_none (List.length_map ..).le
    rw [Nat.min_eq_right (Nat.le_succ _), sequentialState, sequentialState, sequential, sequential,
      Job.after, hnone]

theorem mem_jobWaits_iff {i j : ℕ} {a b : StreamCall κ ν σ ε} (hi : program[i]? = some a)
    (hj : program[j]? = some b) :
    i ∈ jobWaits program j ↔ i < j ∧ (a.toCall i).Conflicts (b.toCall j) := by
  rw [jobWaits, Set.mem_ofPred_eq, programJobs_toCalls hi, programJobs_toCalls hj]
  rfl

variable [DecidableEq ε]

/-- Every schedule of deferred tasks over distinct stores, some of them
stream-ordered, is sequentially consistent if those that conflict use one
stream. -/
theorem run_streamConsistent (stores : κ → Store (Completion (Released ε)) β)
    (program : List (StreamCall κ ν σ ε)) (hnodup : ∀ call ∈ toCalls program, call.stores.Nodup)
    (hsame : SameStream program) (memory : κ → ν) (actions : List (StreamAction ε))
    {state : StreamState κ ν σ ε}
    (hrun : StreamState.run program (deferAll ⟨stores, []⟩ (toCalls program)).preconditions
      { memory := memory } actions = some state) :
    StreamConsistent program memory state := by
  have htracked := streamTracked_deferAll stores program hnodup
  generalize (deferAll ⟨stores, []⟩ (toCalls program)) = deferred at htracked hrun
  have horder (j i : ℕ) (hi : i ∈ jobWaits program j) :
      Relation.TransGen (Follows program deferred.preconditions) i j := by
    obtain ⟨hij, hconflict⟩ := hi
    obtain ⟨a, b, ha, hb, hcalls⟩ := exists_of_conflict hconflict
    obtain ⟨call, hi, rfl⟩ := exists_of_getElem?_toCalls ha
    obtain ⟨call', hj, rfl⟩ := exists_of_getElem?_toCalls hb
    exact htracked.ordered i j call call' hij hi hj hcalls
  obtain ⟨hinv, hsteps⟩ := steps_of_run (streamInv_init memory) hsame horder hrun
  have hinit : Serial (programJobs (toCalls program)) (jobWaits program) id memory
      (StreamState.toState program { memory := memory }) := by
    have hidle : StreamState.toState program { memory := memory } =
        ⟨memory, fun _ ↦ none, ∅⟩ := by
      simp [StreamState.toState, Drained]
    rw [hidle]
    exact serial_init fun i ↦ Set.notMem_empty i
  have hserial := hinit.run Function.injective_id
    (fun i j hij hconflict ↦ Relation.TransGen.single ⟨hij, hconflict⟩) hsteps
  have hbegun (i j : ℕ) (hi : i ∈ jobWaits program j) (hj : Begun state j) :
      Drained program state i :=
    hinv.drained_of_transGen (horder j i hi) fun k hk ↦ hinv.drained k j hk hj
  refine ⟨?_, ?_, ?_, ?_⟩
  · intro i j a b hij hi hj hconflict hstarted
    exact hbegun i j ((mem_jobWaits_iff hi hj).mpr ⟨hij, hconflict⟩) hstarted
  · intro i call p hcall hp
    have hexecuted := (hinv.executed_le hcall hp).trans (hinv.launched_le i call p hcall hp)
    rw [← sequentialState_min hcall hexecuted]
    by_cases hzero : p.executed = 0
    · rw [hinv.initial i call p hcall hp hzero, hzero, Nat.zero_min, sequentialState, sequential,
        Job.after_zero, programJobs_toCalls hcall]
      rfl
    · apply hserial.locals i
      rw [toState_progress hcall hp, jobProgress, if_pos (Nat.pos_of_ne_zero hzero)]
  · intro i call p hcall hp hopen hfirst s hs
    have hnot : ¬Drained program state i := by
      rintro ⟨call', q, hcall', hq, hdone⟩
      obtain rfl : call = call' := Option.some.inj (hcall.symm.trans hcall')
      obtain rfl : p = q := Option.some.inj (hp.symm.trans hq)
      exact hopen.ne hdone
    have huses : s ∈ (programJobs (toCalls program) i).uses := by
      rw [programJobs_toCalls hcall]
      exact hs
    have hexecuted := hopen.le
    rw [← sequentialState_min hcall hexecuted, ← steps_done hcall hp]
    apply hserial.memory i s
    · intro k hk hwrites
      have hwaits : k ∈ jobWaits program i := ⟨hk, s, Or.inl ⟨hwrites, huses⟩⟩
      refine hinv.jobWaits_subset horder (fun j hj ↦ ?_) hwaits
      by_cases hdirect : ∀ stream, call.dispatch ≠ .gpuStream stream
      · exact hinv.drained_of_direct hsame hcall hp hdirect hj
      · push Not at hdirect
        obtain ⟨stream, hdispatch⟩ := hdirect
        obtain ⟨queue, hqueue⟩ := List.head?_eq_some_iff.mp (hfirst stream hdispatch)
        exact hinv.drained_of_first hsame hqueue hj
    · intro k hk hwrites
      by_contra hstarted
      have hwaits : i ∈ jobWaits program k := ⟨hk, s, Or.inr ⟨huses, hwrites⟩⟩
      exact hnot (hbegun i k hwaits (begun_of_progress hstarted))
  · intro hdone
    apply hserial.memory_of_done fun i hi ↦ hinv.finished i (hdone i hi)
    intro i hi
    rw [programJobs_of_le (by simpa [toCalls] using hi)]
    rfl

end Consistency

/-- A program in which all stream-ordered tasks use one stream. -/
theorem sameStream_of_forall {program : List (StreamCall κ ν σ ε)} (stream : ℕ)
    (h : ∀ call ∈ program, call.dispatch.streamOrdered = true → call.dispatch = .gpuStream stream) :
    SameStream program := by
  intro i j a b stream' _ hi hj _ ha hb
  have hordered : a.dispatch.streamOrdered = true := by
    rw [ha]
    rfl
  have hstream := h a (List.mem_of_getElem? hi) hordered
  rw [h b (List.mem_of_getElem? hj) hb, ← hstream, ha]

/-- Store 0 is set to 7 and store 1 to one more than store 0, both on streams,
and then store 0 to 9. -/
def streamProgram (stream : ℕ) : List (StreamCall ℕ ℕ ℕ ℕ) :=
  [⟨none, .gpuStream 0, [.reference 0], 0, [fun l _ ↦ (l, fun _ ↦ some 7)]⟩,
    ⟨none, .gpuStream stream, [.constReference 0, .reference 1], 0,
      [fun _ seen ↦ ((seen 0).getD 0, fun _ ↦ none), fun l _ ↦ (l, fun _ ↦ some (l + 1))]⟩,
    ⟨none, .plain, [.reference 0], 0, [fun l _ ↦ (l, fun _ ↦ some 9)]⟩]

/-- The second task starts before the first kernel is executed. -/
def streamActions : List (StreamAction ℕ) :=
  [.start 0, .launch 0, .launch 0, .returnControl 0, .start 1, .launch 1, .launch 1, .launch 1,
    .returnControl 1, .execute 0, .execute 0, .finish 0, .execute 0, .execute 0, .execute 0,
    .finish 1, .start 2, .launch 2, .launch 2, .finish 2]

theorem run_streamProgram_streamConsistent :
    ∃ state, StreamState.run (streamProgram 0)
        (deferAll ⟨fun _ ↦ Store.create (), []⟩ (toCalls (streamProgram 0))).preconditions
        { memory := fun _ ↦ 0 } streamActions = some state ∧
      StreamConsistent (streamProgram 0) (fun _ ↦ 0) state := by
  have hsome : (StreamState.run (streamProgram 0)
      (deferAll ⟨fun _ ↦ Store.create (), []⟩ (toCalls (streamProgram 0))).preconditions
      { memory := fun _ ↦ 0 } streamActions).isSome := by decide
  obtain ⟨state, hrun⟩ := Option.isSome_iff_exists.mp hsome
  exact ⟨state, hrun, run_streamConsistent (fun _ ↦ Store.create ()) (streamProgram 0) (by decide)
    (sameStream_of_forall 0 (by decide)) (fun _ ↦ 0) streamActions hrun⟩

/-- On two streams the kernels of the second task do not wait for the first. -/
theorem not_streamConsistent_twoStreams :
    ∃ state, StreamState.run (streamProgram 1)
        (deferAll ⟨fun _ ↦ Store.create (), []⟩ (toCalls (streamProgram 1))).preconditions
        { memory := fun _ ↦ 0 } [.start 0, .launch 0, .launch 0, .returnControl 0, .start 1,
          .launch 1, .execute 1] = some state ∧
      ¬StreamConsistent (streamProgram 1) (fun _ ↦ 0) state := by
  have hsome : (StreamState.run (streamProgram 1)
      (deferAll ⟨fun _ ↦ Store.create (), []⟩ (toCalls (streamProgram 1))).preconditions
      { memory := fun _ ↦ 0 } [.start 0, .launch 0, .launch 0, .returnControl 0, .start 1,
        .launch 1, .execute 1]).isSome := by decide
  refine ⟨_, (Option.some_get hsome).symm, fun hconsistent ↦ ?_⟩
  obtain ⟨call, p, hcall, hp, hdone⟩ := hconsistent.program_order 0 1 _ _ Nat.zero_lt_one rfl rfl
    ⟨0, Or.inl ⟨by decide, by decide⟩⟩ ⟨_, rfl, Nat.zero_lt_one⟩
  obtain rfl := Option.some.inj hcall
  obtain rfl := Option.some.inj hp
  exact absurd hdone (by decide)

end Zuku
