import Zuku.StreamOrder

/-!
# Schedules of stream-ordered tasks

A stream-ordered task may start before the work of an earlier one is done.  If
both use the same stream, their work still runs in program order, since what
they put on the stream is executed in order.
-/

namespace Zuku

open Event

variable {ε β κ ν σ : Type}

/-- A stream-ordered task that conflicts with an earlier one on the stream of a
device uses the same stream. -/
def SameStream (program : List (StreamCall κ ν σ ε)) : Prop :=
  ∀ (i j : ℕ) (a b : StreamCall κ ν σ ε) (stream : ℕ), i < j → program[i]? = some a →
    program[j]? = some b → (a.toCall i).Conflicts (b.toCall j) →
    a.dispatch = .gpuStream stream → b.dispatch.streamOrdered = true →
    b.dispatch = .gpuStream stream

/-- An entry of the task has been executed. -/
def Begun (state : StreamState κ ν σ ε) (task : ℕ) : Prop :=
  ∃ p, state.progress task = some p ∧ 0 < p.executed

/-- All entries of the task have been executed. -/
def Drained (program : List (StreamCall κ ν σ ε)) (state : StreamState κ ν σ ε) (task : ℕ) :
    Prop :=
  ∃ call p, program[task]? = some call ∧ state.progress task = some p ∧
    p.executed = call.entries

theorem Drained.begun {program : List (StreamCall κ ν σ ε)} {state : StreamState κ ν σ ε}
    {task : ℕ} (h : Drained program state task) : Begun state task := by
  obtain ⟨call, p, -, hp, hexecuted⟩ := h
  exact ⟨p, hp, hexecuted ▸ Nat.succ_pos _⟩

/-- The number of entries of a task on its stream. -/
def queued (queues : ℕ → List ℕ) (dispatch : Dispatch) (task : ℕ) : ℕ :=
  match dispatch with
  | .gpuStream stream => (queues stream).count task
  | _ => 0

/-! ## The invariant -/

/-- What holds between two steps of a schedule. -/
structure StreamInv (program : List (StreamCall κ ν σ ε))
    (preconditions : List (Event (Completion (Released ε)))) (state : StreamState κ ν σ ε) :
    Prop where
  ready : ∀ i p, state.progress i = some p → ∀ c ∈ Waits preconditions i, c ∈ state.triggered
  control : ∀ i, .external (.control i) ∈ state.triggered → ∃ call p, program[i]? = some call ∧
    state.progress i = some p ∧ p.launched = call.entries
  finished : ∀ i, .task i ∈ state.triggered → Drained program state i
  launched_le : ∀ (i : ℕ) call p, program[i]? = some call → state.progress i = some p →
    p.launched ≤ call.entries
  launched_eq : ∀ (i : ℕ) call p, program[i]? = some call → state.progress i = some p →
    p.launched = p.executed + queued state.queues call.dispatch i
  initial : ∀ (i : ℕ) call p, program[i]? = some call → state.progress i = some p →
    p.executed = 0 → p.state = call.init
  queue_mem : ∀ stream, ∀ i ∈ state.queues stream, ∃ call p, program[i]? = some call ∧
    call.dispatch = .gpuStream stream ∧ state.progress i = some p
  /-- No task is on a stream before one that it follows. -/
  queue_order : ∀ stream, (state.queues stream).Pairwise fun i j ↦
    ¬Follows program preconditions j i
  drained : ∀ i j, Follows program preconditions i j → Begun state j → Drained program state i

section Invariant

variable {program : List (StreamCall κ ν σ ε)}
  {preconditions : List (Event (Completion (Released ε)))} {state : StreamState κ ν σ ε}

theorem streamInv_init (memory : κ → ν) :
    StreamInv program preconditions ({ memory := memory } : StreamState κ ν σ ε) where
  ready i p hp := absurd hp (by simp)
  control i hi := absurd hi (Finset.notMem_empty _)
  finished i hi := absurd hi (Finset.notMem_empty _)
  launched_le i call p _ hp := absurd hp (by simp)
  launched_eq i call p _ hp := absurd hp (by simp)
  initial i call p _ hp := absurd hp (by simp)
  queue_mem stream i hi := absurd hi List.not_mem_nil
  queue_order stream := List.Pairwise.nil
  drained i j _ := by
    rintro ⟨p, hp, -⟩
    exact absurd hp (by simp)

/-- A task that has started and stands first on its stream finds the tasks that
it follows drained. -/
theorem StreamInv.drained_of_follows (h : StreamInv program preconditions state)
    (hsame : SameStream program) {i j : ℕ} (hfollows : Follows program preconditions i j)
    {b : StreamCall κ ν σ ε} {p : Progress σ} (hj : program[j]? = some b)
    (hp : state.progress j = some p)
    (hfirst : ∀ stream, b.dispatch = .gpuStream stream → i ∉ state.queues stream) :
    Drained program state i := by
  obtain ⟨hij, a, b', hi, hj', hconflict, hwaits⟩ := hfollows
  obtain rfl : b = b' := Option.some.inj (hj.symm.trans hj')
  have htriggered := h.ready j p hp _ hwaits
  rw [StreamCall.signal] at htriggered
  split at htriggered
  · rename_i hordered
    obtain ⟨hb, ha⟩ := (Bool.and_eq_true _ _).mp hordered
    obtain ⟨a', q, hi', hq, hlaunched⟩ := h.control i htriggered
    obtain rfl : a = a' := Option.some.inj (hi.symm.trans hi')
    refine ⟨a, q, hi, hq, ?_⟩
    have hpending := h.launched_eq i a q hi hq
    have hnone : queued state.queues a.dispatch i = 0 := by
      cases hdispatch : a.dispatch with
      | plain => rfl
      | cpuStream => rfl
      | gpuStream stream =>
          have hstream := hsame i j a b stream hij hi hj hconflict hdispatch hb
          exact List.count_eq_zero.mpr (hfirst stream hstream)
    rw [← hlaunched, hpending, hnone, Nat.add_zero]
  · exact h.finished i htriggered

/-- One more entry of a task is launched or executed. -/
theorem StreamInv.update (h : StreamInv program preconditions state) {t : ℕ}
    {call : StreamCall κ ν σ ε} {p : Progress σ} (p' : Progress σ) (queues : ℕ → List ℕ)
    (memory : κ → ν) (hcall : program[t]? = some call) (hp : state.progress t = some p)
    (hexecuted : p.executed ≤ p'.executed) (hlaunched : p.launched ≤ p'.launched)
    (hbound : p'.launched ≤ call.entries)
    (hpending : p'.launched = p'.executed + queued queues call.dispatch t)
    (hinitial : p'.executed = 0 → p'.state = call.init)
    (hcount : ∀ stream i, i ≠ t → (queues stream).count i = (state.queues stream).count i)
    (hmem : ∀ stream, t ∈ queues stream → call.dispatch = .gpuStream stream)
    (horder : ∀ stream, (queues stream).Pairwise fun i j ↦ ¬Follows program preconditions j i)
    (hdrained : p'.executed = 0 ∨ ∀ i, Follows program preconditions i t →
      Drained program state i) :
    StreamInv program preconditions { state with
      memory := memory
      progress := Function.update state.progress t (some p')
      queues := queues } := by
  have hmono {i : ℕ} (hi : Drained program state i) : Drained program { state with
      memory := memory
      progress := Function.update state.progress t (some p')
      queues := queues } i := by
    obtain ⟨call', q, hcall', hq, hdone⟩ := hi
    by_cases heq : i = t
    · subst heq
      obtain rfl : call = call' := Option.some.inj (hcall.symm.trans hcall')
      obtain rfl : p = q := Option.some.inj (hp.symm.trans hq)
      exact ⟨call, p', hcall, Function.update_self .., by omega⟩
    · exact ⟨call', q, hcall', by rw [← hq]; exact Function.update_of_ne heq .., hdone⟩
  constructor
  · intro i q hq
    by_cases heq : i = t
    · exact heq ▸ h.ready t p hp
    · exact h.ready i q (by simpa [heq] using hq)
  · intro i hi
    obtain ⟨call', q, hcall', hq, hall⟩ := h.control i hi
    by_cases heq : i = t
    · subst heq
      obtain rfl : call = call' := Option.some.inj (hcall.symm.trans hcall')
      obtain rfl : p = q := Option.some.inj (hp.symm.trans hq)
      exact ⟨call, p', hcall, Function.update_self .., by omega⟩
    · exact ⟨call', q, hcall', by simpa [heq] using hq, hall⟩
  · exact fun i hi ↦ hmono (h.finished i hi)
  · intro i call' q hcall' hq
    by_cases heq : i = t
    · subst heq
      obtain rfl : call = call' := Option.some.inj (hcall.symm.trans hcall')
      obtain rfl : p' = q := by simpa using hq
      exact hbound
    · exact h.launched_le i call' q hcall' (by simpa [heq] using hq)
  · intro i call' q hcall' hq
    by_cases heq : i = t
    · subst heq
      obtain rfl : call = call' := Option.some.inj (hcall.symm.trans hcall')
      obtain rfl : p' = q := by simpa using hq
      exact hpending
    · have hsame : queued queues call'.dispatch i = queued state.queues call'.dispatch i := by
        cases call'.dispatch with
        | gpuStream stream => exact hcount stream i heq
        | _ => rfl
      rw [hsame]
      exact h.launched_eq i call' q hcall' (by simpa [heq] using hq)
  · intro i call' q hcall' hq
    by_cases heq : i = t
    · subst heq
      obtain rfl : call = call' := Option.some.inj (hcall.symm.trans hcall')
      obtain rfl : p' = q := by simpa using hq
      exact hinitial
    · exact h.initial i call' q hcall' (by simpa [heq] using hq)
  · intro stream i hi
    by_cases heq : i = t
    · subst heq
      exact ⟨call, p', hcall, hmem stream hi, Function.update_self ..⟩
    · have hold : i ∈ state.queues stream := by
        rw [← List.count_pos_iff, ← hcount stream i heq]
        exact List.count_pos_iff.mpr hi
      obtain ⟨call', q, hcall', hdispatch, hq⟩ := h.queue_mem stream i hold
      exact ⟨call', q, hcall', hdispatch, by simpa [heq] using hq⟩
  · exact horder
  · rintro i j hfollows ⟨q, hq, hpos⟩
    apply hmono
    by_cases heq : j = t
    · subst heq
      obtain rfl : p' = q := by simpa using hq
      exact hdrained.resolve_left hpos.ne' i hfollows
    · exact h.drained i j hfollows ⟨q, by simpa [heq] using hq, hpos⟩

variable [DecidableEq ε]

/-- A completion triggers. -/
theorem StreamInv.trigger (h : StreamInv program preconditions state)
    {c : Completion (Released ε)}
    (hcontrol : ∀ i, c = .external (.control i) → ∃ call p, program[i]? = some call ∧
      state.progress i = some p ∧ p.launched = call.entries)
    (hfinished : ∀ i, c = .task i → Drained program state i) :
    StreamInv program preconditions { state with triggered := insert c state.triggered } where
  ready i p hp c' hc' := Finset.mem_insert_of_mem (h.ready i p hp c' hc')
  control i hi := by
    rcases Finset.mem_insert.mp hi with hi | hi
    · exact hcontrol i hi.symm
    · exact h.control i hi
  finished i hi := by
    rcases Finset.mem_insert.mp hi with hi | hi
    · exact hfinished i hi.symm
    · exact h.finished i hi
  launched_le := h.launched_le
  launched_eq := h.launched_eq
  initial := h.initial
  queue_mem := h.queue_mem
  queue_order := h.queue_order
  drained := h.drained

end Invariant

/-! ## What a step does -/

section Steps

variable [DecidableEq κ] {program : List (StreamCall κ ν σ ε)}
  {preconditions : List (Event (Completion (Released ε)))} {state state' : StreamState κ ν σ ε}

namespace StreamState

/-- One more entry has been executed. -/
theorem perform_cases (call : Call κ ν σ (Released ε)) (task : ℕ) (p : Progress σ)
    (state : StreamState κ ν σ ε) :
    ∃ p' memory, perform call task p state = { state with
        memory := memory
        progress := Function.update state.progress task (some p') } ∧
      p'.launched = p.launched ∧ p'.executed = p.executed + 1 := by
  rw [perform]
  split
  · exact ⟨_, _, rfl, rfl, rfl⟩
  · exact ⟨_, _, rfl, rfl, rfl⟩

/-- A launch puts an entry on a stream, or executes it. -/
theorem launch_cases {task : ℕ} (h : state.launch program task = some state') :
    ∃ call p, program[task]? = some call ∧ state.progress task = some p ∧
      p.launched < call.entries ∧
      ((∃ stream, call.dispatch = .gpuStream stream ∧ state' = { state with
          progress := Function.update state.progress task (some { p with
            launched := p.launched + 1 })
          queues := Function.update state.queues stream (state.queues stream ++ [task]) }) ∨
        ((∀ stream, call.dispatch ≠ .gpuStream stream) ∧
          state' = state.perform (call.toCall task) task
            { p with launched := p.launched + 1 })) := by
  simp only [launch, Option.bind_eq_bind, Option.bind_eq_some_iff] at h
  obtain ⟨call, hcall, p, hp, hstate⟩ := h
  split at hstate
  · refine ⟨call, p, hcall, hp, ‹_›, ?_⟩
    split at hstate
    · rename_i stream hdispatch
      exact Or.inl ⟨stream, hdispatch, (Option.some.inj hstate).symm⟩
    · rename_i hdispatch
      exact Or.inr ⟨hdispatch, (Option.some.inj hstate).symm⟩
  · cases hstate

theorem execute_cases {stream : ℕ} (h : state.execute program stream = some state') :
    ∃ task queue call p, state.queues stream = task :: queue ∧ program[task]? = some call ∧
      state.progress task = some p ∧
      state' = perform (call.toCall task) task p
        { state with queues := Function.update state.queues stream queue } := by
  rw [execute] at h
  split at h
  · cases h
  · rename_i task queue hqueue
    simp only [Option.bind_eq_bind, Option.bind_eq_some_iff] at h
    obtain ⟨call, hcall, p, hp, hstate⟩ := h
    exact ⟨task, queue, call, p, hqueue, hcall, hp, (Option.some.inj hstate).symm⟩

variable [DecidableEq ε]

omit [DecidableEq κ] in
theorem start_cases {task : ℕ} (h : state.start program preconditions task = some state') :
    ∃ call precondition, program[task]? = some call ∧
      preconditions[task]? = some precondition ∧ state.progress task = none ∧
      precondition ⊆ state.triggered ∧
      state' = { state with
        progress := Function.update state.progress task (some { state := call.init }) } := by
  simp only [start, Option.bind_eq_bind, Option.bind_eq_some_iff] at h
  obtain ⟨call, hcall, precondition, hprecondition, hstate⟩ := h
  split at hstate
  · rename_i hready
    exact ⟨call, precondition, hcall, hprecondition, hready.1, hready.2,
      (Option.some.inj hstate).symm⟩
  · cases hstate

omit [DecidableEq κ] in
theorem returnControl_cases {task : ℕ} (h : state.returnControl program task = some state') :
    ∃ call p, program[task]? = some call ∧ state.progress task = some p ∧
      p.launched = call.entries ∧
      state' = { state with
        triggered := insert (.external (.control task)) state.triggered } := by
  simp only [returnControl, Option.bind_eq_bind, Option.bind_eq_some_iff] at h
  obtain ⟨call, hcall, p, hp, hstate⟩ := h
  split at hstate
  · rename_i hreturned
    exact ⟨call, p, hcall, hp, hreturned.2, (Option.some.inj hstate).symm⟩
  · cases hstate

omit [DecidableEq κ] in
theorem finish_cases {task : ℕ} (h : state.finish program task = some state') :
    Drained program state task ∧
      state' = { state with triggered := insert (.task task) state.triggered } := by
  simp only [finish, Option.bind_eq_bind, Option.bind_eq_some_iff] at h
  obtain ⟨call, hcall, p, hp, hstate⟩ := h
  split at hstate
  · rename_i hdone
    exact ⟨⟨call, p, hcall, hp, hdone.1⟩, (Option.some.inj hstate).symm⟩
  · cases hstate

end StreamState

end Steps

/-! ## Steps keep the invariant -/

section Preservation

variable {program : List (StreamCall κ ν σ ε)}
  {preconditions : List (Event (Completion (Released ε)))} {state state' : StreamState κ ν σ ε}
  (h : StreamInv program preconditions state)

include h

theorem StreamInv.executed_le {i : ℕ} {call : StreamCall κ ν σ ε} {p : Progress σ}
    (hcall : program[i]? = some call) (hp : state.progress i = some p) :
    p.executed ≤ p.launched := by
  rw [h.launched_eq i call p hcall hp]
  exact Nat.le_add_right _ _

/-- A task of which an entry can still be launched has no later task before it
on its stream. -/
theorem StreamInv.not_follows_of_queued {t j stream : ℕ} {call : StreamCall κ ν σ ε}
    {p : Progress σ} (hcall : program[t]? = some call) (hp : state.progress t = some p)
    (hopen : p.launched < call.entries) (hj : j ∈ state.queues stream) :
    ¬Follows program preconditions t j := by
  rintro ⟨-, a, b, ha, -, -, hwaits⟩
  obtain ⟨-, q, -, -, hq⟩ := h.queue_mem stream j hj
  have htriggered := h.ready j q hq _ hwaits
  obtain rfl : call = a := Option.some.inj (hcall.symm.trans ha)
  rw [StreamCall.signal] at htriggered
  split at htriggered
  · obtain ⟨call', p', hcall', hp', hall⟩ := h.control t htriggered
    obtain rfl : call = call' := Option.some.inj (hcall.symm.trans hcall')
    obtain rfl : p = p' := Option.some.inj (hp.symm.trans hp')
    exact hopen.ne hall
  · obtain ⟨call', p', hcall', hp', hall⟩ := h.finished t htriggered
    obtain rfl : call = call' := Option.some.inj (hcall.symm.trans hcall')
    obtain rfl : p = p' := Option.some.inj (hp.symm.trans hp')
    exact absurd (h.executed_le hcall hp) (by omega)

/-- An entry is put at the end of a stream. -/
theorem StreamInv.push {t stream : ℕ} {call : StreamCall κ ν σ ε} {p : Progress σ}
    (hcall : program[t]? = some call) (hp : state.progress t = some p)
    (hopen : p.launched < call.entries) (hdispatch : call.dispatch = .gpuStream stream) :
    StreamInv program preconditions { state with
      progress := Function.update state.progress t (some { p with launched := p.launched + 1 })
      queues := Function.update state.queues stream (state.queues stream ++ [t]) } := by
  have hpending := h.launched_eq t call p hcall hp
  rw [hdispatch, queued] at hpending
  apply h.update { p with launched := p.launched + 1 } _ state.memory hcall hp le_rfl
    (Nat.le_succ _) hopen
  · simp only [hdispatch, queued, Function.update_self, List.count_append,
      List.count_singleton_self]
    omega
  · exact h.initial t call p hcall hp
  · intro other i hi
    by_cases heq : other = stream
    · subst heq
      simp [List.count_append, hi.symm]
    · rw [Function.update_of_ne heq]
  · intro other hmem
    by_cases heq : other = stream
    · rw [heq, hdispatch]
    · rw [Function.update_of_ne heq] at hmem
      obtain ⟨call', -, hcall', hdispatch', -⟩ := h.queue_mem other t hmem
      rw [Option.some.inj (hcall.symm.trans hcall'), hdispatch']
  · intro other
    by_cases heq : other = stream
    · subst heq
      rw [Function.update_self, List.pairwise_append]
      refine ⟨h.queue_order other, List.pairwise_singleton _ _, ?_⟩
      intro j hj i hi
      rw [List.mem_singleton.mp hi]
      exact h.not_follows_of_queued hcall hp hopen hj
    · rw [Function.update_of_ne heq]
      exact h.queue_order other
  · by_cases hzero : p.executed = 0
    · exact Or.inl hzero
    · exact Or.inr fun i hfollows ↦ h.drained i t hfollows ⟨p, hp, Nat.pos_of_ne_zero hzero⟩

/-- A task without a stream finds the tasks that it follows drained. -/
theorem StreamInv.drained_of_direct (hsame : SameStream program) {t : ℕ}
    {call : StreamCall κ ν σ ε} {p : Progress σ} (hcall : program[t]? = some call)
    (hp : state.progress t = some p) (hdirect : ∀ stream, call.dispatch ≠ .gpuStream stream)
    {i : ℕ} (hfollows : Follows program preconditions i t) : Drained program state i :=
  h.drained_of_follows hsame hfollows hcall hp
    fun stream hdispatch ↦ absurd hdispatch (hdirect stream)

/-- The first task on a stream finds the tasks that it follows drained. -/
theorem StreamInv.drained_of_first (hsame : SameStream program) {t stream : ℕ} {queue : List ℕ}
    (hqueue : state.queues stream = t :: queue) {i : ℕ}
    (hfollows : Follows program preconditions i t) : Drained program state i := by
  obtain ⟨call, p, hcall, hdispatch, hp⟩ :=
    h.queue_mem stream t (hqueue ▸ List.mem_cons_self)
  apply h.drained_of_follows hsame hfollows hcall hp
  intro other hother
  obtain rfl : stream = other := by simpa [hdispatch] using hother
  rw [hqueue, List.mem_cons, not_or]
  refine ⟨hfollows.1.ne, fun hi ↦ ?_⟩
  have horder := h.queue_order stream
  rw [hqueue] at horder
  exact (List.pairwise_cons.mp horder).1 i hi hfollows

/-- What a task follows through other tasks is drained as well. -/
theorem StreamInv.drained_of_transGen {i t : ℕ}
    (horder : Relation.TransGen (Follows program preconditions) i t)
    (hfollows : ∀ k, Follows program preconditions k t → Drained program state k) :
    Drained program state i := by
  induction horder with
  | single hi => exact hfollows i hi
  | tail _ hk ih => exact ih fun k hk' ↦ h.drained k _ hk' (hfollows _ hk).begun

/-- A task starts. -/
theorem StreamInv.start {t : ℕ} {call : StreamCall κ ν σ ε}
    {precondition : Event (Completion (Released ε))} (hcall : program[t]? = some call)
    (hprecondition : preconditions[t]? = some precondition) (hnone : state.progress t = none)
    (hready : precondition ⊆ state.triggered) :
    StreamInv program preconditions { state with
      progress := Function.update state.progress t (some { state := call.init }) } := by
  have hold {i : ℕ} {q : Progress σ} (hq : state.progress i = some q) : i ≠ t := by
    rintro rfl
    simp [hnone] at hq
  have hcases {i : ℕ} {q : Progress σ}
      (hq : Function.update state.progress t (some { state := call.init }) i = some q) :
      (i = t ∧ q = { state := call.init }) ∨ state.progress i = some q := by
    by_cases heq : i = t
    · subst heq
      exact Or.inl ⟨rfl, by simpa using hq.symm⟩
    · exact Or.inr (by simpa [heq] using hq)
  have hidle (stream : ℕ) : t ∉ state.queues stream := by
    intro hmem
    obtain ⟨-, q, -, -, hq⟩ := h.queue_mem stream t hmem
    exact hold hq rfl
  have hmono {i : ℕ} (hi : Drained program state i) : Drained program { state with
      progress := Function.update state.progress t (some { state := call.init }) } i := by
    obtain ⟨call', q, hcall', hq, hdone⟩ := hi
    exact ⟨call', q, hcall', by rw [← hq]; exact Function.update_of_ne (hold hq) .., hdone⟩
  constructor
  · intro i q hq
    rcases hcases hq with ⟨rfl, -⟩ | hq
    · rintro c ⟨precondition', hprecondition', hc⟩
      obtain rfl := Option.some.inj (hprecondition.symm.trans hprecondition')
      exact hready hc
    · exact h.ready i q hq
  · intro i hi
    obtain ⟨call', q, hcall', hq, hall⟩ := h.control i hi
    exact ⟨call', q, hcall', by rw [← hq]; exact Function.update_of_ne (hold hq) .., hall⟩
  · exact fun i hi ↦ hmono (h.finished i hi)
  · intro i call' q hcall' hq
    rcases hcases hq with ⟨rfl, rfl⟩ | hq
    · exact Nat.zero_le _
    · exact h.launched_le i call' q hcall' hq
  · intro i call' q hcall' hq
    rcases hcases hq with ⟨rfl, rfl⟩ | hq
    · rw [Nat.zero_add]
      cases call'.dispatch with
      | gpuStream stream => exact (List.count_eq_zero.mpr (hidle stream)).symm
      | _ => rfl
    · exact h.launched_eq i call' q hcall' hq
  · intro i call' q hcall' hq hzero
    rcases hcases hq with ⟨rfl, rfl⟩ | hq
    · rw [Option.some.inj (hcall.symm.trans hcall')]
    · exact h.initial i call' q hcall' hq hzero
  · intro stream i hi
    obtain ⟨call', q, hcall', hdispatch, hq⟩ := h.queue_mem stream i hi
    exact ⟨call', q, hcall', hdispatch,
      by rw [← hq]; exact Function.update_of_ne (hold hq) ..⟩
  · exact h.queue_order
  · rintro i j hfollows ⟨q, hq, hpos⟩
    rcases hcases hq with ⟨rfl, rfl⟩ | hq
    · exact absurd hpos (Nat.lt_irrefl 0)
    · exact hmono (h.drained i j hfollows ⟨q, hq, hpos⟩)

variable [DecidableEq κ]

/-- A task without a stream executes its next entry. -/
theorem StreamInv.direct (hsame : SameStream program) {t : ℕ} {call : StreamCall κ ν σ ε}
    {p : Progress σ} (hcall : program[t]? = some call) (hp : state.progress t = some p)
    (hopen : p.launched < call.entries) (hdirect : ∀ stream, call.dispatch ≠ .gpuStream stream) :
    StreamInv program preconditions (state.perform (call.toCall t) t
      { p with launched := p.launched + 1 }) := by
  obtain ⟨p', memory, hstate, hlaunched, hexecuted⟩ := StreamState.perform_cases
    (call.toCall t) t { p with launched := p.launched + 1 } state
  have hnone (queues : ℕ → List ℕ) : queued queues call.dispatch t = 0 := by
    cases hdispatch : call.dispatch with
    | gpuStream stream => exact absurd hdispatch (hdirect stream)
    | _ => rfl
  have hpending := h.launched_eq t call p hcall hp
  rw [hnone] at hpending
  rw [hstate]
  simp only at hlaunched hexecuted
  apply h.update p' state.queues memory hcall hp (by omega) (by omega) (by omega)
  · rw [hnone]
    omega
  · exact fun hzero ↦ absurd hzero (by omega)
  · exact fun stream i _ ↦ rfl
  · intro stream hmem
    obtain ⟨call', -, hcall', hdispatch', -⟩ := h.queue_mem stream t hmem
    rw [Option.some.inj (hcall.symm.trans hcall'), hdispatch']
  · exact h.queue_order
  · exact Or.inr fun i hfollows ↦ h.drained_of_direct hsame hcall hp hdirect hfollows

/-- A stream executes its oldest entry. -/
theorem StreamInv.pop (hsame : SameStream program) {t stream : ℕ} {queue : List ℕ}
    {call : StreamCall κ ν σ ε} {p : Progress σ} (hqueue : state.queues stream = t :: queue)
    (hcall : program[t]? = some call) (hp : state.progress t = some p) :
    StreamInv program preconditions (StreamState.perform (call.toCall t) t p
      { state with queues := Function.update state.queues stream queue }) := by
  obtain ⟨p', memory, hstate, hlaunched, hexecuted⟩ := StreamState.perform_cases (call.toCall t) t p
    { state with queues := Function.update state.queues stream queue }
  have hdispatch : call.dispatch = .gpuStream stream := by
    obtain ⟨call', -, hcall', hdispatch', -⟩ :=
      h.queue_mem stream t (hqueue ▸ List.mem_cons_self)
    rw [Option.some.inj (hcall.symm.trans hcall'), hdispatch']
  have hpending := h.launched_eq t call p hcall hp
  simp only [hdispatch, queued, hqueue, List.count_cons_self] at hpending
  rw [hstate]
  apply h.update p' (Function.update state.queues stream queue) memory hcall hp (by omega)
    hlaunched.ge
    (hlaunched ▸ h.launched_le t call p hcall hp)
  · simp only [hdispatch, queued, Function.update_self]
    omega
  · exact fun hzero ↦ absurd hzero (by omega)
  · intro other i hi
    by_cases heq : other = stream
    · subst heq
      rw [Function.update_self, hqueue, List.count_cons_of_ne hi.symm]
    · rw [Function.update_of_ne heq]
  · intro other hmem
    by_cases heq : other = stream
    · rw [heq, hdispatch]
    · rw [Function.update_of_ne heq] at hmem
      obtain ⟨call', -, hcall', hdispatch', -⟩ := h.queue_mem other t hmem
      rw [Option.some.inj (hcall.symm.trans hcall'), hdispatch']
  · intro other
    by_cases heq : other = stream
    · subst heq
      have horder := h.queue_order other
      rw [hqueue] at horder
      rw [Function.update_self]
      exact (List.pairwise_cons.mp horder).2
    · rw [Function.update_of_ne heq]
      exact h.queue_order other
  · exact Or.inr fun i hfollows ↦ h.drained_of_first hsame hqueue hfollows

/-- Every step of a schedule keeps the invariant. -/
theorem StreamInv.step [DecidableEq ε] (hsame : SameStream program) {action : StreamAction ε}
    (hstep : state.step program preconditions action = some state') :
    StreamInv program preconditions state' := by
  cases action with
  | start task =>
      obtain ⟨call, precondition, hcall, hprecondition, hnone, hready, rfl⟩ :=
        StreamState.start_cases hstep
      exact h.start hcall hprecondition hnone hready
  | launch task =>
      obtain ⟨call, p, hcall, hp, hopen, ⟨stream, hdispatch, rfl⟩ | ⟨hdirect, rfl⟩⟩ :=
        StreamState.launch_cases hstep
      · exact h.push hcall hp hopen hdispatch
      · exact h.direct hsame hcall hp hopen hdirect
  | execute stream =>
      obtain ⟨task, queue, call, p, hqueue, hcall, hp, rfl⟩ := StreamState.execute_cases hstep
      exact h.pop hsame hqueue hcall hp
  | returnControl task =>
      obtain ⟨call, p, hcall, hp, hall, rfl⟩ := StreamState.returnControl_cases hstep
      apply h.trigger
      · rintro i heq
        obtain rfl : task = i := by simpa using heq
        exact ⟨call, p, hcall, hp, hall⟩
      · exact fun i heq ↦ absurd heq (by simp)
  | finish task =>
      obtain ⟨hdrained, rfl⟩ := StreamState.finish_cases hstep
      apply h.trigger
      · exact fun i heq ↦ absurd heq (by simp)
      · rintro i heq
        obtain rfl : task = i := by simpa using heq
        exact hdrained
  | outside e =>
      obtain rfl := Option.some.inj hstep
      apply h.trigger
      · exact fun i heq ↦ absurd heq (by simp)
      · exact fun i heq ↦ absurd heq (by simp)

end Preservation

end Zuku
