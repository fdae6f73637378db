import Zuku.TaskWaits

/-!
# Programs that run to their end

A task that waits for itself never starts.  Without such tasks every schedule,
wherever it stops, can go on until all tasks have completed: nothing waits for
ever, so that what a completion waits for can be triggered before it.
-/

namespace Zuku

open Relation Session

variable {ε β κ ν σ : Type}

namespace World

/-- The return of control is triggered by a task that has started, and the user
event of a child or a view after what it was triggered with. -/
def Permitted [DecidableEq ε] (session : Session κ ν σ ε β) (world : World κ ν σ ε) :
    Action ε → Prop
  | .external e =>
      (∀ task, .external e ∈ Signals session.program task → world.progress task ≠ none) ∧
        ∀ c, session.NotifiedAfter (.external e) c → c ∈ world.triggered
  | _ => True

/-- One permitted step of a schedule. -/
def CausalStep [DecidableEq ε] [DecidableEq κ] (session : Session κ ν σ ε β)
    (world world' : World κ ν σ ε) : Prop :=
  ∃ action, world.Permitted session action ∧
    world.step session.program session.deferred.preconditions action = some world'

/-- Every schedule can go on until all tasks have completed. -/
def CannotHang [DecidableEq ε] [DecidableEq κ] (session : Session κ ν σ ε β) (memory : κ → ν) :
    Prop :=
  ∀ world, ReflTransGen (CausalStep session) { memory := memory } world →
    ∃ world', ReflTransGen (CausalStep session) world world' ∧
      ∀ task < session.program.length, .task task ∈ world'.triggered

/-- A task that has started exists and has waited for its precondition, and
what has triggered does not wait for ever. -/
structure Started [DecidableEq ε] (session : Session κ ν σ ε β) (world : World κ ν σ ε) :
    Prop where
  bounded : ∀ task n l, world.progress task = some (n, l) →
    ∃ call, session.program[task]? = some call ∧ n ≤ call.body.length
  ready : ∀ task, world.progress task ≠ none →
    ∀ c ∈ Waits session.deferred.preconditions task, c ∈ world.triggered
  ends : ∀ c ∈ world.triggered, Acc session.Precedes c

section Step

variable [DecidableEq ε] [DecidableEq κ] {session : Session κ ν σ ε β}
  {world world' : World κ ν σ ε} {known : Set (Completion ε)}

/-! ## What every schedule keeps -/

omit [DecidableEq κ] in
theorem started_init (memory : κ → ν) :
    Started session ({ memory := memory } : World κ ν σ ε) where
  bounded task n l h := by cases h
  ready task h := absurd rfl h
  ends c hc := absurd hc (Finset.notMem_empty c)

omit [DecidableEq κ] in
/-- A completion that triggers after everything it waits for keeps the invariant. -/
theorem Started.insert (h : Started session world) {c : Completion ε}
    (hc : ∀ d, session.Precedes d c → d ∈ world.triggered) :
    Started session { world with triggered := insert c world.triggered } where
  bounded := h.bounded
  ready task hstarted d hd := Finset.mem_insert_of_mem (h.ready task hstarted d hd)
  ends d hd := by
    rcases Finset.mem_insert.mp hd with rfl | hold
    · exact ⟨d, fun d' hd' ↦ h.ends d' (hc d' hd')⟩
    · exact h.ends d hold

omit [DecidableEq κ] in
/-- A task that goes on after its precondition keeps the invariant. -/
theorem Started.update (h : Started session world) {task n : ℕ} {l : σ}
    {call : Call κ ν σ ε} {memory : κ → ν} (hcall : session.program[task]? = some call)
    (hn : n ≤ call.body.length)
    (hready : ∀ c ∈ Waits session.deferred.preconditions task, c ∈ world.triggered) :
    Started session
      { world with
        memory := memory
        progress := Function.update world.progress task (some (n, l)) } where
  bounded task' n' l' hprogress := by
    by_cases htask : task' = task
    · subst htask
      obtain ⟨rfl, rfl⟩ : n = n' ∧ l = l' := by simpa using hprogress
      exact ⟨call, hcall, hn⟩
    · exact h.bounded task' n' l' (by simpa [htask] using hprogress)
  ready task' hstarted := by
    by_cases htask : task' = task
    · exact htask ▸ hready
    · exact h.ready task' (by simpa [htask] using hstarted)
  ends := h.ends

omit [DecidableEq κ] in
/-- What the completion of a task waits for, the task has waited for. -/
theorem Started.ready_of_signal (h : Started session world) (hcausal : Causal session known)
    {task : ℕ} (hstarted : world.progress task ≠ none) {c d : Completion ε}
    (hc : c ∈ Signals session.program task) (hdc : session.Precedes d c) :
    d ∈ world.triggered := by
  rcases hdc with ⟨task', hc', hd⟩ | hafter
  · obtain rfl := hcausal.signals_unique task task' c hc hc'
    exact h.ready task hstarted d hd
  · exact absurd hc ((hcausal.notifiedAfter hafter).1.unsignalled task)

theorem Started.step (h : Started session world) (hcausal : Causal session known)
    (hstep : CausalStep session world world') : Started session world' := by
  obtain ⟨action, hpermitted, hstep⟩ := hstep
  cases action with
  | start task =>
      obtain ⟨call, precondition, hcall, hprecondition, -, hready, rfl⟩ := start_cases hstep
      apply h.update hcall (Nat.zero_le _)
      rintro c ⟨p, hp, hc⟩
      obtain rfl : precondition = p := Option.some.inj (hprecondition.symm.trans hp)
      exact hready hc
  | advance task =>
      obtain ⟨call, n, l, f, hcall, hprogress, hf, rfl⟩ := advance_cases hstep
      apply h.update hcall (List.getElem?_eq_some_iff.mp hf).1
      exact h.ready task (by simp [hprogress])
  | finish task =>
      obtain ⟨call, l, hcall, hprogress, rfl⟩ := finish_cases hstep
      apply h.insert
      intro d hd
      exact h.ready_of_signal hcausal (by simp [hprogress])
        ⟨call, hcall, task_mem_signals call task⟩ hd
  | external e =>
      obtain rfl := Option.some.inj hstep
      apply h.insert
      rintro d (⟨task, hsignal, hd⟩ | hafter)
      · exact h.ready task (hpermitted.1 task hsignal) d hd
      · exact hpermitted.2 d hafter

theorem Started.run (h : Started session world) (hcausal : Causal session known)
    (hrun : ReflTransGen (CausalStep session) world world') : Started session world' := by
  induction hrun with
  | refl => exact h
  | tail _ hstep ih => exact ih.step hcausal hstep

/-- What has triggered, or started, stays so. -/
theorem CausalStep.mono (hstep : CausalStep session world world') :
    world.triggered ⊆ world'.triggered := by
  obtain ⟨action, -, hstep⟩ := hstep
  cases action with
  | start task =>
      obtain ⟨call, precondition, -, -, -, -, rfl⟩ := start_cases hstep
      exact subset_rfl
  | advance task =>
      obtain ⟨call, n, l, f, -, -, -, rfl⟩ := advance_cases hstep
      exact subset_rfl
  | finish task =>
      obtain ⟨call, l, -, -, rfl⟩ := finish_cases hstep
      exact Finset.subset_insert _ _
  | external e =>
      obtain rfl := Option.some.inj hstep
      exact Finset.subset_insert _ _

theorem triggered_subset_of_run (hrun : ReflTransGen (CausalStep session) world world') :
    world.triggered ⊆ world'.triggered := by
  induction hrun with
  | refl => exact subset_rfl
  | tail _ hstep ih => exact ih.trans hstep.mono

/-! ## How a schedule goes on -/

omit [DecidableEq κ] in
theorem exists_start {call : Call κ ν σ ε} {precondition : Event (Completion ε)} {task : ℕ}
    (hcall : session.program[task]? = some call)
    (hprecondition : session.deferred.preconditions[task]? = some precondition)
    (hprogress : world.progress task = none) (hready : precondition ⊆ world.triggered) :
    ∃ world', world.start session.program session.deferred.preconditions task = some world' ∧
      world'.progress task = some (0, call.init) := by
  have hstep : world.start session.program session.deferred.preconditions task = some
      ⟨world.memory, Function.update world.progress task (some (0, call.init)),
        world.triggered⟩ := by
    simp [start, hcall, hprecondition, hprogress, hready]
  exact ⟨_, hstep, Function.update_self ..⟩

omit [DecidableEq ε] in
theorem exists_advance {call : Call κ ν σ ε} {task n : ℕ} {l : σ}
    (hcall : session.program[task]? = some call) (hprogress : world.progress task = some (n, l))
    (hn : n < call.body.length) :
    ∃ world' l', world.advance session.program task = some world' ∧
      world'.progress task = some (n + 1, l') := by
  let next := call.runStep call.body[n] l world.memory
  have hstep : world.advance session.program task = some
      ⟨next.2, Function.update world.progress task (some (n + 1, next.1)), world.triggered⟩ := by
    simp [advance, hcall, hprogress, List.getElem?_eq_getElem hn, next]
  exact ⟨_, _, hstep, Function.update_self ..⟩

/-- A task that has started can be run to its completion. -/
theorem exists_finish {call : Call κ ν σ ε} {task n : ℕ} {l : σ}
    (hcall : session.program[task]? = some call) (hprogress : world.progress task = some (n, l))
    (hn : n ≤ call.body.length) :
    ∃ world', ReflTransGen (CausalStep session) world world' ∧
      world'.progress task ≠ none ∧ .task task ∈ world'.triggered := by
  induction hrest : call.body.length - n generalizing world n l with
  | zero =>
      obtain rfl : n = call.body.length := by omega
      have hstep : world.finish session.program task =
          some { world with triggered := Insert.insert (.task task) world.triggered } := by
        simp [finish, hcall, hprogress]
      exact ⟨_, .single ⟨.finish task, trivial, hstep⟩, by simp [hprogress],
        Finset.mem_insert_self _ _⟩
  | succ rest ih =>
      have hlt : n < call.body.length := by omega
      obtain ⟨world₁, l₁, hstep, hprogress₁⟩ := exists_advance hcall hprogress hlt
      obtain ⟨world', hrun, hrest⟩ := ih hprogress₁ hlt (by omega)
      exact ⟨world', .head ⟨.advance task, trivial, hstep⟩ hrun, hrest⟩

/-- A task that can start can be run to its completion. -/
theorem exists_complete (h : Started session world) {call : Call κ ν σ ε}
    {precondition : Event (Completion ε)} {task : ℕ} (hcall : session.program[task]? = some call)
    (hprecondition : session.deferred.preconditions[task]? = some precondition)
    (hready : precondition ⊆ world.triggered) :
    ∃ world', ReflTransGen (CausalStep session) world world' ∧
      world'.progress task ≠ none ∧ .task task ∈ world'.triggered := by
  cases hprogress : world.progress task with
  | some running =>
      obtain ⟨call', hcall', hn⟩ := h.bounded task running.1 running.2 hprogress
      obtain rfl := Option.some.inj (hcall.symm.trans hcall')
      exact exists_finish hcall hprogress hn
  | none =>
      obtain ⟨world₁, hstep, hprogress₁⟩ := exists_start hcall hprecondition hprogress hready
      obtain ⟨world', hrun, hrest⟩ := exists_finish hcall hprogress₁ (Nat.zero_le _)
      exact ⟨world', .head ⟨.start task, trivial, hstep⟩ hrun, hrest⟩

/-- Completions that can be triggered one by one, wherever a schedule stops, can
be triggered together. -/
theorem exists_trigger_all (hcausal : Causal session known) (event : Event (Completion ε))
    (hone : ∀ c ∈ event, ∀ world, Started session world →
      ∃ world', ReflTransGen (CausalStep session) world world' ∧ c ∈ world'.triggered)
    (h : Started session world) :
    ∃ world', ReflTransGen (CausalStep session) world world' ∧ event ⊆ world'.triggered := by
  induction event using Finset.induction_on with
  | empty => exact ⟨world, .refl, Finset.empty_subset _⟩
  | insert c event _ ih =>
      obtain ⟨world₁, hrun₁, hevent⟩ := ih fun d hd ↦ hone d (Finset.mem_insert_of_mem hd)
      obtain ⟨world₂, hrun₂, hc⟩ :=
        hone c (Finset.mem_insert_self c event) world₁ (h.run hcausal hrun₁)
      exact ⟨world₂, hrun₁.trans hrun₂,
        Finset.insert_subset hc (hevent.trans (triggered_subset_of_run hrun₂))⟩

/-- Where nothing waits for ever, every completion can be triggered. -/
theorem exists_trigger (hcausal : Causal session known) (hwf : WellFounded session.Precedes)
    (hfinite : ∀ n, {c | session.NotifiedAfter n c}.Finite) {c : Completion ε} (hc : c ∈ known)
    (h : Started session world) :
    ∃ world', ReflTransGen (CausalStep session) world world' ∧ c ∈ world'.triggered := by
  induction c using hwf.induction generalizing world with
  | h c ih =>
  have hcomplete {task : ℕ} (hsignal : c ∈ Signals session.program task) :
      ∃ world', ReflTransGen (CausalStep session) world world' ∧
        world'.progress task ≠ none ∧ .task task ∈ world'.triggered := by
    obtain ⟨call, hcall, -⟩ := id hsignal
    obtain ⟨p, hp⟩ : ∃ p, session.deferred.preconditions[task]? = some p :=
      ⟨_, List.getElem?_eq_getElem
        (hcausal.length_eq.symm ▸ (List.getElem?_eq_some_iff.mp hcall).1)⟩
    obtain ⟨world₁, hrun₁, hready⟩ := exists_trigger_all hcausal p (fun d hd world hworld ↦
      ih d (Or.inl ⟨task, hsignal, p, hp, hd⟩) (hcausal.waits task ⟨p, hp, hd⟩) hworld) h
    obtain ⟨world₂, hrun₂, hdone⟩ := exists_complete (h.run hcausal hrun₁) hcall hp hready
    exact ⟨world₂, hrun₁.trans hrun₂, hdone⟩
  cases c with
  | task task =>
      have hlt := hcausal.task_lt task hc
      obtain ⟨world', hrun, -, hdone⟩ :=
        hcomplete ⟨_, List.getElem?_eq_getElem hlt, task_mem_signals _ task⟩
      exact ⟨world', hrun, hdone⟩
  | external e =>
      obtain ⟨world₁, hrun, hpermitted⟩ : ∃ world₁, ReflTransGen (CausalStep session) world world₁ ∧
          world₁.Permitted session (.external e) := by
        by_cases hsignal : ∃ task, .external e ∈ Signals session.program task
        · obtain ⟨task, hsignal⟩ := hsignal
          obtain ⟨world₁, hrun, hstarted, -⟩ := hcomplete hsignal
          refine ⟨world₁, hrun, fun task' hsignal' ↦ ?_, fun d hd ↦ ?_⟩
          · rwa [← hcausal.signals_unique task task' _ hsignal hsignal']
          · exact absurd hsignal ((hcausal.notifiedAfter hd).1.unsignalled task)
        · obtain ⟨world₁, hrun, hafter⟩ := exists_trigger_all hcausal
            (hfinite (.external e)).toFinset (fun d hd world hworld ↦ by
              have hd' := (hfinite _).mem_toFinset.mp hd
              exact ih d (Or.inr hd') (hcausal.notifiedAfter hd').2 hworld) h
          refine ⟨world₁, hrun, fun task hs ↦ absurd ⟨task, hs⟩ hsignal, fun d hd ↦ ?_⟩
          exact hafter ((hfinite _).mem_toFinset.mpr hd)
      exact ⟨_, hrun.tail ⟨.external e, hpermitted, rfl⟩, Finset.mem_insert_self _ _⟩

end Step

end World

/-! ## Careful programs -/

/-- A call that writes no living child only has to look at its own stores. -/
theorem Session.careful_of_no_child [DecidableEq ε] {session : Session κ ν σ ε β}
    {call : Call κ ν σ ε} (halias : ReadsAliasesOnly call.uses)
    (hnone : ∀ name ∈ call.written,
      (session.deferred.stores name).parentNotificationEvent = none) : session.Careful call := by
  refine ⟨halias, fun name hname n hn ↦ ?_⟩
  rw [hnone name hname] at hn
  cases hn

section Claims

variable [DecidableEq ε] [DecidableEq κ] {session : Session κ ν σ ε β}
  {calls : List (Session κ ν σ ε β × Call κ ν σ ε)} {known : Set (Completion ε)}

open World

/-- A program that cannot hang has no task that waits for itself. -/
theorem Session.Causal.not_waitsFor_self (h : Causal session known) {memory : κ → ν}
    (hfinishes : CannotHang session memory) {task : ℕ} : ¬session.TaskWaitsFor task task := by
  intro hself
  obtain ⟨c, ⟨call, hcall, hc⟩, -⟩ := id hself
  obtain ⟨world, hrun, hdone⟩ := hfinishes _ .refl
  have hstarted := (started_init memory).run h hrun
  have hlt := (List.getElem?_eq_some_iff.mp hcall).1
  obtain ⟨d, hd, hforever⟩ := hself.exists_not_acc
  have hprecedes : session.Precedes d (.task task) :=
    Or.inl ⟨task, ⟨call, hcall, task_mem_signals call task⟩, hd⟩
  exact hforever ((hstarted.ends _ (hdone task hlt)).inv hprecedes)

theorem Session.History.cannotHang (h : History calls session known)
    (hwf : WellFounded session.Precedes) (memory : κ → ν) : CannotHang session memory := by
  intro world hrun
  have hstarted := (started_init memory).run h.causal hrun
  have hknown : ∀ c ∈ (Finset.range session.program.length).image (Completion.task (ε := ε)),
      c ∈ known := by
    intro c hc
    obtain ⟨task, htask, rfl⟩ := Finset.mem_image.mp hc
    exact h.causal.signals task
      ⟨_, List.getElem?_eq_getElem (Finset.mem_range.mp htask), task_mem_signals _ _⟩
  obtain ⟨world', hrun', hdone⟩ := exists_trigger_all h.causal _ (fun c hc world hworld ↦
    exists_trigger h.causal hwf h.finite_notifiedAfter (hknown c hc) hworld) hstarted
  refine ⟨world', hrun', fun task htask ↦ hdone ?_⟩
  exact Finset.mem_image_of_mem _ (Finset.mem_range.mpr htask)

end Claims

/-- Stores that have been created and wait for nothing. -/
def createdSession : Session ℕ ℕ ℕ ℕ Unit where
  deferred := ⟨fun _ ↦ Store.create (), []⟩

theorem createdSession_history : History [] createdSession ∅ := by
  refine .start (fun _ ↦ Set.notMem_empty _) (fun _ streamOrdered c hc ↦ ?_) fun _ ↦ rfl
  simp [Store.create, Store.waitsFor] at hc

/-- A call in the empty context. -/
def plainCall (args : List (Argument ℕ)) : Call ℕ ℕ ℕ ℕ := ⟨{}, args, 0, []⟩

theorem plainCall_madeOf (args : List (Argument ℕ)) (known : Set (Completion ℕ)) :
    (plainCall args).context.MadeOf known := by
  constructor <;> simp [plainCall]

/-- A store has an open-ended child when it is written. -/
def childSession : Session ℕ ℕ ℕ ℕ Unit := createdSession.child 0 3 (.external 0)

theorem childSession_history : History [] childSession (insert (.external 0) ∅) :=
  .use createdSession_history (.child (by decide) rfl (Set.notMem_empty _))

/-- The store is written while its child lives. -/
def writtenSession : Session ℕ ℕ ℕ ℕ Unit := childSession.defer (plainCall [.reference 0])

/-- The child is written and destroyed. -/
def destroyedSession : Session ℕ ℕ ℕ ℕ Unit :=
  (writtenSession.defer (plainCall [.reference 3, .constReference 1])).destroyStore 3

/-- The store is read three times by a task that writes another one. -/
def sharedSession : Session ℕ ℕ ℕ ℕ Unit :=
  destroyedSession.defer (plainCall [.constReference 0, .roVector [1, 0], .reference 2])

/-- What the child is written after does not wait for it. -/
theorem writtenSession_careful :
    writtenSession.Careful (plainCall [.reference 3, .constReference 1]) := by
  have hnone : ∀ use ∈ (plainCall [.reference 3, .constReference 1]).uses,
      (writtenSession.deferred.stores use.1).waitsFor false use.2 = ∅ := by decide
  refine ⟨by decide, ?_⟩
  rintro name - n - c (⟨after, hafter, -⟩ | ⟨use, huse, hc⟩)
  · cases hafter
  · rw [show (plainCall _).context.streamOrdered.isSome = false from rfl, hnone use huse] at hc
    exact absurd hc (Finset.notMem_empty c)

def sharedCalls : List (Session ℕ ℕ ℕ ℕ Unit × Call ℕ ℕ ℕ ℕ) :=
  [(childSession, plainCall [.reference 0]),
    (writtenSession, plainCall [.reference 3, .constReference 1]),
    (destroyedSession, plainCall [.constReference 0, .roVector [1, 0], .reference 2])]

theorem sharedCalls_careful (before : Session ℕ ℕ ℕ ℕ Unit) (call : Call ℕ ℕ ℕ ℕ)
    (hmem : (before, call) ∈ sharedCalls) : before.Careful call := by
  simp only [sharedCalls, List.mem_cons, Prod.mk.injEq, List.not_mem_nil, or_false] at hmem
  rcases hmem with ⟨rfl, rfl⟩ | ⟨rfl, rfl⟩ | ⟨rfl, rfl⟩
  · exact Session.careful_of_no_child (by decide) (by decide)
  · exact writtenSession_careful
  · exact Session.careful_of_no_child (by decide) (by decide)

/-- A store by reference and by constant reference in one call. -/
def aliasedSession : Session ℕ ℕ ℕ ℕ Unit :=
  createdSession.defer (plainCall [.reference 0, .constReference 0])

/-- While a child of a store lives, one task writes the store and another one,
and a second task writes the child and the other store. -/
def livingChildSession : Session ℕ ℕ ℕ ℕ Unit :=
  ((childSession.defer (plainCall [.reference 0, .reference 1])).defer
    (plainCall [.reference 3, .reference 1])).destroyStore 3

end Zuku
