import Zuku.TaskSession

/-!
# Waits that end

Completions exist before something waits for them.  A call of `defer` puts a new
task between what its stores wait for and the children that it writes, and a
careful call does so without closing a cycle.
-/

namespace Zuku

open Event EventPrecondition Relation

variable {ε β κ ν σ : Type}

namespace Session

/-- A user event that exists and that no task triggers. -/
structure UserEvent [DecidableEq ε] (program : List (Call κ ν σ ε)) (known : Set (Completion ε))
    (n : Completion ε) : Prop where
  known : n ∈ known
  external : ∃ e, n = .external e
  unsignalled : ∀ task, n ∉ Signals program task

/-- The events of a store exist, and what it notifies is a user event. -/
structure StoreMade [DecidableEq ε] (program : List (Call κ ν σ ε)) (known : Set (Completion ε))
    (store : Store (Completion ε) β) : Prop where
  within : store.Within known
  notification : ∀ n ∈ store.parentNotificationEvent, UserEvent program known n

structure ViewMade [DecidableEq ε] (program : List (Call κ ν σ ε)) (known : Set (Completion ε))
    (view : View (Completion ε) β) : Prop where
  views : ∀ c ∈ mergeAll view.views, c ∈ known
  reader : ∀ n ∈ view.warDependency, UserEvent program known n

/-- Everything that triggers or is waited for exists, and every completion is
triggered by one task or one child or view at most. -/
structure Causal [DecidableEq ε] (session : Session κ ν σ ε β) (known : Set (Completion ε)) :
    Prop where
  length_eq : session.deferred.preconditions.length = session.program.length
  task_lt : ∀ task, .task task ∈ known → task < session.program.length
  signals : ∀ task, Signals session.program task ⊆ known
  waits : ∀ task, Waits session.deferred.preconditions task ⊆ known
  signals_unique : ∀ i j c, c ∈ Signals session.program i → c ∈ Signals session.program j → i = j
  waits_self : ∀ task call, session.program[task]? = some call →
    ((∃ c ∈ Signals session.program task, c ∈ Waits session.deferred.preconditions task) ↔
      ¬ReadsAliasesOnly call.uses)
  stores : ∀ name, StoreMade session.program known (session.deferred.stores name)
  views : ∀ name, ViewMade session.program known (session.views name)
  notified : ∀ entry ∈ session.notified,
    UserEvent session.program known entry.1 ∧ ∀ c ∈ entry.2, c ∈ known

section Known

variable [DecidableEq ε] {session : Session κ ν σ ε β} {program : List (Call κ ν σ ε)}
  {known known' : Set (Completion ε)} {n c d : Completion ε}

theorem UserEvent.mono (h : UserEvent program known n) (hknown : known ⊆ known') :
    UserEvent program known' n :=
  ⟨hknown h.known, h.external, h.unsignalled⟩

theorem StoreMade.mono {store : Store (Completion ε) β} (h : StoreMade program known store)
    (hknown : known ⊆ known') : StoreMade program known' store :=
  ⟨fun streamOrdered c hc ↦ hknown (h.within streamOrdered c hc),
    fun n hn ↦ (h.notification n hn).mono hknown⟩

theorem ViewMade.mono {view : View (Completion ε) β} (h : ViewMade program known view)
    (hknown : known ⊆ known') : ViewMade program known' view :=
  ⟨fun c hc ↦ hknown (h.views c hc), fun n hn ↦ (h.reader n hn).mono hknown⟩

/-- The effects of a store are among its events. -/
theorem StoreMade.effects {store : Store (Completion ε) β} (h : StoreMade program known store)
    (hc : c ∈ effectsOf store.childRwEvent) : c ∈ known := by
  apply h.within false c
  rw [waitsFor_false_write, Store.precondition_eq]
  exact Finset.mem_union_right _ hc

theorem Causal.notifiedAfter (h : Causal session known) (hn : session.NotifiedAfter n c) :
    UserEvent session.program known n ∧ c ∈ known := by
  rcases hn with ⟨name, hn, hc⟩ | ⟨name, hn, hc⟩ | ⟨event, hentry, hc⟩
  · exact ⟨(h.stores name).notification n hn, (h.stores name).effects hc⟩
  · exact ⟨(h.views name).reader n hn, (h.views name).views c hc⟩
  · exact ⟨(h.notified _ hentry).1, (h.notified _ hentry).2 c hc⟩

theorem Causal.precedes_known (h : Causal session known) (hcd : session.Precedes c d) :
    c ∈ known ∧ d ∈ known := by
  rcases hcd with ⟨task, hd, hc⟩ | hd
  · exact ⟨h.waits task hc, h.signals task hd⟩
  · exact ⟨(h.notifiedAfter hd).2, (h.notifiedAfter hd).1.known⟩

/-- Nothing that exists waits for a new completion. -/
theorem Causal.not_precedes_of_new (h : Causal session known) (hnew : n ∉ known)
    (hc : c ∈ known) : ¬ReflTransGen session.Precedes n c := by
  intro hpath
  rcases ReflTransGen.cases_head hpath with rfl | ⟨d, hnd, -⟩
  · exact hnew hc
  · exact hnew (h.precedes_known hnd).1

end Known

/-! ## Between the calls -/

section Use

variable [DecidableEq ε] [DecidableEq κ] {session session' : Session κ ν σ ε β}
  {known known' : Set (Completion ε)} {name parent : κ} {e : ε}

omit [DecidableEq κ] in
theorem Causal.mono (h : Causal session known) (hknown : known ⊆ known')
    (htask : ∀ task, .task task ∈ known' → .task task ∈ known) : Causal session known' where
  length_eq := h.length_eq
  task_lt task hmem := h.task_lt task (htask task hmem)
  signals task := (h.signals task).trans hknown
  waits task := (h.waits task).trans hknown
  signals_unique := h.signals_unique
  waits_self := h.waits_self
  stores name := (h.stores name).mono hknown
  views name := (h.views name).mono hknown
  notified entry hentry :=
    ⟨(h.notified entry hentry).1.mono hknown, fun c hc ↦ hknown ((h.notified entry hentry).2 c hc)⟩

omit [DecidableEq κ] in
/-- A user event of the program comes into being. -/
theorem Causal.insert_external (h : Causal session known) (e : ε) :
    Causal session (insert (.external e) known) := by
  apply h.mono (Set.subset_insert _ _)
  intro task hmem
  exact hmem.resolve_left (by simp)

omit [DecidableEq κ] in
theorem Causal.userEvent_new (h : Causal session known) (hnew : .external e ∉ known) :
    UserEvent session.program (insert (.external e) known) (.external e) :=
  ⟨Set.mem_insert _ _, ⟨e, rfl⟩, fun task hsignal ↦ hnew (h.signals task hsignal)⟩

theorem Causal.setStore (h : Causal session known) {store : Store (Completion ε) β}
    (hstore : StoreMade session.program known store) : Causal (session.setStore name store) known :=
  { h with
    stores := (Function.forall_update_iff _ fun _ ↦ StoreMade session.program known).mpr
      ⟨hstore, fun other _ ↦ h.stores other⟩ }

theorem Causal.setView (h : Causal session known) {view : View (Completion ε) β}
    (hview : ViewMade session.program known view) : Causal (session.setView name view) known :=
  { h with
    views := (Function.forall_update_iff _ fun _ ↦ ViewMade session.program known).mpr
      ⟨hview, fun other _ ↦ h.views other⟩ }

omit [DecidableEq κ] in
theorem Causal.addNotified (h : Causal session known)
    {entries : List (Completion ε × Event (Completion ε))}
    (hentries : ∀ entry ∈ entries,
      UserEvent session.program known entry.1 ∧ ∀ c ∈ entry.2, c ∈ known) :
    Causal { session with notified := entries ++ session.notified } known :=
  { h with
    notified := fun entry hentry ↦
      (List.mem_append.mp hentry).elim (hentries entry) (h.notified entry) }

theorem Causal.child (h : Causal session known) (hnew : .external e ∉ known) :
    Causal (session.child parent name (.external e)) (insert (.external e) known) := by
  have hknown := h.insert_external e
  have hparent := hknown.stores parent
  have hevent : ∀ c ∈ ({.external e} : Event (Completion ε)),
      c ∈ insert (.external e) known := by
    intro c hc
    exact Or.inl (Finset.mem_singleton.mp hc)
  have hready : Causal (session.setStore parent
      ((session.deferred.stores parent).readyAfter {.external e} {.external e}))
      (insert (.external e) known) :=
    hknown.setStore ⟨toTaskArgument_within hparent.within hevent hevent .write,
      hparent.notification⟩
  apply hready.setStore
  refine ⟨hparent.within, ?_⟩
  rintro n ⟨⟩
  exact h.userEvent_new hnew

omit [DecidableEq ε] in
theorem eq_of_mem_toList_map {o : Option ε} {event : Event ε} {entry : ε × Event ε}
    (h : entry ∈ (o.map fun n ↦ (n, event)).toList) : entry.1 ∈ o ∧ entry.2 = event := by
  cases o with
  | none => simp at h
  | some n =>
      obtain rfl : entry = (n, event) := by simpa using h
      exact ⟨rfl, rfl⟩

theorem Causal.destroyStore (h : Causal session known) :
    Causal (session.destroyStore name) known := by
  refine Causal.addNotified (h.setStore ⟨?_, ?_⟩) ?_
  · intro streamOrdered c hc
    simp [Store.waitsFor] at hc
  · simp
  · intro entry hentry
    obtain ⟨hn, hevent⟩ := eq_of_mem_toList_map hentry
    rw [hevent]
    exact ⟨(h.stores name).notification _ hn, fun c hc ↦ (h.stores name).effects hc⟩

theorem Causal.moveStore (h : Causal session known) {target : κ} :
    Causal (session.moveStore name target) known := by
  have hname := h.stores name
  have hleft : StoreMade session.program known (session.deferred.stores name).movedFrom := by
    refine ⟨fun streamOrdered c hc ↦ hname.within streamOrdered c ?_, by simp [Store.movedFrom]⟩
    rw [Store.waitsFor, Store.movedFrom, part_none, Finset.union_empty] at hc
    exact Finset.mem_union_left _ hc
  exact (h.setStore hleft).setStore hname

theorem Causal.view (h : Causal session known) (hnew : .external e ∉ known) :
    Causal (session.view parent name (.external e)) (insert (.external e) known) := by
  have hknown := h.insert_external e
  have hparent := hknown.stores parent
  have hevent : ∀ c ∈ ({.external e} : Event (Completion ε)),
      c ∈ insert (.external e) known := by
    intro c hc
    exact Or.inl (Finset.mem_singleton.mp hc)
  have hread : Causal (session.setStore parent
      ((session.deferred.stores parent).addReader {.external e} {.external e}))
      (insert (.external e) known) :=
    hknown.setStore ⟨toTaskArgument_within hparent.within hevent hevent .read,
      hparent.notification⟩
  apply hread.setView
  refine ⟨by simp [Store.unsafeView], ?_⟩
  rintro n ⟨⟩
  exact h.userEvent_new hnew

theorem Causal.doneAfter (h : Causal session known) {event : Event (Completion ε)}
    (hevent : ∀ c ∈ event, c ∈ known) : Causal (session.doneAfter name event) known := by
  refine h.setView ⟨?_, (h.views name).reader⟩
  intro c hc
  obtain ⟨event', hmem, hc⟩ := mem_mergeAll.mp hc
  rcases List.mem_append.mp hmem with hold | hnew
  · exact (h.views name).views c (mem_mergeAll.mpr ⟨event', hold, hc⟩)
  · exact hevent c (List.mem_singleton.mp hnew ▸ hc)

theorem Causal.subview (h : Causal session known) (hnew : .external e ∉ known) :
    Causal (session.subview parent name (.external e)) (insert (.external e) known) := by
  have hparent : Causal (session.doneAfter parent {.external e}) (insert (.external e) known) := by
    apply (h.insert_external e).doneAfter
    intro c hc
    exact Or.inl (Finset.mem_singleton.mp hc)
  refine hparent.setView ⟨by simp, ?_⟩
  rintro n ⟨⟩
  exact h.userEvent_new hnew

theorem Causal.destroyView (h : Causal session known) :
    Causal (session.destroyView name) known := by
  refine Causal.addNotified (h.setView ⟨by simp, by simp⟩) ?_
  intro entry hentry
  obtain ⟨hn, hevent⟩ := eq_of_mem_toList_map hentry
  rw [hevent]
  exact ⟨(h.views name).reader _ hn, (h.views name).views⟩

/-- What a program does between its calls keeps the order of the completions. -/
theorem Causal.use (h : Causal session known) (huse : Use session known session' known') :
    Causal session' known' := by
  cases huse with
  | store hknown htask hwithin hkeeps =>
      refine (h.mono hknown htask).setStore ⟨hwithin, ?_⟩
      intro n hn
      rw [hkeeps.notification] at hn
      exact ((h.stores _).notification n hn).mono hknown
  | child _ _ hnew => exact h.child hnew
  | destroyStore => exact h.destroyStore
  | moveStore _ _ => exact h.moveStore
  | view _ hnew => exact h.view hnew
  | subview _ _ hnew => exact h.subview hnew
  | doneAfter hevent _ => exact h.doneAfter hevent
  | destroyView => exact h.destroyView

/-! ### What waits for what -/

theorem Use.program_eq (huse : Use session known session' known') :
    session'.program = session.program ∧
      session'.deferred.preconditions = session.deferred.preconditions := by
  cases huse <;> exact ⟨rfl, rfl⟩

omit [DecidableEq κ] in
theorem KeepsChild.notifies {store store' : Store (Completion ε) β} {n c : Completion ε}
    (h : session.KeepsChild store store') (hn : store.Notifies n c) : store'.Notifies n c :=
  ⟨h.notification.trans hn.1, h.effects n hn.1 hn.2⟩

/-- Waits stay. -/
theorem Use.notifiedAfter {n c : Completion ε} (huse : Use session known session' known')
    (hn : session.NotifiedAfter n c) : session'.NotifiedAfter n c := by
  cases huse with
  | store _ _ _ hkeeps => exact (notifiedAfter_setStore hkeeps.notifies).mpr (Or.inr hn)
  | child hname hfree _ => exact (notifiedAfter_child hname hfree).mpr (Or.inr (Or.inr hn))
  | destroyStore => exact notifiedAfter_destroyStore.mpr hn
  | moveStore hne hfree => exact (notifiedAfter_moveStore hne hfree).mpr hn
  | view hfree _ => exact (notifiedAfter_view hfree).mpr hn
  | subview hname hfree _ => exact (notifiedAfter_subview hname hfree).mpr (Or.inr hn)
  | doneAfter _ _ => exact notifiedAfter_doneAfter.mpr (Or.inr hn)
  | destroyView => exact notifiedAfter_destroyView.mpr hn

theorem Use.precedes {c d : Completion ε} (huse : Use session known session' known')
    (hcd : session.Precedes c d) : session'.Precedes c d := by
  obtain ⟨hprogram, hpreconditions⟩ := huse.program_eq
  rw [Precedes, hprogram, hpreconditions]
  exact hcd.imp_right huse.notifiedAfter

theorem Use.precedes_cases {c d : Completion ε} (huse : Use session known session' known')
    (hcd : session'.Precedes c d) : session.Precedes c d ∨ session'.NotifiedAfter d c := by
  obtain ⟨hprogram, hpreconditions⟩ := huse.program_eq
  rw [Precedes, hprogram, hpreconditions] at hcd
  exact hcd.imp_left Or.inl

omit [DecidableEq κ] in
theorem Causal.precedes_not_new (h : Causal session known) {n c : Completion ε}
    (hnew : n ∉ known) (hc : c ∈ known) : ¬ReflTransGen session.Precedes c n := by
  intro hpath
  rcases ReflTransGen.cases_tail hpath with rfl | ⟨d, -, hdn⟩
  · exact hnew hc
  · exact hnew (h.precedes_known hdn).2

/-- What a program does between its calls closes no cycle of waits. -/
theorem Causal.wellFounded_use (h : Causal session known)
    (huse : Use session known session' known') (hwf : WellFounded session.Precedes) :
    WellFounded session'.Precedes := by
  have hcases := fun c d ↦ huse.precedes_cases (c := c) (d := d)
  cases huse with
  | @store name store _ _ _ _ hkeeps =>
      apply WaitGraph.wellFounded_addEdges hwf
        (n := {a | (session.deferred.stores name).parentNotificationEvent = some a})
        (p := {b | ∀ a, (session.deferred.stores name).parentNotificationEvent = some a →
          ¬ReflTransGen session.Precedes a b})
      · intro b a hba
        rcases hcases b a hba with hold | hnew
        · exact Or.inl hold
        rcases (notifiedAfter_setStore hkeeps.notifies).mp hnew with ⟨hn, hb⟩ | hold
        · rw [hkeeps.notification] at hn
          rcases hkeeps.added a hn b hb with hb | hb
          · exact Or.inl (Or.inr (Or.inl ⟨name, hn, hb⟩))
          · refine Or.inr ⟨hn, fun a' ha' ↦ ?_⟩
            obtain rfl := Option.some.inj (hn.symm.trans ha')
            exact hb
        · exact Or.inl (Or.inr hold)
      · exact fun a ha b hb ↦ hb a ha
  | @child parent name e hname hfree hnew =>
      apply WaitGraph.wellFounded_addNodes hwf (s := {.external e})
        (n := {a | (session.deferred.stores parent).parentNotificationEvent = some a})
        (p := {b | b ∈ effectsOf (session.deferred.stores parent).childRwEvent})
      · intro b a hba
        rcases hcases b a hba with hold | hafter
        · exact Or.inl hold
        rcases (notifiedAfter_child hname hfree).mp hafter with ⟨rfl, hb⟩ | ⟨hn, rfl⟩ | hold
        · exact Or.inr (Or.inl ⟨rfl, hb⟩)
        · exact Or.inr (Or.inr ⟨hn, rfl⟩)
        · exact Or.inl (Or.inr hold)
      · rintro a rfl
        refine ⟨fun hn ↦ hnew ((h.stores parent).notification _ hn).known, fun b hb ↦ ?_⟩
        exact hnew (h.precedes_known hb).2
      · rintro a (rfl | ha) b hb
        · exact h.not_precedes_of_new hnew ((h.stores parent).effects hb)
        · -- the parent waits for its effects already
          intro hab
          have hba : session.Precedes b a := Or.inr (Or.inl ⟨parent, ha, hb⟩)
          exact WaitGraph.not_transGen_self (hwf.apply a) (.tail' hab hba)
  | destroyStore =>
      apply Subrelation.wf _ hwf
      intro b a hba
      exact (hcases b a hba).elim id fun hn ↦ Or.inr (notifiedAfter_destroyStore.mp hn)
  | moveStore hne hfree =>
      apply Subrelation.wf _ hwf
      intro b a hba
      exact (hcases b a hba).elim id fun hn ↦ Or.inr ((notifiedAfter_moveStore hne hfree).mp hn)
  | view hfree _ =>
      apply Subrelation.wf _ hwf
      intro b a hba
      exact (hcases b a hba).elim id fun hn ↦ Or.inr ((notifiedAfter_view hfree).mp hn)
  | @subview parent name e hname hfree hnew =>
      apply WaitGraph.wellFounded_addEdges hwf
        (n := {a | (session.views parent).warDependency = some a}) (p := {.external e})
      · intro b a hba
        rcases hcases b a hba with hold | hafter
        · exact Or.inl hold
        exact ((notifiedAfter_subview hname hfree).mp hafter).symm.imp_left Or.inr
      · rintro a ha b rfl
        exact h.precedes_not_new hnew ((h.views parent).reader a ha).known
  | @doneAfter name event _ hevent =>
      apply WaitGraph.wellFounded_addEdges hwf
        (n := {a | (session.views name).warDependency = some a}) (p := {b | b ∈ event})
      · intro b a hba
        rcases hcases b a hba with hold | hafter
        · exact Or.inl hold
        exact (notifiedAfter_doneAfter.mp hafter).symm.imp_left Or.inr
      · exact fun a ha b hb ↦ hevent a ha b hb
  | destroyView =>
      apply Subrelation.wf _ hwf
      intro b a hba
      exact (hcases b a hba).elim id fun hn ↦ Or.inr (notifiedAfter_destroyView.mp hn)

end Use

/-! ## Calls -/

section Defer

variable [DecidableEq ε] [DecidableEq κ] {session session' : Session κ ν σ ε β}
  {known known' : Set (Completion ε)} {call : Call κ ν σ ε} {c d n : Completion ε}

/-- What the next task starts after. -/
theorem mem_nextPrecondition_iff :
    c ∈ nextPrecondition session.deferred call ↔
      (c ∈ getStreamOrderedEvent call.context
          {.task session.deferred.preconditions.length} ∧ ¬ReadsAliasesOnly call.uses) ∨
        session.Awaits call c := by
  rw [nextPrecondition, mem_startPrecondition_iff, mem_dependency_storeArgs_iff, Awaits,
    or_left_comm]
  cases hcontrol : call.context.streamOrdered <;> simp [getStreamOrderedEvent, hcontrol]

omit [DecidableEq κ] in
theorem mem_signals_push {program : List (Call κ ν σ ε)} {task : ℕ}
    (h : c ∈ Signals (program ++ [call]) task) :
    c ∈ Signals program task ∨ (task = program.length ∧ c ∈ call.signals task) := by
  obtain ⟨call', htask, hc⟩ := h
  rcases getElem?_push htask with htask | ⟨rfl, rfl⟩
  · exact Or.inl ⟨call', htask, hc⟩
  · exact Or.inr ⟨rfl, hc⟩

omit [DecidableEq κ] in
theorem signals_push_subset (program : List (Call κ ν σ ε)) (call : Call κ ν σ ε) (task : ℕ) :
    Signals program task ⊆ Signals (program ++ [call]) task := by
  rintro c ⟨call', htask, hc⟩
  refine ⟨call', ?_, hc⟩
  rw [List.getElem?_append_left (List.getElem?_eq_some_iff.mp htask).1, htask]

omit [DecidableEq κ] in
theorem signals_push_self {program : List (Call κ ν σ ε)}
    (hc : c ∈ call.signals program.length) : c ∈ Signals (program ++ [call]) program.length :=
  ⟨call, by simp, hc⟩

omit [DecidableEq ε] in
theorem mem_waits_push {preconditions : List (Event (Completion ε))}
    {precondition : Event (Completion ε)} {task : ℕ}
    (h : c ∈ Waits (preconditions ++ [precondition]) task) :
    c ∈ Waits preconditions task ∨ (task = preconditions.length ∧ c ∈ precondition) := by
  obtain ⟨p, htask, hc⟩ := h
  rcases getElem?_push htask with htask | ⟨rfl, rfl⟩
  · exact Or.inl ⟨p, htask, hc⟩
  · exact Or.inr ⟨rfl, hc⟩

/-- The children that the call writes wait for the new task. -/
theorem notifiedAfter_defer :
    (session.defer call).NotifiedAfter n c ↔
      (c = .task session.deferred.preconditions.length ∧ ∃ name ∈ call.written,
        (session.deferred.stores name).parentNotificationEvent = some n) ∨
        session.NotifiedAfter n c := by
  have hstore (name : κ) : ((session.defer call).deferred.stores name).Notifies n c ↔
      (c = .task session.deferred.preconditions.length ∧ name ∈ call.written ∧
        (session.deferred.stores name).parentNotificationEvent = some n) ∨
        (session.deferred.stores name).Notifies n c := by
    rw [Store.Notifies, Session.defer, Zuku.defer, parentNotificationEvent_storeArgs,
      mem_childRwEvent_storeArgs, Finset.mem_singleton, ← Call.mem_written_iff]
    rw [Store.Notifies]
    tauto
  have hstores : (∃ name, ((session.defer call).deferred.stores name).Notifies n c) ↔
      (c = .task session.deferred.preconditions.length ∧ ∃ name ∈ call.written,
        (session.deferred.stores name).parentNotificationEvent = some n) ∨
        ∃ name, (session.deferred.stores name).Notifies n c := by
    simp only [hstore, exists_or, exists_and_left]
  exact (or_congr_left hstores).trans or_assoc

namespace Causal

omit [DecidableEq κ] in
theorem fresh (h : Causal session known) (hcontext : call.context.MadeOf known)
    (hc : c ∈ call.signals session.program.length) : c ∉ known := by
  rcases mem_signals_cases hcontext hc with rfl | ⟨e, rfl, hnew⟩
  · exact fun hmem ↦ absurd (h.task_lt _ hmem) (lt_irrefl _)
  · exact hnew

omit [DecidableEq κ] in
theorem awaits_known (h : Causal session known) (hcontext : call.context.MadeOf known)
    (hc : session.Awaits call c) : c ∈ known := by
  rcases hc with ⟨after, hafter, hc⟩ | ⟨use, -, hc⟩
  · exact hcontext.after after hafter c hc
  · exact (h.stores use.1).within _ c (waitsFor_subset_write hc)

/-- The next task waits for itself where it has an alias. -/
theorem mem_nextPrecondition (h : Causal session known)
    (hc : c ∈ nextPrecondition session.deferred call) :
    session.Awaits call c ∨
      (c ∈ call.signals session.program.length ∧ ¬ReadsAliasesOnly call.uses) := by
  rcases mem_nextPrecondition_iff.mp hc with ⟨hnew, halias⟩ | hc
  · rw [h.length_eq] at hnew
    exact Or.inr ⟨getStreamOrderedEvent_subset_signals call _ hnew, halias⟩
  · exact Or.inl hc

theorem exists_mem_nextPrecondition (h : Causal session known)
    (hcontext : call.context.MadeOf known) (halias : ¬ReadsAliasesOnly call.uses) :
    ∃ c ∈ call.signals session.program.length, c ∈ nextPrecondition session.deferred call := by
  obtain ⟨c, hc⟩ := getStreamOrderedEvent_nonempty hcontext session.program.length
  refine ⟨c, getStreamOrderedEvent_subset_signals call _ hc, ?_⟩
  exact mem_nextPrecondition_iff.mpr (Or.inl ⟨h.length_eq ▸ hc, halias⟩)

/-- What waits for what after one more call. -/
theorem precedes_defer (h : Causal session known) :
    (session.defer call).Precedes c d ↔
      session.Precedes c d ∨
        (d ∈ call.signals session.program.length ∧ c ∈ nextPrecondition session.deferred call) ∨
        (c = .task session.program.length ∧ ∃ name ∈ call.written,
          (session.deferred.stores name).parentNotificationEvent = some d) := by
  rw [Precedes, notifiedAfter_defer, Precedes, h.length_eq]
  constructor
  · rintro (⟨task, hd, hc⟩ | hnew | hold)
    · rcases mem_signals_push hd with hold | ⟨rfl, hnew⟩ <;>
        rcases mem_waits_push hc with hwait | ⟨htask, hnext⟩
      · exact Or.inl (Or.inl ⟨task, hold, hwait⟩)
      · obtain ⟨call', hcall', -⟩ := hold
        rw [htask, h.length_eq, List.getElem?_eq_none le_rfl] at hcall'
        cases hcall'
      · obtain ⟨p, hp, -⟩ := hwait
        rw [← h.length_eq, List.getElem?_eq_none le_rfl] at hp
        cases hp
      · exact Or.inr (Or.inl ⟨hnew, hnext⟩)
    · exact Or.inr (Or.inr hnew)
    · exact Or.inl (Or.inr hold)
  · rintro ((⟨task, hd, hc⟩ | hold) | ⟨hd, hc⟩ | hnew)
    · exact Or.inl ⟨task, signals_push_subset _ _ _ hd, waits_push_subset _ _ _ hc⟩
    · exact Or.inr (Or.inr hold)
    · exact Or.inl ⟨_, signals_push_self hd, h.length_eq ▸ waits_push_self hc⟩
    · exact Or.inr (Or.inl hnew)

omit [DecidableEq κ] in
/-- A user event stays one that no task triggers. -/
theorem userEvent_push (h : Causal session known) (hcontext : call.context.MadeOf known)
    (hn : UserEvent session.program known n) :
    UserEvent (session.program ++ [call])
      (known ∪ {c | c ∈ call.signals session.deferred.preconditions.length}) n := by
  refine ⟨Or.inl hn.known, hn.external, fun task hsignal ↦ ?_⟩
  rcases mem_signals_push hsignal with hold | ⟨rfl, hnew⟩
  · exact hn.unsignalled task hold
  · exact h.fresh hcontext hnew hn.known

theorem waits_self_defer (h : Causal session known) (hcontext : call.context.MadeOf known)
    {task : ℕ} {call' : Call κ ν σ ε} (htask : (session.program ++ [call])[task]? = some call') :
    (∃ c ∈ Signals (session.program ++ [call]) task,
      c ∈ Waits (session.defer call).deferred.preconditions task) ↔
        ¬ReadsAliasesOnly call'.uses := by
  rcases getElem?_push htask with hold | ⟨rfl, rfl⟩
  · have hlt := (List.getElem?_eq_some_iff.mp hold).1
    rw [← h.waits_self task call' hold]
    refine exists_congr fun c ↦ and_congr ⟨fun hc ↦ ?_, fun hc ↦ ?_⟩ ⟨fun hc ↦ ?_, fun hc ↦ ?_⟩
    · exact (mem_signals_push hc).resolve_right fun hnew ↦ hlt.ne hnew.1
    · exact signals_push_subset _ _ _ hc
    · exact (mem_waits_push hc).resolve_right fun hnew ↦ hlt.ne (hnew.1.trans h.length_eq)
    · exact waits_push_subset _ _ _ hc
  · constructor
    · rintro ⟨c, hsignal, hwait⟩
      rcases mem_signals_push hsignal with ⟨call'', hcall, -⟩ | ⟨-, hsignal⟩
      · simp at hcall
      rcases mem_waits_push hwait with hwait | ⟨-, hnext⟩
      · exact absurd (h.waits _ hwait) (h.fresh hcontext hsignal)
      rcases h.mem_nextPrecondition hnext with hawaits | ⟨-, halias⟩
      · exact absurd (h.awaits_known hcontext hawaits) (h.fresh hcontext hsignal)
      · exact halias
    · intro halias
      obtain ⟨c, hsignal, hnext⟩ := h.exists_mem_nextPrecondition hcontext halias
      exact ⟨c, signals_push_self hsignal, h.length_eq ▸ waits_push_self hnext⟩

/-- A call keeps the order of the completions. -/
theorem defer (h : Causal session known) (hcontext : call.context.MadeOf known) :
    Causal (session.defer call)
      (known ∪ {c | c ∈ call.signals session.deferred.preconditions.length}) where
  length_eq := by
    rw [Session.defer, preconditions_defer, List.length_append, List.length_append, h.length_eq]
    rfl
  task_lt := by
    rintro task (hknown | hnew)
    · exact (h.task_lt task hknown).trans_le (by simp [Session.defer])
    · rcases mem_signals_cases hcontext hnew with heq | ⟨e, heq, -⟩
      · obtain rfl := Completion.task.inj heq
        simp [Session.defer, h.length_eq]
      · cases heq
  signals := by
    intro task c hc
    rcases mem_signals_push hc with hc | ⟨rfl, hc⟩
    · exact Or.inl (h.signals task hc)
    · exact Or.inr (h.length_eq ▸ hc)
  waits := by
    intro task c hc
    rcases mem_waits_push hc with hc | ⟨-, hc⟩
    · exact Or.inl (h.waits task hc)
    · rcases h.mem_nextPrecondition hc with hc | ⟨hc, -⟩
      · exact Or.inl (h.awaits_known hcontext hc)
      · exact Or.inr (h.length_eq ▸ hc)
  signals_unique := by
    intro i j c hi hj
    rcases mem_signals_push hi with hi | ⟨rfl, hi⟩ <;>
      rcases mem_signals_push hj with hj | ⟨rfl, hj⟩
    · exact h.signals_unique i j c hi hj
    · exact absurd (h.signals i hi) (h.fresh hcontext hj)
    · exact absurd (h.signals j hj) (h.fresh hcontext hi)
    · rfl
  waits_self task call' htask := h.waits_self_defer hcontext htask
  stores := by
    have hnew : ∀ c ∈ call.signals session.deferred.preconditions.length,
        c ∈ known ∪ {c | c ∈ call.signals session.deferred.preconditions.length} :=
      fun c hc ↦ Or.inr hc
    refine fun name ↦ ⟨?_, fun n hn ↦ ?_⟩
    · apply storeArgs_within
      · exact fun s streamOrdered c hc ↦ Or.inl ((h.stores s).within streamOrdered c hc)
      · exact fun c hc ↦ hnew c (getStreamOrderedEvent_subset_signals call _ hc)
      · rintro c hc
        obtain rfl := Finset.mem_singleton.mp hc
        exact hnew _ (task_mem_signals call _)
    · rw [Session.defer, Zuku.defer, parentNotificationEvent_storeArgs] at hn
      exact h.userEvent_push hcontext ((h.stores name).notification n hn)
  views name := ⟨fun c hc ↦ Or.inl ((h.views name).views c hc),
    fun n hn ↦ h.userEvent_push hcontext ((h.views name).reader n hn)⟩
  notified entry hentry := ⟨h.userEvent_push hcontext (h.notified entry hentry).1,
    fun c hc ↦ Or.inl ((h.notified entry hentry).2 c hc)⟩

/-- A careful call closes no cycle of waits. -/
theorem wellFounded_defer (h : Causal session known) (hcontext : call.context.MadeOf known)
    (hwf : WellFounded session.Precedes) (hcareful : session.Careful call) :
    WellFounded (session.defer call).Precedes := by
  have hawaits : ∀ c ∈ nextPrecondition session.deferred call, session.Awaits call c :=
    fun c hc ↦ (h.mem_nextPrecondition hc).resolve_right fun hown ↦ hown.2 hcareful.1
  apply WaitGraph.wellFounded_addNodes hwf (s := {c | c ∈ call.signals session.program.length})
    (n := {d | ∃ name ∈ call.written,
      (session.deferred.stores name).parentNotificationEvent = some d})
    (p := {c | c ∈ nextPrecondition session.deferred call})
  · intro c d hcd
    rcases h.precedes_defer.mp hcd with hold | hnew | ⟨rfl, hn⟩
    · exact Or.inl hold
    · exact Or.inr (Or.inl hnew)
    · exact Or.inr (Or.inr ⟨hn, task_mem_signals call _⟩)
  · intro d hd
    constructor
    · rintro ⟨name, -, hn⟩
      exact h.fresh hcontext hd ((h.stores name).notification d hn).known
    · exact fun c hcd ↦ h.fresh hcontext hd (h.precedes_known hcd).2
  · rintro d (hd | ⟨name, hname, hn⟩) c hc
    · exact h.not_precedes_of_new (h.fresh hcontext hd) (h.awaits_known hcontext (hawaits c hc))
    · exact hcareful.2 name hname d hn c (hawaits c hc)

/-- After a call that is not careful, its task waits for itself. -/
theorem waitsFor_self_defer (h : Causal session known) (hcontext : call.context.MadeOf known)
    (hcareless : ¬session.Careful call) :
    (session.defer call).TaskWaitsFor session.program.length session.program.length := by
  have hnext {c : Completion ε} (hc : c ∈ nextPrecondition session.deferred call) :
      c ∈ Waits (session.defer call).deferred.preconditions session.program.length :=
    h.length_eq ▸ waits_push_self hc
  by_cases halias : ReadsAliasesOnly call.uses
  · simp only [Session.Careful, halias, true_and, not_forall, not_not] at hcareless
    obtain ⟨name, hname, n, hn, c, hawaits, hpath⟩ := hcareless
    -- the notification waits for the task, which waits for the notification
    have htask : (session.defer call).Precedes (.task session.program.length) n :=
      h.precedes_defer.mpr (Or.inr (Or.inr ⟨rfl, name, hname, hn⟩))
    have hold : ReflTransGen (session.defer call).Precedes n c :=
      ReflTransGen.mono (fun _ _ hcd ↦ h.precedes_defer.mpr (Or.inl hcd)) _ _ hpath
    exact ⟨.task session.program.length, signals_push_self (task_mem_signals call _), c,
      hnext (mem_nextPrecondition_iff.mpr (Or.inr hawaits)), .head htask hold⟩
  · obtain ⟨c, hsignal, hc⟩ := h.exists_mem_nextPrecondition hcontext halias
    exact ⟨c, signals_push_self hsignal, c, hnext hc, .refl⟩

end Causal

end Defer

/-! ## Whole histories -/

section History

variable [DecidableEq ε] [DecidableEq κ] {session session' : Session κ ν σ ε β}
  {calls : List (Session κ ν σ ε β × Call κ ν σ ε)} {known known' : Set (Completion ε)}

/-- Every history is causal. -/
theorem History.causal (h : History calls session known) : Causal session known := by
  induction h with
  | start htask hstores hchildren =>
      constructor
      case stores => exact fun name ↦ ⟨hstores name, by simp [hchildren name]⟩
      case views => exact fun name ↦ ⟨by simp, by simp⟩
      case task_lt => exact fun task hknown ↦ absurd hknown (htask task)
      all_goals simp [Signals, Waits, Set.subset_def]
  | use _ huse ih => exact ih.use huse
  | defer _ hcontext ih => exact ih.defer hcontext

theorem History.program_eq (h : History calls session known) :
    session.program = calls.map Prod.snd := by
  induction h with
  | start _ _ _ => rfl
  | use _ huse ih => exact huse.program_eq.1.trans ih
  | defer _ _ ih => rw [Session.defer, List.map_append, ih]; rfl

/-- Careful calls leave no infinite chain of waits. -/
theorem History.wellFounded (h : History calls session known)
    (hcareful : ∀ before call, (before, call) ∈ calls → before.Careful call) :
    WellFounded session.Precedes := by
  induction h with
  | start _ _ hchildren =>
      refine ⟨fun a ↦ ⟨a, fun b hb ↦ ?_⟩⟩
      rcases hb with ⟨task, ⟨call, hcall, -⟩, -⟩ | ⟨name, hn, -⟩ | ⟨name, hn, -⟩ | ⟨event, hn, -⟩
      · cases hcall
      · rw [hchildren name] at hn
        cases hn
      · cases hn
      · cases hn
  | use h huse ih => exact h.causal.wellFounded_use huse (ih hcareful)
  | defer h hcontext ih =>
      apply h.causal.wellFounded_defer hcontext
      · exact ih fun before call hmem ↦ hcareful before call (List.mem_append_left _ hmem)
      · exact hcareful _ _ (List.mem_append_right _ (List.mem_singleton_self _))

omit [DecidableEq κ] in
theorem TaskWaitsFor.mono {i j : ℕ} (h : session.TaskWaitsFor i j)
    (hsignals : Signals session.program i ⊆ Signals session'.program i)
    (hwaits : Waits session.deferred.preconditions j ⊆ Waits session'.deferred.preconditions j)
    (hprecedes : ∀ c d, session.Precedes c d → session'.Precedes c d) :
    session'.TaskWaitsFor i j := by
  obtain ⟨c, hc, d, hd, hpath⟩ := h
  exact ⟨c, hsignals hc, d, hwaits hd, ReflTransGen.mono hprecedes _ _ hpath⟩

/-- A call that is not careful leaves a task that waits for itself for ever. -/
theorem History.exists_waitsFor_self (h : History calls session known)
    {before : Session κ ν σ ε β} {call : Call κ ν σ ε} (hmem : (before, call) ∈ calls)
    (hcareless : ¬before.Careful call) : ∃ task, session.TaskWaitsFor task task := by
  induction h with
  | start _ _ _ => cases hmem
  | use h huse ih =>
      obtain ⟨task, hself⟩ := ih hmem
      obtain ⟨hprogram, hpreconditions⟩ := huse.program_eq
      exact ⟨task, hself.mono (by rw [hprogram]) (by rw [hpreconditions]) fun _ _ ↦ huse.precedes⟩
  | defer h hcontext ih =>
      rcases List.mem_append.mp hmem with hold | hnew
      · obtain ⟨task, hself⟩ := ih hold
        exact ⟨task, hself.mono (signals_push_subset _ _ _) (waits_push_subset _ _ _)
          fun _ _ hcd ↦ h.causal.precedes_defer.mpr (Or.inl hcd)⟩
      · obtain ⟨rfl, rfl⟩ := Prod.mk.inj (List.mem_singleton.mp hnew)
        exact ⟨_, h.causal.waitsFor_self_defer hcontext hcareless⟩

/-- A user event waits for finitely many completions. -/
theorem History.finite_notifiedAfter (h : History calls session known) (n : Completion ε) :
    {c | session.NotifiedAfter n c}.Finite := by
  induction h with
  | start _ _ hchildren =>
      convert Set.finite_empty
      simp [NotifiedAfter, Store.Notifies, View.Notifies, hchildren]
  | @use _ session _ _ _ h huse ih =>
      cases huse with
      | @store name store _ _ _ _ hkeeps =>
          apply (ih.union (effectsOf store.childRwEvent).finite_toSet).subset
          intro c hc
          exact ((notifiedAfter_setStore hkeeps.notifies).mp hc).symm.imp_right And.right
      | @child parent name e hname hfree _ =>
          have hparent := (effectsOf (session.deferred.stores parent).childRwEvent).finite_toSet
          apply (ih.union (hparent.union (Set.finite_singleton (.external e)))).subset
          intro c hc
          rcases (notifiedAfter_child hname hfree).mp hc with ⟨-, hc⟩ | ⟨-, hc⟩ | hc
          · exact Or.inr (Or.inl hc)
          · exact Or.inr (Or.inr hc)
          · exact Or.inl hc
      | destroyStore => simpa only [notifiedAfter_destroyStore] using ih
      | moveStore hne hfree => simpa only [notifiedAfter_moveStore hne hfree] using ih
      | view hfree _ => simpa only [notifiedAfter_view hfree] using ih
      | @subview parent name e hname hfree _ =>
          apply (ih.union (Set.finite_singleton (.external e))).subset
          intro c hc
          exact ((notifiedAfter_subview hname hfree).mp hc).symm.imp_right And.right
      | @doneAfter name event _ _ =>
          apply (ih.union event.finite_toSet).subset
          intro c hc
          exact (notifiedAfter_doneAfter.mp hc).symm.imp_right And.right
      | destroyView => simpa only [notifiedAfter_destroyView] using ih
  | @defer _ session _ _ h _ ih =>
      apply (ih.union (Set.finite_singleton
        (.task session.deferred.preconditions.length))).subset
      intro c hc
      exact (notifiedAfter_defer.mp hc).symm.imp_right And.left

omit [DecidableEq κ] in
/-- A task that waits for itself waits for ever. -/
theorem TaskWaitsFor.exists_not_acc {task : ℕ} (h : session.TaskWaitsFor task task) :
    ∃ c ∈ Waits session.deferred.preconditions task, ¬Acc session.Precedes c := by
  obtain ⟨c, hc, d, hd, hpath⟩ := h
  have hdc : session.Precedes d c := Or.inl ⟨task, hc, hd⟩
  exact ⟨d, hd, fun hacc ↦ WaitGraph.not_transGen_self hacc (.head' hdc hpath)⟩

end History

end Session

end Zuku
