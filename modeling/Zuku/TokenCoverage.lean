import Zuku.DeferToken
import Zuku.Library.EventImplication

/-!
# What the token of a task implies

A task with open-ended children starts subtasks on them.  When its body
returns, the children are destroyed and notify their parents after the writers
that were started on them; a child that was moved into a subtask does so where
its work ends there.  The token of the task knows the preconditions of the
children, and thus of a writer only what else waits for it.
-/

namespace Zuku

open Event EventPrecondition EventImplication

/-- The events around a deferred task: its own ones, the return of its body, the
events of the subtasks that the body starts, and others. -/
inductive TokenSignal (ε : Type) where
  | main (signal : TaskSignal)
  | returned
  | subtask (k : ℕ) (signal : TaskSignal)
  | external (e : ε)
  deriving DecidableEq, Repr

/-- What a body does with its stores: it starts a subtask, into which it can move
stores, waits for a store, or for an event such as that of a token or a future. -/
inductive BodyAction (ε β : Type) where
  | defer (call : DeferCall ℕ (TokenSignal ε) β)
  | waitStore (store : ℕ)
  | wait (ev : Event (TokenSignal ε))

/-- The stores of a body, by the position of the argument for an open-ended child
and by other numbers for those it made itself, the number of subtasks and the
events it has waited for.  `orders` lists events that do not trigger before others. -/
structure BodyState (ε β : Type) where
  stores : ℕ → Store (TokenSignal ε) β
  numSubtasks : ℕ := 0
  waited : Event (TokenSignal ε) := ∅
  orders : List (Event (TokenSignal ε) × Event (TokenSignal ε)) := []

/-- A call of `defer` and the run of its body, which returns futures with the
events `returns` and lives among events with the orders `facts`. -/
structure DeferRun (κ ε β : Type) where
  stores : κ → Store (TokenSignal ε) β
  call : DeferCall κ (TokenSignal ε) β
  syncTo : Option (EventBarrier (TokenSignal ε)) := none
  body : List (BodyAction ε β)
  returns : ℕ → Event (TokenSignal ε) := fun _ ↦ ∅
  facts : List (Event (TokenSignal ε) × Event (TokenSignal ε)) := []

variable {κ ε β : Type} [DecidableEq κ] [DecidableEq ε]

/-! ## The body -/

/-- The completion of a subtask and the events that it triggers come after its
start; the notification of an open-ended child also comes after its writers. -/
def subtaskOrders (k : ℕ) (call : DeferCall ℕ (TokenSignal ε) β)
    (start : TaskStart ℕ (TokenSignal ε) β) :
    List (Event (TokenSignal ε) × Event (TokenSignal ε)) :=
  ({.subtask k .completion}, start.precondition) ::
    (call.deferredResults.map fun i ↦ ({.subtask k (.result i)}, start.precondition)) ++
    (start.arguments.flatMap StoredElement.arguments).flatMap fun
      | .child store => store.parentNotificationEvent.toList.map fun n ↦
          ({n}, start.precondition ∪ effectsOf store.childRwEvent)
      | .view view => view.warDependency.toList.map fun reader ↦ ({reader}, start.precondition)

/-- The notification of a child that is moved into an argument. -/
def movedNotification :
    Option (DeferArgument ℕ (TokenSignal ε) β) → Option (StoredElement (TokenSignal ε) β) →
      Option (TokenSignal ε)
  | some (.moved _), some (.single (.child store)) => store.parentNotificationEvent
  | _, _ => none

/-- A child that was moved into a subtask is destroyed where its work ends there,
and notifies its parent then. -/
def movedOrders (k : ℕ) (call : DeferCall ℕ (TokenSignal ε) β)
    (start : TaskStart ℕ (TokenSignal ε) β) :
    List (Event (TokenSignal ε) × Event (TokenSignal ε)) :=
  (List.range call.args.length).flatMap fun i ↦
    (movedNotification call.args[i]? start.arguments[i]?).toList.flatMap fun n ↦
      [({n}, {.subtask k (.moved i)}), ({.subtask k (.moved i)}, {n})]

namespace BodyState

def step (state : BodyState ε β) : BodyAction ε β → BodyState ε β
  | .defer call =>
      let start := call.start (.subtask state.numSubtasks) state.stores
      { state with
        stores := start.stores
        numSubtasks := state.numSubtasks + 1
        orders := state.orders ++ subtaskOrders state.numSubtasks call start ++
          movedOrders state.numSubtasks call start }
  | .waitStore store =>
      { state with
        stores := Function.update state.stores store (state.stores store).wait
        waited := state.waited ∪ (state.stores store).waitEvent }
  | .wait ev => { state with waited := state.waited ∪ ev }

def run (state : BodyState ε β) (body : List (BodyAction ε β)) : BodyState ε β :=
  body.foldl step state

end BodyState

/-! ## The writers of a store -/

/-- The signals with which the work of the subtasks that write a store ends, for
subtasks numbered from `k` on and up to the one that it is moved into. -/
def bodyWriters (s : ℕ) : ℕ → List (BodyAction ε β) → List (TokenSignal ε)
  | _, [] => []
  | k, .defer call :: body =>
      argumentWriters (.subtask k) s 0 call.args ++
        if call.args.any (DeferArgument.moves s) then [] else bodyWriters s (k + 1) body
  | k, .waitStore _ :: body => bodyWriters s k body
  | k, .wait _ :: body => bodyWriters s k body

section Body

variable {state : BodyState ε β} {s : ℕ} {c : TokenSignal ε}

theorem waited_subset_step (action : BodyAction ε β) :
    state.waited ⊆ (state.step action).waited := by
  cases action with
  | defer call => exact Finset.Subset.refl _
  | waitStore store => exact Finset.subset_union_left
  | wait ev => exact Finset.subset_union_left

theorem waited_subset_run (body : List (BodyAction ε β)) :
    state.waited ⊆ (state.run body).waited := by
  induction body generalizing state with
  | nil => exact Finset.Subset.refl _
  | cons action body ih => exact (waited_subset_step action).trans ih

theorem orders_subset_step (action : BodyAction ε β) :
    state.orders ⊆ (state.step action).orders := by
  cases action with
  | defer call =>
      rw [BodyState.step, List.append_assoc]
      exact List.subset_append_left _ _
  | waitStore store => exact List.Subset.refl _
  | wait ev => exact List.Subset.refl _

theorem orders_subset_run (body : List (BodyAction ε β)) :
    state.orders ⊆ (state.run body).orders := by
  induction body generalizing state with
  | nil => exact List.Subset.refl _
  | cons action body ih => exact List.Subset.trans (orders_subset_step action) ih

theorem mem_childRwEvent_defer {call : DeferCall ℕ (TokenSignal ε) β}
    (hmoves : ∀ argument ∈ call.args, argument.moves s = false) :
    c ∈ effectsOf ((state.step (.defer call)).stores s).childRwEvent ↔
      c ∈ effectsOf (state.stores s).childRwEvent ∨
        c ∈ argumentWriters (.subtask state.numSubtasks) s 0 call.args :=
  mem_childRwEvent_storeElements 0 hmoves

theorem mem_childRwEvent_waitStore (store : ℕ) :
    c ∈ effectsOf ((state.step (.waitStore store)).stores s).childRwEvent ↔
      s ≠ store ∧ c ∈ effectsOf (state.stores s).childRwEvent := by
  rw [BodyState.step]
  by_cases hs : s = store
  · subst hs
    simp [Store.wait, noEvent]
  · simp [hs]

theorem parentNotificationEvent_waitStore (store : ℕ) :
    ((state.step (.waitStore store)).stores s).parentNotificationEvent =
      (state.stores s).parentNotificationEvent := by
  rw [BodyState.step]
  by_cases hs : s = store
  · subst hs
    simp [Store.wait]
  · simp [hs]

/-! ### What becomes of a child -/

/-- The body has kept the child.  Its event is made of its writers, which it
keeps or has waited for. -/
structure KeptChild (state final : BodyState ε β) (s : ℕ) (n : TokenSignal ε)
    (writers : List (TokenSignal ε)) : Prop where
  parent : (final.stores s).parentNotificationEvent = some n
  effects : ∀ c ∈ effectsOf (final.stores s).childRwEvent,
    c ∈ effectsOf (state.stores s).childRwEvent ∨ c ∈ writers
  writers : ∀ c, c ∈ effectsOf (state.stores s).childRwEvent ∨ c ∈ writers →
    c ∈ effectsOf (final.stores s).childRwEvent ∨ c ∈ final.waited

/-- The body has moved the child into a subtask, where its work ends with `last`
and after the other writers. -/
structure MovedChild (state final : BodyState ε β) (s : ℕ) (n : TokenSignal ε)
    (writers : List (TokenSignal ε)) (last : TokenSignal ε) (after : Event (TokenSignal ε)) :
    Prop where
  mem : last ∈ writers
  notifies : ({last}, {n}) ∈ final.orders
  notified : ({n}, {last}) ∈ final.orders
  ordered : ({n}, after) ∈ final.orders
  writers : ∀ c, c ∈ effectsOf (state.stores s).childRwEvent ∨ c ∈ writers →
    c = last ∨ c ∈ after ∨ c ∈ final.waited

omit [DecidableEq ε] in
theorem mem_movedOrders {k i : ℕ} {call : DeferCall ℕ (TokenSignal ε) β}
    {start : TaskStart ℕ (TokenSignal ε) β} {store : Store (TokenSignal ε) β} {n : TokenSignal ε}
    (hargument : call.args[i]? = some (.moved s))
    (helement : start.arguments[i]? = some (.single (.child store)))
    (hstore : store.parentNotificationEvent = some n) :
    ({.subtask k (.moved i)}, {n}) ∈ movedOrders k call start ∧
      ({n}, {.subtask k (.moved i)}) ∈ movedOrders k call start := by
  have hi : i ∈ List.range call.args.length :=
    List.mem_range.mpr (List.getElem?_eq_some_iff.mp hargument).1
  have hn : (movedNotification call.args[i]? start.arguments[i]?).toList = [n] := by
    rw [hargument, helement, movedNotification, hstore]
    rfl
  constructor <;> exact List.mem_flatMap.mpr ⟨i, hi, by simp [hn]⟩

/-- The notification of a stored child comes after the start of the subtask and
after the writers before it. -/
theorem mem_subtaskOrders {k : ℕ} {call : DeferCall ℕ (TokenSignal ε) β}
    {start : TaskStart ℕ (TokenSignal ε) β} {store : Store (TokenSignal ε) β} {n : TokenSignal ε}
    (hchild : .single (.child store) ∈ start.arguments)
    (hstore : store.parentNotificationEvent = some n) :
    ({n}, start.precondition ∪ effectsOf store.childRwEvent) ∈ subtaskOrders k call start := by
  have hmem : .child store ∈ start.arguments.flatMap StoredElement.arguments :=
    List.mem_flatMap.mpr ⟨_, hchild, List.mem_singleton_self _⟩
  exact List.mem_append_right _ (List.mem_flatMap.mpr ⟨_, hmem, by simp [hstore]⟩)

/-- The subtask into which a child is moved. -/
theorem movedChild_of_defer {call : DeferCall ℕ (TokenSignal ε) β} {n : TokenSignal ε}
    (hparent : (state.stores s).parentNotificationEvent = some n)
    (hmoved : call.args.any (DeferArgument.moves s) = true) :
    ∃ last after, MovedChild state (state.step (.defer call)) s n
      (argumentWriters (.subtask state.numSubtasks) s 0 call.args) last after := by
  obtain ⟨i, store, hargument, helement, hstore, hmem, hwriters⟩ :=
    exists_element_of_moves hparent hmoved
  rw [Nat.zero_add] at hmem hwriters
  let start := call.start (.subtask state.numSubtasks) state.stores
  have hstart : start.arguments[i]? = some (.single (.child store)) := helement
  obtain ⟨hnotifies, hnotified⟩ :=
    mem_movedOrders (k := state.numSubtasks) hargument hstart hstore
  have hordered : ({n}, start.precondition ∪ effectsOf store.childRwEvent) ∈
      subtaskOrders state.numSubtasks call start :=
    mem_subtaskOrders (List.mem_of_getElem? hstart) hstore
  refine ⟨_, _, hmem, List.mem_append_right _ hnotifies, List.mem_append_right _ hnotified,
    List.mem_append_left _ (List.mem_append_right _ hordered), fun c hc ↦ ?_⟩
  exact (hwriters c hc).imp_right fun h ↦ Or.inl (Finset.mem_union_right _ h)

/-- The rest of the body changes nothing for a child that has been moved. -/
theorem MovedChild.run {final : BodyState ε β} {n last : TokenSignal ε}
    {writers : List (TokenSignal ε)} {after : Event (TokenSignal ε)}
    (h : MovedChild state final s n writers last after) (body : List (BodyAction ε β)) :
    MovedChild state (final.run body) s n writers last after where
  mem := h.mem
  notifies := orders_subset_run body h.notifies
  notified := orders_subset_run body h.notified
  ordered := orders_subset_run body h.ordered
  writers c hc := (h.writers c hc).imp_right fun hc ↦
    hc.imp_right fun hwaited ↦ waited_subset_run body hwaited

omit [DecidableEq ε] in
/-- One more action before the others. -/
theorem keptChild_or_movedChild_of_step {next final : BodyState ε β} {n : TokenSignal ε}
    {writers writers' : List (TokenSignal ε)}
    (heffects : ∀ c, c ∈ effectsOf (next.stores s).childRwEvent ∨ c ∈ writers' →
      c ∈ effectsOf (state.stores s).childRwEvent ∨ c ∈ writers)
    (hsubset : writers' ⊆ writers)
    (hwriters : ∀ c, c ∈ effectsOf (state.stores s).childRwEvent ∨ c ∈ writers →
      (c ∈ effectsOf (next.stores s).childRwEvent ∨ c ∈ writers') ∨ c ∈ final.waited)
    (h : KeptChild next final s n writers' ∨
      ∃ last after, MovedChild next final s n writers' last after) :
    KeptChild state final s n writers ∨
      ∃ last after, MovedChild state final s n writers last after := by
  rcases h with h | ⟨last, after, h⟩
  · refine Or.inl ⟨h.parent, fun c hc ↦ heffects c (h.effects c hc), fun c hc ↦ ?_⟩
    exact (hwriters c hc).elim (h.writers c) Or.inr
  · refine Or.inr ⟨last, after, hsubset h.mem, h.notifies, h.notified, h.ordered, fun c hc ↦ ?_⟩
    exact (hwriters c hc).elim (h.writers c) fun hwaited ↦ Or.inr (Or.inr hwaited)

/-- A child of a body is kept or moved into a subtask. -/
theorem keptChild_or_movedChild {n : TokenSignal ε} (body : List (BodyAction ε β))
    (hparent : (state.stores s).parentNotificationEvent = some n) :
    KeptChild state (state.run body) s n (bodyWriters s state.numSubtasks body) ∨
      ∃ last after, MovedChild state (state.run body) s n
        (bodyWriters s state.numSubtasks body) last after := by
  induction body generalizing state with
  | nil =>
      exact Or.inl ⟨hparent, fun c hc ↦ Or.inl hc,
        fun c hc ↦ Or.inl (hc.resolve_right List.not_mem_nil)⟩
  | cons action body ih =>
      have hrun : state.run (action :: body) = (state.step action).run body := rfl
      rw [hrun]
      cases action with
      | defer call =>
          cases hmoved : call.args.any (DeferArgument.moves s) with
          | true =>
              obtain ⟨last, after, hchild⟩ := movedChild_of_defer hparent hmoved
              rw [bodyWriters, hmoved, if_pos rfl, List.append_nil]
              exact Or.inr ⟨last, after, hchild.run body⟩
          | false =>
              have hmoves : ∀ argument ∈ call.args, argument.moves s = false := by
                simpa using hmoved
              rw [bodyWriters, hmoved, if_neg Bool.false_ne_true]
              have heffects (c : TokenSignal ε) :
                  c ∈ effectsOf ((state.step (.defer call)).stores s).childRwEvent ∨
                      c ∈ bodyWriters s (state.numSubtasks + 1) body ↔
                    c ∈ effectsOf (state.stores s).childRwEvent ∨
                      c ∈ argumentWriters (.subtask state.numSubtasks) s 0 call.args ++
                        bodyWriters s (state.numSubtasks + 1) body := by
                rw [mem_childRwEvent_defer hmoves, List.mem_append, or_assoc]
              exact keptChild_or_movedChild_of_step (fun c ↦ (heffects c).mp)
                (List.subset_append_right _ _) (fun c hc ↦ Or.inl ((heffects c).mpr hc))
                (ih ((parentNotificationEvent_storeElements 0 hmoves).trans hparent))
      | waitStore store =>
          refine keptChild_or_movedChild_of_step (fun c hc ↦ ?_) (List.Subset.refl _)
            (fun c hc ↦ ?_) (ih ((parentNotificationEvent_waitStore store).trans hparent))
          · rw [mem_childRwEvent_waitStore] at hc
            exact hc.imp_left And.right
          · rw [mem_childRwEvent_waitStore]
            by_cases hs : s = store
            · -- the wait for the store includes its writers
              subst hs
              refine hc.symm.imp Or.inr fun hc ↦ waited_subset_run body ?_
              exact Finset.mem_union_right _ (Finset.mem_union_left _ hc)
            · exact Or.inl (hc.imp_left fun hc ↦ ⟨hs, hc⟩)
      | wait ev =>
          have hnext : ((state.step (.wait ev)).stores s).parentNotificationEvent = some n :=
            hparent
          refine keptChild_or_movedChild_of_step (fun c hc ↦ ?_) (List.Subset.refl _)
            (fun c hc ↦ Or.inl ?_) (ih hnext)
          · exact hc
          · exact hc

end Body

namespace DeferRun

variable (run : DeferRun κ ε β)

def outcome : DeferOutcome κ (TokenSignal ε) β :=
  run.call.defer .main run.syncTo run.stores

/-- The store that the body gets for an argument of type `Store<T>`. -/
def children (position : ℕ) : Store (TokenSignal ε) β :=
  match run.call.args[position]?, run.outcome.arguments[position]? with
  | some (.openStore _), some (.single (.child store)) => store
  | some (.moved _), some (.single (.child store)) => store
  | _, _ => {}

def initial : BodyState ε β := { stores := run.children }

def final : BodyState ε β := run.initial.run run.body

/-- The events that the destructors of the children trigger. -/
def notified : List (TokenSignal ε × Event (TokenSignal ε)) :=
  (List.range run.call.args.length).filterMap fun position ↦
    ((run.final.stores position).destroy false).notification

/-- The events that `FulfillPromises` triggers. -/
def fulfilled : List (TokenSignal ε × Event (TokenSignal ε)) :=
  run.call.deferredResults.map fun i ↦ (.main (.result i), run.returns i)

/-- The task completes after its body has returned, and the body returns after
what it has waited for.  The events it triggers then are triggered exactly when
what they are triggered with is. -/
def orders : List (Event (TokenSignal ε) × Event (TokenSignal ε)) :=
  ({.main .completion}, {.returned}) ::
    ({.returned}, run.outcome.precondition ∪ run.final.waited) ::
    ((run.notified ++ run.fulfilled).flatMap fun trigger ↦
      [({trigger.1}, insert .returned trigger.2), (insert .returned trigger.2, {trigger.1})]) ++
    run.final.orders ++ run.facts

/-- Whenever the event has triggered, the task is done, its futures are ready and
its children have notified their parents. -/
def Covers (event : Event (TokenSignal ε)) : Prop :=
  ∀ triggered : Set (TokenSignal ε), EventImplication.World run.orders triggered →
    (event : Set (TokenSignal ε)) ⊆ triggered →
    .main .completion ∈ triggered ∧
      (∀ future ∈ run.outcome.token.futures,
        (future.precondition : Set (TokenSignal ε)) ⊆ triggered) ∧
      ∀ element ∈ run.outcome.arguments, ∀ n ∈ element.notifications, n ∈ triggered

/-- The event of the token, and that of the barrier, cover all effects. -/
def TokenCovers : Prop :=
  run.Covers run.outcome.token.event ∧
    ∀ barrier ∈ run.outcome.barrier, run.Covers barrier.waitEvent

/-- The end of the task, the futures that it returns, and what the stores that
were passed to it were waiting for. -/
def known : Event (TokenSignal ε) :=
  insert (.main .completion) (mergeAll (run.fulfilled.map Prod.snd) ∪
    mergeAll (run.outcome.arguments.flatMap addRealmEventPostcondition))

/-- Every subtask that was started to write an open-ended child, or into which one
was moved, is waited for. -/
def WritersAwaited : Prop :=
  ∀ position, (run.children position).parentNotificationEvent.isSome →
    ∀ writer ∈ bodyWriters position 0 run.body, Implied run.orders ∅ run.known writer

/-! ## The children of the body -/

section Children

variable {run : DeferRun κ ε β} {position : ℕ} {n : TokenSignal ε}

/-- The body gets the stored child, and a task with such a child has a deferred
parameter. -/
theorem child_of_parent (h : (run.children position).parentNotificationEvent = some n) :
    .single (.child (run.children position)) ∈ run.outcome.arguments ∧
      ∃ argument ∈ run.call.args, argument.isDeferred = true := by
  unfold children at h ⊢
  split at h
  · rename_i hargument helement
    exact ⟨List.mem_of_getElem? helement, _, List.mem_of_getElem? hargument, rfl⟩
  · rename_i hargument helement
    exact ⟨List.mem_of_getElem? helement, _, List.mem_of_getElem? hargument, rfl⟩
  · cases h

/-- The stored stores whose parents wait for them are children of the body. -/
theorem exists_child_of_mem_notifications {element : StoredElement (TokenSignal ε) β}
    (helement : element ∈ run.outcome.arguments) (hn : n ∈ element.notifications) :
    ∃ position, (run.children position).parentNotificationEvent = some n := by
  obtain ⟨position, hposition⟩ := List.getElem?_of_mem helement
  obtain ⟨argument, stores, hargument, rfl⟩ := getElem?_storeElements hposition
  refine ⟨position, ?_⟩
  rcases mem_notifications_storeElement.mp hn with ⟨⟨store, rfl⟩, rfl⟩ | ⟨store, rfl, hparent⟩
  · rw [children, hargument, hposition]
    rfl
  · rw [children, hargument, hposition]
    exact hparent

theorem position_lt_of_parent (h : (run.children position).parentNotificationEvent = some n) :
    position < run.call.args.length := by
  by_contra hge
  rw [children, List.getElem?_eq_none (not_lt.mp hge)] at h
  cases h

/-- The destructor of a child that the body has kept triggers its event after the
writers that were started on it. -/
theorem notification_mem_notified {writers : List (TokenSignal ε)}
    (h : (run.children position).parentNotificationEvent = some n)
    (hkept : KeptChild run.initial run.final position n writers) :
    (n, effectsOf (run.final.stores position).childRwEvent) ∈ run.notified := by
  refine List.mem_filterMap.mpr ⟨position, List.mem_range.mpr (position_lt_of_parent h), ?_⟩
  rw [Store.destroy, hkept.parent]
  rfl

end Children

/-! ## What events imply -/

section Orders

variable {run : DeferRun κ ε β} {event : Event (TokenSignal ε)} {c : TokenSignal ε}

theorem implied_returned (h : .main .completion ∈ event) :
    Implied run.orders ∅ event .returned :=
  .order (p := ({.main .completion}, {.returned})) (by simp [orders])
    (fun _ hb ↦ .mem (Finset.mem_singleton.mp hb ▸ h)) (Finset.mem_singleton_self _)

theorem implied_of_mem_waited (h : .main .completion ∈ event) (hc : c ∈ run.final.waited) :
    Implied run.orders ∅ event c :=
  .order (p := ({.returned}, run.outcome.precondition ∪ run.final.waited)) (by simp [orders])
    (fun _ hb ↦ Finset.mem_singleton.mp hb ▸ implied_returned h) (Finset.mem_union_right _ hc)

/-- An event that the body triggers implies what it is triggered with. -/
theorem implied_of_trigger {trigger : TokenSignal ε × Event (TokenSignal ε)}
    (htrigger : trigger ∈ run.notified ++ run.fulfilled)
    (h : Implied run.orders ∅ event trigger.1) (hc : c ∈ trigger.2) :
    Implied run.orders ∅ event c := by
  have hmem : ({trigger.1}, insert .returned trigger.2) ∈ run.orders := by
    simp only [orders, List.cons_append, List.mem_cons, List.mem_append, List.mem_flatMap]
    exact Or.inr (Or.inr (Or.inl (Or.inl ⟨trigger, List.mem_append.mp htrigger, by simp⟩)))
  exact .order hmem (fun _ hb ↦ Finset.mem_singleton.mp hb ▸ h) (Finset.mem_insert_of_mem hc)

theorem implied_trigger {trigger : TokenSignal ε × Event (TokenSignal ε)}
    (htrigger : trigger ∈ run.notified ++ run.fulfilled) (hcompletion : .main .completion ∈ event)
    (h : ∀ c ∈ trigger.2, Implied run.orders ∅ event c) :
    Implied run.orders ∅ event trigger.1 := by
  have hmem : (insert .returned trigger.2, {trigger.1}) ∈ run.orders := by
    simp only [orders, List.cons_append, List.mem_cons, List.mem_append, List.mem_flatMap]
    exact Or.inr (Or.inr (Or.inl (Or.inl ⟨trigger, List.mem_append.mp htrigger, by simp⟩)))
  refine .order hmem ?_ (Finset.mem_singleton_self _)
  intro b hb
  rcases Finset.mem_insert.mp hb with rfl | hb
  · exact implied_returned hcompletion
  · exact h b hb

omit [DecidableEq κ] [DecidableEq ε] in
theorem fulfilled_of_mem_deferredResults {i : ℕ} (hi : i ∈ run.call.deferredResults) :
    (.main (.result i), run.returns i) ∈ run.fulfilled :=
  List.mem_map.mpr ⟨i, hi, rfl⟩

/-- The event of the token is known after the end of the task, the futures that
it returns and what its stores were waiting for. -/
theorem implied_known_of_mem_token (hc : c ∈ run.outcome.token.event) :
    Implied run.orders ∅ run.known c := by
  have hcompletion : .main .completion ∈ run.known := Finset.mem_insert_self _ _
  rcases mem_allEffectsDone hc with rfl | ⟨i, hi, rfl⟩ | hc
  · exact .mem hcompletion
  · have htrigger := fulfilled_of_mem_deferredResults hi
    apply implied_trigger (List.mem_append_right _ htrigger) hcompletion
    intro b hb
    apply Implied.mem
    apply Finset.mem_insert_of_mem
    apply Finset.mem_union_left
    exact subset_mergeAll (List.mem_map_of_mem htrigger) hb
  · exact .mem (Finset.mem_insert_of_mem (Finset.mem_union_right _ hc))

theorem implied_token_of_mem_known {argument : DeferArgument κ (TokenSignal ε) β}
    (hargument : argument ∈ run.call.args) (hdeferred : argument.isDeferred = true)
    (hc : c ∈ run.known) : Implied run.orders ∅ run.outcome.token.event c := by
  rcases Finset.mem_insert.mp hc with rfl | hc
  · exact .mem completion_mem_allEffectsDone
  rcases Finset.mem_union.mp hc with hc | hc
  · obtain ⟨event, hevent, hc⟩ := mem_mergeAll.mp hc
    obtain ⟨trigger, htrigger, rfl⟩ := List.mem_map.mp hevent
    obtain ⟨i, hi, rfl⟩ := List.mem_map.mp htrigger
    exact implied_of_trigger (List.mem_append_right _ htrigger)
      (.mem (result_mem_allEffectsDone hi)) hc
  · exact .mem (stored_subset_allEffectsDone hargument hdeferred hc)

theorem implied_of_mem_final {p : Event (TokenSignal ε) × Event (TokenSignal ε)}
    (hp : p ∈ run.final.orders) (h : ∀ b ∈ p.1, Implied run.orders ∅ event b) (hc : c ∈ p.2) :
    Implied run.orders ∅ event c :=
  .order (List.mem_append_left _ (List.mem_append_right _ hp)) h hc

end Orders

/-! ## The token -/

section Token

variable {run : DeferRun κ ε β} {position : ℕ} {n : TokenSignal ε}

/-- What the body does with a child. -/
theorem kept_or_moved (h : (run.children position).parentNotificationEvent = some n) :
    KeptChild run.initial run.final position n (bodyWriters position 0 run.body) ∨
      ∃ last after, MovedChild run.initial run.final position n
        (bodyWriters position 0 run.body) last after :=
  keptChild_or_movedChild run.body h

theorem implied_writer (h : (run.children position).parentNotificationEvent = some n)
    (hn : Implied run.orders ∅ run.outcome.token.event n)
    {writer : TokenSignal ε} (hwriter : writer ∈ bodyWriters position 0 run.body) :
    Implied run.orders ∅ run.outcome.token.event writer := by
  have hsingle {m : TokenSignal ε} (hm : m ∈ ({n} : Event (TokenSignal ε))) :
      Implied run.orders ∅ run.outcome.token.event m := Finset.mem_singleton.mp hm ▸ hn
  rcases kept_or_moved h with hkept | ⟨last, after, hmoved⟩
  · rcases hkept.writers writer (Or.inr hwriter) with hfinal | hwaited
    · exact implied_of_trigger (List.mem_append_left _ (notification_mem_notified h hkept)) hn
        hfinal
    · exact implied_of_mem_waited completion_mem_allEffectsDone hwaited
  · rcases hmoved.writers writer (Or.inr hwriter) with rfl | hafter | hwaited
    · exact implied_of_mem_final hmoved.notified (fun _ ↦ hsingle) (Finset.mem_singleton_self _)
    · exact implied_of_mem_final hmoved.ordered (fun _ ↦ hsingle) hafter
    · exact implied_of_mem_waited completion_mem_allEffectsDone hwaited

theorem implied_notification (h : (run.children position).parentNotificationEvent = some n)
    (hwriters : ∀ writer ∈ bodyWriters position 0 run.body,
      Implied run.orders ∅ run.outcome.token.event writer) :
    Implied run.orders ∅ run.outcome.token.event n := by
  rcases kept_or_moved h with hkept | ⟨last, after, hmoved⟩
  · apply implied_trigger (List.mem_append_left _ (notification_mem_notified h hkept))
      completion_mem_allEffectsDone
    intro c hc
    rcases hkept.effects c hc with hc | hc
    · -- what the child was waiting for is a part of the token
      obtain ⟨hchild, argument, hargument, hdeferred⟩ := child_of_parent h
      apply Implied.mem
      apply stored_subset_allEffectsDone hargument hdeferred
      apply precondition_subset_of_child hchild
      rw [Store.precondition_eq]
      exact Finset.mem_union_right _ hc
    · exact hwriters c hc
  · refine implied_of_mem_final hmoved.notifies (fun b hb ↦ ?_) (Finset.mem_singleton_self _)
    exact Finset.mem_singleton.mp hb ▸ hwriters last hmoved.mem

theorem covers_of_implied
    (h : ∀ position n, (run.children position).parentNotificationEvent = some n →
      Implied run.orders ∅ run.outcome.token.event n) :
    run.Covers run.outcome.token.event := by
  intro triggered hworld htoken
  refine ⟨htoken completion_mem_allEffectsDone, ?_, ?_⟩
  · intro future hfuture
    exact (Finset.coe_subset.mpr (precondition_subset_allEffectsDone hfuture)).trans htoken
  · intro element helement n hn
    obtain ⟨position, hparent⟩ := exists_child_of_mem_notifications helement hn
    exact (h position n hparent).mem_world hworld (by simp) htoken

theorem implied_of_covers (hcovers : run.Covers run.outcome.token.event)
    (h : (run.children position).parentNotificationEvent = some n) :
    Implied run.orders ∅ run.outcome.token.event n := by
  obtain ⟨hchild, -⟩ := child_of_parent h
  have hall := hcovers {c | Implied run.orders ∅ run.outcome.token.event c} world_implied
    fun _ hc ↦ .mem hc
  refine hall.2.2 _ hchild _ ?_
  simp [StoredElement.notifications, StoredElement.arguments, StoredArgument.notification, h]

theorem covers_barrier (hcovers : run.Covers run.outcome.token.event)
    {barrier : EventBarrier (TokenSignal ε)} (hbarrier : run.outcome.barrier = some barrier) :
    run.Covers barrier.waitEvent := by
  obtain ⟨old, -, rfl⟩ := Option.map_eq_some_iff.mp hbarrier
  intro triggered hworld hevent
  refine hcovers triggered hworld (Set.Subset.trans (Finset.coe_subset.mpr ?_) hevent)
  exact subset_mergeAll (List.mem_append_right _ (List.mem_singleton_self _))

end Token

/-- A body that starts a subtask on its child and returns at once. -/
def slowWriter : DeferRun Unit Unit Unit where
  stores := fun _ ↦ Store.create ()
  call := { args := [.openStore ()] }
  body := [.defer { args := [.store 0 .write] }]

end DeferRun

end Zuku
