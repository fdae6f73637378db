import Zuku.Library.WaitGraph
import Zuku.TaskAliasing

/-!
# Calls between which stores have children and views

A program calls `defer`, and between the calls it makes open-ended children and
views of its stores, gives them events and destroys them.  The notification of a
child is no event of the environment: `~Store` triggers it after the tasks that
have written the child, and these may wait for the notification themselves.
-/

namespace Zuku

open Event EventPrecondition Relation

variable {ε β κ ν σ : Type}

/-- The calls so far, the stores and views under their names, and the user
events of the children and views that have been destroyed, each with the event
that triggers it. -/
structure Session (κ ν σ ε β : Type) where
  program : List (Call κ ν σ ε) := []
  deferred : Deferred κ ε β
  views : κ → View (Completion ε) β := fun _ ↦ {}
  notified : List (Completion ε × Event (Completion ε)) := []

/-- `~Store` would trigger the notification after this completion. -/
def Store.Notifies (store : Store ε β) (notification c : ε) : Prop :=
  store.parentNotificationEvent = some notification ∧ c ∈ effectsOf store.childRwEvent

/-- `~View` would trigger the reader event after this completion. -/
def View.Notifies [DecidableEq ε] (view : View ε β) (reader c : ε) : Prop :=
  view.warDependency = some reader ∧ c ∈ mergeAll view.views

/-- The task with this number triggers the completion. -/
def Signals [DecidableEq ε] (program : List (Call κ ν σ ε)) (task : ℕ) :
    Set (Completion ε) :=
  {c | ∃ call, program[task]? = some call ∧ c ∈ call.signals task}

namespace Session

section Definitions

variable [DecidableEq ε] [DecidableEq κ] (session : Session κ ν σ ε β)

def setStore (name : κ) (store : Store (Completion ε) β) : Session κ ν σ ε β :=
  { session with
    deferred.stores := Function.update session.deferred.stores name store }

def setView (name : κ) (view : View (Completion ε) β) : Session κ ν σ ε β :=
  { session with views := Function.update session.views name view }

/-- `child()` of a store, with the user event created for it. -/
def child (parent name : κ) (notification : Completion ε) : Session κ ν σ ε β :=
  let (child, store) := (session.deferred.stores parent).child notification
  (session.setStore parent store).setStore name child

/-- `~Store`. -/
def destroyStore (name : κ) : Session κ ν σ ε β :=
  { session.setStore name {} with
    notified := ((session.deferred.stores name).destroy false).notification.toList ++
      session.notified }

/-- Moving a store to another one, which is a child in its place. -/
def moveStore (name target : κ) : Session κ ν σ ε β :=
  (session.setStore name (session.deferred.stores name).movedFrom).setStore target
    (session.deferred.stores name)

/-- `view()` of a store, with the user event created for it. -/
def view (parent name : κ) (reader : Completion ε) : Session κ ν σ ε β :=
  let (view, store) := (session.deferred.stores parent).view reader
  (session.setStore parent store).setView name view

/-- `view()` of a view. -/
def subview (parent name : κ) (reader : Completion ε) : Session κ ν σ ε β :=
  let (subview, view) := (session.views parent).subview reader
  (session.setView parent view).setView name subview

/-- `DoneAfter` of a view. -/
def doneAfter (name : κ) (event : Event (Completion ε)) : Session κ ν σ ε β :=
  session.setView name ((session.views name).doneAfter event)

/-- `~View`. -/
def destroyView (name : κ) : Session κ ν σ ε β :=
  { session.setView name {} with
    notified := (session.views name).destroy.toList ++ session.notified }

def defer (call : Call κ ν σ ε) : Session κ ν σ ε β :=
  { session with
    program := session.program ++ [call]
    deferred := Zuku.defer session.deferred call }

end Definitions

/-! ## Who waits for whom -/

section Waits

variable [DecidableEq ε] (session : Session κ ν σ ε β)

/-- The user event of a child or a view triggers only after this completion.
Those that live are destroyed where the program ends. -/
def NotifiedAfter (notification c : Completion ε) : Prop :=
  (∃ name, (session.deferred.stores name).Notifies notification c) ∨
    (∃ name, (session.views name).Notifies notification c) ∨
      ∃ event, (notification, event) ∈ session.notified ∧ c ∈ event

/-- The second completion triggers only after the first: because of the task
that triggers it, or because it is the user event of a child or a view. -/
def Precedes (c d : Completion ε) : Prop :=
  (∃ task, d ∈ Signals session.program task ∧
    c ∈ Waits session.deferred.preconditions task) ∨ session.NotifiedAfter d c

/-- Task `j` waits for something that task `i` triggers, at once or through
other tasks, children and views. -/
def TaskWaitsFor (i j : ℕ) : Prop :=
  ∃ c ∈ Signals session.program i, ∃ d ∈ Waits session.deferred.preconditions j,
    ReflTransGen session.Precedes c d

/-- What the stores of a call and its context make the task wait for. -/
def Awaits (call : Call κ ν σ ε) (c : Completion ε) : Prop :=
  (∃ after ∈ call.context.after, c ∈ after) ∨
    ∃ use ∈ call.uses,
      c ∈ (session.deferred.stores use.1).waitsFor call.context.streamOrdered.isSome use.2

/-- A call uses every store once or only reads it, and what it waits for does
not wait for the notification of a living child that it writes. -/
def Careful (call : Call κ ν σ ε) : Prop :=
  ReadsAliasesOnly call.uses ∧
    ∀ name ∈ call.written,
      ∀ notification ∈ (session.deferred.stores name).parentNotificationEvent,
        ∀ c, session.Awaits call c → ¬ReflTransGen session.Precedes notification c

/-- A use of a store by hand keeps it the child that it is.  What it adds to the
effects of a living child does not wait for the notification of the child. -/
structure KeepsChild (store store' : Store (Completion ε) β) : Prop where
  notification : store'.parentNotificationEvent = store.parentNotificationEvent
  effects : ∀ notification ∈ store.parentNotificationEvent,
    effectsOf store.childRwEvent ⊆ effectsOf store'.childRwEvent
  added : ∀ notification ∈ store.parentNotificationEvent,
    ∀ c ∈ effectsOf store'.childRwEvent, c ∈ effectsOf store.childRwEvent ∨
      ¬ReflTransGen session.Precedes notification c

end Waits

/-! ## Sessions that a program can reach -/

/-- What a program does between its calls, and the completions that exist
before and after.  A store is used in any other way with events that exist by
then, among them new ones of the environment. -/
inductive Use [DecidableEq ε] [DecidableEq κ] (session : Session κ ν σ ε β)
    (known : Set (Completion ε)) : Session κ ν σ ε β → Set (Completion ε) → Prop where
  | store {name : κ} {store : Store (Completion ε) β} {known' : Set (Completion ε)} :
      known ⊆ known' → (∀ task, .task task ∈ known' → .task task ∈ known) →
      store.Within known' → session.KeepsChild (session.deferred.stores name) store →
      Use session known (session.setStore name store) known'
  | child {parent name : κ} {e : ε} :
      name ≠ parent → (session.deferred.stores name).parentNotificationEvent = none →
      .external e ∉ known →
      Use session known (session.child parent name (.external e)) (insert (.external e) known)
  | destroyStore {name : κ} : Use session known (session.destroyStore name) known
  | moveStore {name target : κ} :
      target ≠ name → (session.deferred.stores target).parentNotificationEvent = none →
      Use session known (session.moveStore name target) known
  | view {parent name : κ} {e : ε} :
      (session.views name).warDependency = none → .external e ∉ known →
      Use session known (session.view parent name (.external e)) (insert (.external e) known)
  | subview {parent name : κ} {e : ε} :
      name ≠ parent → (session.views name).warDependency = none → .external e ∉ known →
      Use session known (session.subview parent name (.external e)) (insert (.external e) known)
  | doneAfter {name : κ} {event : Event (Completion ε)} :
      (∀ c ∈ event, c ∈ known) →
      (∀ reader ∈ (session.views name).warDependency, ∀ c ∈ event,
        ¬ReflTransGen session.Precedes reader c) →
      Use session known (session.doneAfter name event) known
  | destroyView {name : κ} : Use session known (session.destroyView name) known

/-- The calls of a program, each with the session before it, the session that
they reach and the completions that exist. -/
inductive History [DecidableEq ε] [DecidableEq κ] :
    List (Session κ ν σ ε β × Call κ ν σ ε) → Session κ ν σ ε β → Set (Completion ε) → Prop where
  | start {stores : κ → Store (Completion ε) β} {known : Set (Completion ε)} :
      (∀ task, .task task ∉ known) → (∀ name, (stores name).Within known) →
      (∀ name, (stores name).parentNotificationEvent = none) →
      History [] { deferred := ⟨stores, []⟩ } known
  | use {calls : List (Session κ ν σ ε β × Call κ ν σ ε)} {session session' : Session κ ν σ ε β}
      {known known' : Set (Completion ε)} :
      History calls session known → Use session known session' known' →
      History calls session' known'
  | defer {calls : List (Session κ ν σ ε β × Call κ ν σ ε)} {session : Session κ ν σ ε β}
      {known : Set (Completion ε)} {call : Call κ ν σ ε} :
      History calls session known → call.context.MadeOf known →
      History (calls ++ [(session, call)]) (session.defer call)
        (known ∪ {c | c ∈ call.signals session.deferred.preconditions.length})

/-! ## What an operation adds -/

section Operations

variable [DecidableEq ε] [DecidableEq κ] {session : Session κ ν σ ε β} {name parent : κ}
  {n c : Completion ε}

omit [DecidableEq ε] in
theorem exists_update_or {α : Type} {f : κ → α} {a : α} {p : α → Prop}
    (hkeep : p (f name) → p a) :
    (∃ x, p (Function.update f name a x)) ↔ p a ∨ ∃ x, p (f x) := by
  rw [Function.exists_update_iff f (p := fun _ a ↦ p a)]
  constructor
  · rintro (ha | ⟨x, -, hx⟩)
    · exact Or.inl ha
    · exact Or.inr ⟨x, hx⟩
  · rintro (ha | ⟨x, hx⟩)
    · exact Or.inl ha
    · by_cases hname : x = name
      · exact Or.inl (hkeep (hname ▸ hx))
      · exact Or.inr ⟨x, hname, hx⟩

theorem notifiedAfter_setStore {store : Store (Completion ε) β}
    (hkeep : (session.deferred.stores name).Notifies n c → store.Notifies n c) :
    (session.setStore name store).NotifiedAfter n c ↔
      store.Notifies n c ∨ session.NotifiedAfter n c := by
  have hstores := exists_update_or (p := fun s : Store (Completion ε) β ↦ s.Notifies n c) hkeep
  exact (or_congr_left hstores).trans or_assoc

theorem notifiedAfter_setView {view : View (Completion ε) β}
    (hkeep : (session.views name).Notifies n c → view.Notifies n c) :
    (session.setView name view).NotifiedAfter n c ↔
      view.Notifies n c ∨ session.NotifiedAfter n c := by
  have hviews := exists_update_or (p := fun v : View (Completion ε) β ↦ v.Notifies n c) hkeep
  exact (or_congr_right ((or_congr_left hviews).trans or_assoc)).trans or_left_comm

/-- A new child takes over the effects of its parent, and a parent that is a
child itself waits for it. -/
theorem notifiedAfter_child {new : Completion ε} (hname : name ≠ parent)
    (hfree : (session.deferred.stores name).parentNotificationEvent = none) :
    (session.child parent name new).NotifiedAfter n c ↔
      (n = new ∧ c ∈ effectsOf (session.deferred.stores parent).childRwEvent) ∨
        ((session.deferred.stores parent).parentNotificationEvent = some n ∧ c = new) ∨
        session.NotifiedAfter n c := by
  have hparent : (session.deferred.stores parent).Notifies n c →
      ((session.deferred.stores parent).readyAfter {new} {new}).Notifies n c := by
    intro h
    refine ⟨h.1, ?_⟩
    rw [Store.effectsOf_childRwEvent_readyAfter]
    exact Finset.mem_union_right _ h.2
  have hold : (session.deferred.stores parent).Notifies n c → session.NotifiedAfter n c :=
    fun h ↦ Or.inl ⟨parent, h⟩
  rw [child, Store.child, notifiedAfter_setStore, notifiedAfter_setStore hparent]
  · simp only [Store.Notifies, Store.newChild, Store.effectsOf_childRwEvent_readyAfter,
      Option.some.injEq, Finset.mem_union, Finset.mem_singleton] at hold ⊢
    grind [Store.readyAfter]
  · intro h
    have hnone : (session.deferred.stores name).parentNotificationEvent = some n := by
      simpa [setStore, hname] using h.1
    exact absurd (hfree.symm.trans hnone) (by simp)

omit [DecidableEq ε] in
theorem or_exists_update {α : Type} {f : κ → α} {a : α} {p : α → Prop} (ha : ¬p a) :
    (p (f name) ∨ ∃ x, p (Function.update f name a x)) ↔ ∃ x, p (f x) := by
  rw [Function.exists_update_iff f (p := fun _ a ↦ p a), or_iff_right ha]
  constructor
  · rintro (hx | ⟨x, -, hx⟩)
    · exact ⟨name, hx⟩
    · exact ⟨x, hx⟩
  · rintro ⟨x, hx⟩
    by_cases hname : x = name
    · exact Or.inl (hname ▸ hx)
    · exact Or.inr ⟨x, hname, hx⟩

omit [DecidableEq ε] [DecidableEq κ] in
theorem exists_mem_toList_append {o : Option (Completion ε)} {event : Event (Completion ε)}
    {notified : List (Completion ε × Event (Completion ε))} :
    (∃ e, (n, e) ∈ (o.map fun m ↦ (m, event)).toList ++ notified ∧ c ∈ e) ↔
      (o = some n ∧ c ∈ event) ∨ ∃ e, (n, e) ∈ notified ∧ c ∈ e := by
  cases o with
  | none => simp
  | some m =>
      simp only [Option.map_some, Option.toList_some, List.cons_append, List.nil_append,
        List.mem_cons, or_and_right, exists_or, Prod.mk.injEq, Option.some.injEq]
      refine or_congr_left ⟨?_, ?_⟩
      · rintro ⟨e, ⟨rfl, rfl⟩, hc⟩
        exact ⟨rfl, hc⟩
      · rintro ⟨rfl, hc⟩
        exact ⟨event, ⟨rfl, rfl⟩, hc⟩

/-- What a child has triggered its notification with stays known. -/
theorem notifiedAfter_destroyStore :
    (session.destroyStore name).NotifiedAfter n c ↔ session.NotifiedAfter n c := by
  have hstores : ((session.deferred.stores name).Notifies n c ∨
      ∃ x, ((session.destroyStore name).deferred.stores x).Notifies n c) ↔
        ∃ x, (session.deferred.stores x).Notifies n c :=
    or_exists_update (p := fun s : Store (Completion ε) β ↦ s.Notifies n c)
      (by simp [Store.Notifies])
  refine (or_congr_right (or_congr_right exists_mem_toList_append)).trans ?_
  rw [NotifiedAfter, ← hstores]
  exact (or_congr_right or_left_comm).trans (or_left_comm.trans or_assoc.symm)

/-- A child that is moved notifies its parent from where it is then. -/
theorem notifiedAfter_moveStore {target : κ} (hne : target ≠ name)
    (hfree : (session.deferred.stores target).parentNotificationEvent = none) :
    (session.moveStore name target).NotifiedAfter n c ↔ session.NotifiedAfter n c := by
  refine or_congr_left ⟨?_, ?_⟩
  · rintro ⟨x, hx⟩
    by_cases htarget : x = target
    · exact ⟨name, by simpa [htarget, moveStore, setStore] using hx⟩
    by_cases hname : x = name
    · simp [hname, hne.symm, moveStore, setStore, Store.Notifies, Store.movedFrom] at hx
    · exact ⟨x, by simpa [htarget, hname, moveStore, setStore] using hx⟩
  · rintro ⟨x, hx⟩
    have htarget : x ≠ target := by
      rintro rfl
      exact absurd (hfree.symm.trans hx.1) (by simp)
    by_cases hname : x = name
    · exact ⟨target, by simpa [hname, moveStore, setStore] using hx⟩
    · exact ⟨x, by simpa [htarget, hname, moveStore, setStore] using hx⟩

/-- A new view has no subviews, and no child waits for it. -/
theorem notifiedAfter_view {new : Completion ε}
    (hfree : (session.views name).warDependency = none) :
    (session.view parent name new).NotifiedAfter n c ↔ session.NotifiedAfter n c := by
  have hold : (session.deferred.stores parent).Notifies n c → session.NotifiedAfter n c :=
    fun h ↦ Or.inl ⟨parent, h⟩
  have hview : ¬({ (session.deferred.stores parent).unsafeView with
      warDependency := some new } : View (Completion ε) β).Notifies n c := by
    simp [View.Notifies, Store.unsafeView]
  rw [view, Store.view, notifiedAfter_setView, notifiedAfter_setStore, or_iff_right hview]
  · exact or_iff_right_of_imp hold
  · exact id
  · intro h
    exact absurd (hfree.symm.trans h.1) (by simp)

theorem notifiedAfter_doneAfter {event : Event (Completion ε)} :
    (session.doneAfter name event).NotifiedAfter n c ↔
      ((session.views name).warDependency = some n ∧ c ∈ event) ∨
        session.NotifiedAfter n c := by
  have hold : (session.views name).Notifies n c → session.NotifiedAfter n c :=
    fun h ↦ Or.inr (Or.inl ⟨name, h⟩)
  have hview : ((session.views name).doneAfter event).Notifies n c ↔
      ((session.views name).warDependency = some n ∧ c ∈ event) ∨
        (session.views name).Notifies n c := by
    simp only [View.Notifies, View.doneAfter, mem_mergeAll, List.mem_append, List.mem_singleton]
    grind
  rw [doneAfter, notifiedAfter_setView, hview]
  · grind
  · exact fun h ↦ hview.mpr (Or.inr h)

/-- A view waits for its subviews. -/
theorem notifiedAfter_subview {new : Completion ε} (hname : name ≠ parent)
    (hfree : (session.views name).warDependency = none) :
    (session.subview parent name new).NotifiedAfter n c ↔
      ((session.views parent).warDependency = some n ∧ c = new) ∨
        session.NotifiedAfter n c := by
  have hsubview : ¬({ precondition := (session.views parent).precondition
                      warDependency := some new
                      value := (session.views parent).value } :
      View (Completion ε) β).Notifies n c := by
    simp [View.Notifies]
  have hparent : (session.doneAfter parent {new}).NotifiedAfter n c ↔
      ((session.views parent).warDependency = some n ∧ c = new) ∨
        session.NotifiedAfter n c := by
    rw [notifiedAfter_doneAfter, Finset.mem_singleton]
  rw [subview, View.subview, notifiedAfter_setView, or_iff_right hsubview]
  · exact hparent
  · intro h
    have hsome : (session.views name).warDependency = some n := by
      simpa [setView, hname] using h.1
    exact absurd (hfree.symm.trans hsome) (by simp)

/-- What a view has triggered its reader event with stays known. -/
theorem notifiedAfter_destroyView :
    (session.destroyView name).NotifiedAfter n c ↔ session.NotifiedAfter n c := by
  have hviews : ((session.views name).Notifies n c ∨
      ∃ x, ((session.destroyView name).views x).Notifies n c) ↔
        ∃ x, (session.views x).Notifies n c :=
    or_exists_update (p := fun v : View (Completion ε) β ↦ v.Notifies n c)
      (by simp [View.Notifies])
  refine (or_congr_right (or_congr_right exists_mem_toList_append)).trans ?_
  rw [NotifiedAfter, ← hviews]
  exact or_congr_right (or_left_comm.trans or_assoc.symm)

end Operations

end Session

end Zuku
