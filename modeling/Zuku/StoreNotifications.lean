import Zuku.StoreTree
import Zuku.Library.ListLookup

/-!
# Notifications of moved stores

The store objects of a program with the special member functions of `Store`.
The duty to trigger the event of a parent goes from object to object by moves,
and the destructor of the last one fulfils it.  An assignment overwrites the
duty that its target has.
-/

namespace Zuku

open Event EventPrecondition ListLookup

/-- The store objects by the number of their creation, without those that have
been destroyed, and the events that destructors have triggered.  `child()`
creates the events of parents one after the other. -/
structure StoreObjects (ε β : Type) where
  objects : List (Option (Store (TreeSignal ε) β)) := []
  numNotifications : ℕ := 0
  triggers : List (TreeSignal ε × Event (TreeSignal ε)) := []

inductive ObjectAction (ε β : Type) where
  | create (value : β)
  | deferredCreate (createEvent : Event (TreeSignal ε)) (value : β)
  | createEmpty
  | child (i : ℕ)
  | moveConstruct (source : ℕ)
  | moveAssign (target source : ℕ)
  | destroy (i : ℕ)

variable {ε β : Type} [DecidableEq ε]

namespace StoreObjects

variable (state : StoreObjects ε β)

def live (i : ℕ) : Option (Store (TreeSignal ε) β) := state.objects[i]?.join

def push (store : Store (TreeSignal ε) β) : StoreObjects ε β :=
  { state with objects := state.objects ++ [some store] }

def step : ObjectAction ε β → Option (StoreObjects ε β)
  | .create value => some (state.push (Store.create value))
  | .deferredCreate createEvent value => some (state.push (Store.deferredCreate createEvent value))
  | .createEmpty => some (state.push {})
  | .child i => do
      let store ← state.live i
      let (child, store) := store.child (.notification state.numNotifications)
      pure { state with
        objects := state.objects.set i (some store) ++ [some child]
        numNotifications := state.numNotifications + 1 }
  | .moveConstruct source => do
      let store ← state.live source
      pure { state with
        objects := state.objects.set source (some store.movedFrom) ++ [some store] }
  | .moveAssign target source => do
      let _ ← state.live target
      let store ← state.live source
      -- the fields are taken over one by one, those of the source are cleared last
      pure { state with
        objects := (state.objects.set target (some store)).set source (some store.movedFrom) }
  | .destroy i => do
      let store ← state.live i
      pure { state with
        objects := state.objects.set i none
        triggers := state.triggers ++ (store.destroy false).notification.toList }

def run : StoreObjects ε β → List (ObjectAction ε β) → Option (StoreObjects ε β)
  | state, [] => some state
  | state, action :: actions => do
      let state ← state.step action
      run state actions

/-- How often an event of a parent has been triggered. -/
def triggered (n : ℕ) : ℕ := state.triggers.countP fun trigger ↦ trigger.1 = .notification n

/-- An event of a parent that no store holds any more has been triggered once,
and none has been triggered twice. -/
def Delivered : Prop :=
  ∀ n < state.numNotifications,
    ((∀ store, some store ∈ state.objects →
      store.parentNotificationEvent ≠ some (.notification n)) → state.triggered n = 1) ∧
    state.triggered n ≤ 1

/-- No assignment is made to a store that has to notify a parent. -/
def Keeps : ObjectAction ε β → Prop
  | .moveAssign target _ => ∀ store ∈ state.live target, store.parentNotificationEvent = none
  | _ => True

instance : (action : ObjectAction ε β) → Decidable (state.Keeps action)
  | .moveAssign target _ => inferInstanceAs
      (Decidable (∀ store ∈ state.live target, store.parentNotificationEvent = none))
  | .create _ | .deferredCreate _ _ | .createEmpty | .child _ | .moveConstruct _ | .destroy _ =>
      inferInstanceAs (Decidable True)

/-- In every step of a run. -/
def RunKeeps : StoreObjects ε β → List (ObjectAction ε β) → Prop
  | _, [] => True
  | state, action :: actions => state.Keeps action ∧
      ∀ state' ∈ state.step action, RunKeeps state' actions

/-! ## Where the events are -/

/-- The object has to trigger an event. -/
def holds (n : ℕ) (object : Option (Store (TreeSignal ε) β)) : Bool :=
  object.any fun store ↦ store.parentNotificationEvent = some (.notification n)

/-- The objects that have to trigger an event, and the times it has been. -/
def total (n : ℕ) : ℕ := state.objects.countP (holds n) + state.triggered n

/-- How many of these a step overwrites. -/
def overwritten (n : ℕ) : ObjectAction ε β → ℕ
  | .moveAssign target _ => if holds n (state.live target) then 1 else 0
  | _ => 0

def created (n : ℕ) : ObjectAction ε β → ℕ
  | .child _ => if n = state.numNotifications then 1 else 0
  | _ => 0

instance decidableRunKeeps : (state : StoreObjects ε β) → (actions : List (ObjectAction ε β)) →
    Decidable (state.RunKeeps actions)
  | _, [] => inferInstanceAs (Decidable True)
  | state, action :: actions =>
      have : ∀ state' : StoreObjects ε β, Decidable (state'.RunKeeps actions) :=
        fun state' ↦ decidableRunKeeps state' actions
      inferInstanceAs (Decidable (state.Keeps action ∧
        ∀ state' ∈ state.step action, RunKeeps state' actions))

/-! ## What a step does -/

section Steps

variable {state state' : StoreObjects ε β} {n : ℕ}

omit [DecidableEq ε] in
theorem live_eq_some {i : ℕ} {store : Store (TreeSignal ε) β} (h : state.live i = some store) :
    state.objects[i]? = some (some store) := by
  rw [live, Option.join_eq_some_iff] at h
  exact h

/-- What the actions that make a store out of nothing do, and the other actions. -/
theorem step_cases {action : ObjectAction ε β} (h : state.step action = some state') :
    (∃ store, store.parentNotificationEvent = none ∧ state' = state.push store ∧
      ∀ n, state.overwritten n action = 0 ∧ state.created n action = 0) ∨
    (∃ i, action = .child i) ∨ (∃ source, action = .moveConstruct source) ∨
    (∃ target source, action = .moveAssign target source) ∨ ∃ i, action = .destroy i := by
  cases action with
  | create value => exact Or.inl ⟨_, rfl, (Option.some.inj h).symm, fun _ ↦ ⟨rfl, rfl⟩⟩
  | deferredCreate createEvent value =>
      exact Or.inl ⟨_, rfl, (Option.some.inj h).symm, fun _ ↦ ⟨rfl, rfl⟩⟩
  | createEmpty => exact Or.inl ⟨_, rfl, (Option.some.inj h).symm, fun _ ↦ ⟨rfl, rfl⟩⟩
  | child i => exact Or.inr (Or.inl ⟨i, rfl⟩)
  | moveConstruct source => exact Or.inr (Or.inr (Or.inl ⟨source, rfl⟩))
  | moveAssign target source => exact Or.inr (Or.inr (Or.inr (Or.inl ⟨target, source, rfl⟩)))
  | destroy i => exact Or.inr (Or.inr (Or.inr (Or.inr ⟨i, rfl⟩)))

theorem child_cases {i : ℕ} (h : state.step (.child i) = some state') :
    ∃ store, state.objects[i]? = some (some store) ∧ state' = { state with
      objects := state.objects.set i
        (some (store.child (.notification state.numNotifications)).2) ++
          [some (store.child (.notification state.numNotifications)).1]
      numNotifications := state.numNotifications + 1 } := by
  simp only [step, Option.bind_eq_bind, Option.bind_eq_some_iff] at h
  obtain ⟨store, hlive, hstate⟩ := h
  exact ⟨store, live_eq_some hlive, (Option.some.inj hstate).symm⟩

theorem moveConstruct_cases {source : ℕ} (h : state.step (.moveConstruct source) = some state') :
    ∃ store, state.objects[source]? = some (some store) ∧ state' = { state with
      objects := state.objects.set source (some store.movedFrom) ++ [some store] } := by
  simp only [step, Option.bind_eq_bind, Option.bind_eq_some_iff] at h
  obtain ⟨store, hlive, hstate⟩ := h
  exact ⟨store, live_eq_some hlive, (Option.some.inj hstate).symm⟩

/-- An assignment of a store to itself also ends as one that was taken from. -/
theorem moveAssign_cases {target source : ℕ}
    (h : state.step (.moveAssign target source) = some state') :
    ∃ old store, state.live target = some old ∧
      (state.objects.set target (some store))[source]? = some (some store) ∧
      some store ∈ state.objects ∧ state' = { state with
        objects := (state.objects.set target (some store)).set source
          (some store.movedFrom) } := by
  simp only [step, Option.bind_eq_bind, Option.bind_eq_some_iff] at h
  obtain ⟨old, hold, store, hlive, hstate⟩ := h
  refine ⟨old, store, hold, ?_, List.mem_of_getElem? (live_eq_some hlive),
    (Option.some.inj hstate).symm⟩
  by_cases hne : target = source
  · rw [hne]
    exact getElem?_set_of_getElem? (live_eq_some hlive)
  · rw [List.getElem?_set_ne hne]
    exact live_eq_some hlive

theorem destroy_cases {i : ℕ} (h : state.step (.destroy i) = some state') :
    ∃ store, state.objects[i]? = some (some store) ∧ state' = { state with
      objects := state.objects.set i none
      triggers := state.triggers ++ (store.destroy false).notification.toList } := by
  simp only [step, Option.bind_eq_bind, Option.bind_eq_some_iff] at h
  obtain ⟨store, hlive, hstate⟩ := h
  exact ⟨store, live_eq_some hlive, (Option.some.inj hstate).symm⟩

/-- Events of parents come from `child()` and from the objects before the step. -/
theorem notification_step {action : ObjectAction ε β} (h : state.step action = some state')
    {store : Store (TreeSignal ε) β} (hstore : some store ∈ state'.objects)
    {signal : TreeSignal ε} (hsignal : store.parentNotificationEvent = some signal) :
    signal = .notification state.numNotifications ∨
      ∃ old, some old ∈ state.objects ∧ old.parentNotificationEvent = some signal := by
  rcases step_cases h with ⟨new, hnew, rfl, -⟩ | ⟨i, rfl⟩ | ⟨source, rfl⟩ |
    ⟨target, source, rfl⟩ | ⟨i, rfl⟩
  · rcases List.mem_append.mp hstore with hstore | hstore
    · exact Or.inr ⟨store, hstore, hsignal⟩
    · obtain rfl := Option.some.inj (List.mem_singleton.mp hstore)
      rw [hnew] at hsignal
      cases hsignal
  · obtain ⟨parent, hparent, rfl⟩ := child_cases h
    rcases List.mem_append.mp hstore with hstore | hstore
    · rcases List.mem_or_eq_of_mem_set hstore with hstore | hstore
      · exact Or.inr ⟨store, hstore, hsignal⟩
      · obtain rfl := Option.some.inj hstore
        exact Or.inr ⟨parent, List.mem_of_getElem? hparent, hsignal⟩
    · obtain rfl := Option.some.inj (List.mem_singleton.mp hstore)
      exact Or.inl (Option.some.inj hsignal).symm
  · obtain ⟨old, hold, rfl⟩ := moveConstruct_cases h
    rcases List.mem_append.mp hstore with hstore | hstore
    · rcases List.mem_or_eq_of_mem_set hstore with hstore | hstore
      · exact Or.inr ⟨store, hstore, hsignal⟩
      · obtain rfl := Option.some.inj hstore
        cases hsignal
    · obtain rfl := Option.some.inj (List.mem_singleton.mp hstore)
      exact Or.inr ⟨store, List.mem_of_getElem? hold, hsignal⟩
  · obtain ⟨-, taken, -, -, htaken, rfl⟩ := moveAssign_cases h
    rcases List.mem_or_eq_of_mem_set hstore with hstore | hstore
    · rcases List.mem_or_eq_of_mem_set hstore with hstore | hstore
      · exact Or.inr ⟨store, hstore, hsignal⟩
      · obtain rfl := Option.some.inj hstore
        exact Or.inr ⟨store, htaken, hsignal⟩
    · obtain rfl := Option.some.inj hstore
      cases hsignal
  · obtain ⟨_, _, rfl⟩ := destroy_cases h
    rcases List.mem_or_eq_of_mem_set hstore with hstore | hstore
    · exact Or.inr ⟨store, hstore, hsignal⟩
    · cases hstore

theorem numNotifications_step {action : ObjectAction ε β} (h : state.step action = some state') :
    state'.numNotifications = state.numNotifications ∧ (∀ n, state.created n action = 0) ∨
      state'.numNotifications = state.numNotifications + 1 ∧
        ∀ n, state.created n action = if n = state.numNotifications then 1 else 0 := by
  rcases step_cases h with ⟨new, -, rfl, hnone⟩ | ⟨i, rfl⟩ | ⟨source, rfl⟩ |
    ⟨target, source, rfl⟩ | ⟨i, rfl⟩
  · exact Or.inl ⟨rfl, fun n ↦ (hnone n).2⟩
  · obtain ⟨-, -, rfl⟩ := child_cases h
    exact Or.inr ⟨rfl, fun _ ↦ rfl⟩
  · obtain ⟨-, -, rfl⟩ := moveConstruct_cases h
    exact Or.inl ⟨rfl, fun _ ↦ rfl⟩
  · obtain ⟨-, -, -, -, -, rfl⟩ := moveAssign_cases h
    exact Or.inl ⟨rfl, fun _ ↦ rfl⟩
  · obtain ⟨-, -, rfl⟩ := destroy_cases h
    exact Or.inl ⟨rfl, fun _ ↦ rfl⟩

end Steps

/-! ## Where the duty to trigger an event is -/

section Total

variable {state state' : StoreObjects ε β} {n : ℕ}

theorem holds_some {store : Store (TreeSignal ε) β} :
    holds n (some store) = true ↔ store.parentNotificationEvent = some (.notification n) := by
  simp [holds]

@[simp] theorem holds_none : holds n (none : Option (Store (TreeSignal ε) β)) = false := rfl

@[simp] theorem holds_movedFrom (store : Store (TreeSignal ε) β) :
    holds n (some store.movedFrom) = false := rfl

theorem triggered_concat_destroy (state : StoreObjects ε β) (n : ℕ)
    (store : Store (TreeSignal ε) β) :
    (state.triggers ++ (store.destroy false).notification.toList).countP
        (fun trigger ↦ trigger.1 = .notification n) =
      state.triggered n + if holds n (some store) then 1 else 0 := by
  rw [List.countP_append, triggered, Store.destroy]
  cases hparent : store.parentNotificationEvent with
  | none => simp [holds, hparent]
  | some signal => simp [holds, hparent]

theorem total_push (store : Store (TreeSignal ε) β)
    (h : store.parentNotificationEvent = none) : (state.push store).total n = state.total n := by
  have hholds : holds n (some store) = false := by simp [holds, h]
  rw [total, push, List.countP_append, List.countP_singleton, hholds]
  rfl

/-- A step keeps the duty to trigger an event in one place, unless it overwrites
the store that has it. -/
theorem total_step {action : ObjectAction ε β} (h : state.step action = some state') :
    state'.total n + state.overwritten n action = state.total n + state.created n action := by
  rcases step_cases h with ⟨new, hnew, rfl, hnone⟩ | ⟨i, rfl⟩ | ⟨source, rfl⟩ |
    ⟨target, source, rfl⟩ | ⟨i, rfl⟩
  · rw [total_push new hnew, (hnone n).1, (hnone n).2]
  · obtain ⟨store, hstore, rfl⟩ := child_cases h
    have hset := countP_set_add (y := some (store.child
      (.notification state.numNotifications)).2) hstore (holds n)
    have hsame : holds n (some (store.child (.notification state.numNotifications)).2) =
        holds n (some store) := rfl
    have hchild : holds n (some (store.child (.notification state.numNotifications)).1) =
        decide (n = state.numNotifications) := by
      simp [holds, Store.child, Store.newChild, eq_comm]
    rw [hsame] at hset
    simp only [total, triggered, overwritten, created, List.countP_append,
      List.countP_singleton, hchild, decide_eq_true_eq]
    omega
  · obtain ⟨store, hstore, rfl⟩ := moveConstruct_cases h
    have hset := countP_set_add (y := some store.movedFrom) hstore (holds n)
    rw [holds_movedFrom, if_neg Bool.false_ne_true] at hset
    simp only [total, triggered, overwritten, created, List.countP_append,
      List.countP_singleton]
    omega
  · obtain ⟨old, store, hold, hsource, -, rfl⟩ := moveAssign_cases h
    have htarget := countP_set_add (y := some store) (live_eq_some hold) (holds n)
    have hset := countP_set_add (y := some store.movedFrom) hsource (holds n)
    rw [holds_movedFrom, if_neg Bool.false_ne_true] at hset
    simp only [total, triggered, overwritten, created, hold]
    omega
  · obtain ⟨store, hstore, rfl⟩ := destroy_cases h
    have hset := countP_set_add (y := none) hstore (holds n)
    have htriggers := triggered_concat_destroy state n store
    rw [holds_none, if_neg Bool.false_ne_true] at hset
    simp only [total, overwritten, created]
    rw [triggered, htriggers]
    omega

end Total

/-! ## Runs -/

/-- An event is the duty of at most one object, and of none before it is created. -/
structure Conserved (state : StoreObjects ε β) : Prop where
  le_one : ∀ n, state.total n ≤ 1
  eq_zero : ∀ n, state.numNotifications ≤ n → state.total n = 0
  notification : ∀ store, some store ∈ state.objects →
    ∀ signal, store.parentNotificationEvent = some signal → ∃ n, signal = .notification n

/-- No duty has been lost. -/
def AllKept (state : StoreObjects ε β) : Prop := ∀ n < state.numNotifications, state.total n = 1

section Runs

variable {state state' : StoreObjects ε β}

theorem conserved_init : Conserved ({} : StoreObjects ε β) where
  le_one _ := Nat.zero_le 1
  eq_zero _ _ := rfl
  notification _ hstore := absurd hstore List.not_mem_nil

theorem Conserved.step (h : Conserved state) {action : ObjectAction ε β}
    (hstep : state.step action = some state') : Conserved state' := by
  constructor
  · intro n
    have htotal := total_step (n := n) hstep
    have hle := h.le_one n
    rcases numNotifications_step hstep with ⟨-, hcreated⟩ | ⟨-, hcreated⟩
    · rw [hcreated] at htotal
      omega
    · rw [hcreated] at htotal
      have hzero := h.eq_zero n
      split_ifs at htotal with hn
      · have := hzero hn.ge
        omega
      · omega
  · intro n hn
    have htotal := total_step (n := n) hstep
    rcases numNotifications_step hstep with ⟨hnum, hcreated⟩ | ⟨hnum, hcreated⟩
    · rw [hcreated, h.eq_zero n (hnum ▸ hn)] at htotal
      omega
    · rw [hnum] at hn
      rw [hcreated, h.eq_zero n (by omega), if_neg (by omega)] at htotal
      omega
  · intro store hstore signal hsignal
    rcases notification_step hstep hstore hsignal with rfl | ⟨old, hold, hsignal⟩
    · exact ⟨_, rfl⟩
    · exact h.notification old hold signal hsignal

/-- A step overwrites no duty if and only if the target of an assignment has none. -/
theorem Conserved.keeps_iff (h : Conserved state) (action : ObjectAction ε β) :
    state.Keeps action ↔ ∀ n < state.numNotifications, state.overwritten n action = 0 := by
  cases action with
  | moveAssign target source =>
      simp only [Keeps, overwritten]
      cases hlive : state.live target with
      | none => simp
      | some old =>
          have hobject := live_eq_some hlive
          constructor
          · intro hkeeps n _
            have hnone := hkeeps old rfl
            rw [if_neg]
            simp [holds, hnone]
          · intro hzero store hstore
            obtain rfl := Option.some.inj hstore
            cases hparent : old.parentNotificationEvent with
            | none => rfl
            | some signal =>
                obtain ⟨n, rfl⟩ :=
                  h.notification old (List.mem_of_getElem? hobject) signal hparent
                have hholds : holds n (some old) = true := holds_some.mpr hparent
                by_cases hn : n < state.numNotifications
                · have hfalse := hzero n hn
                  rw [if_pos hholds] at hfalse
                  exact absurd hfalse one_ne_zero
                · have hpos : 0 < state.objects.countP (holds n) :=
                    List.countP_pos_iff.mpr ⟨_, List.mem_of_getElem? hobject, hholds⟩
                  have hnone := h.eq_zero n (not_lt.mp hn)
                  rw [total] at hnone
                  omega
  | _ => exact ⟨fun _ _ _ ↦ rfl, fun _ ↦ trivial⟩

/-- After a step no duty has been lost if and only if none was lost before and
the step keeps them. -/
theorem Conserved.allKept_step (h : Conserved state) {action : ObjectAction ε β}
    (hstep : state.step action = some state') :
    AllKept state' ↔ AllKept state ∧ state.Keeps action := by
  rw [h.keeps_iff]
  have hold {n : ℕ} (hn : n < state.numNotifications) :
      state'.total n + state.overwritten n action = state.total n := by
    have htotal := total_step (n := n) hstep
    rcases numNotifications_step hstep with ⟨-, hcreated⟩ | ⟨-, hcreated⟩
    · rw [hcreated] at htotal
      exact htotal
    · rw [hcreated, if_neg hn.ne] at htotal
      exact htotal
  have hmono : state.numNotifications ≤ state'.numNotifications := by
    rcases numNotifications_step hstep with ⟨hnum, -⟩ | ⟨hnum, -⟩ <;> omega
  constructor
  · intro hkept
    have hboth (n : ℕ) (hn : n < state.numNotifications) :
        state.total n = 1 ∧ state.overwritten n action = 0 := by
      have := hkept n (hn.trans_le hmono)
      have := hold hn
      have := h.le_one n
      omega
    exact ⟨fun n hn ↦ (hboth n hn).1, fun n hn ↦ (hboth n hn).2⟩
  · rintro ⟨hkept, hzero⟩ n hn
    by_cases hlt : n < state.numNotifications
    · have := hkept n hlt
      have := hzero n hlt
      have := hold hlt
      omega
    · -- the event was created by this step
      have htotal := total_step (n := n) hstep
      rcases numNotifications_step hstep with ⟨hnum, -⟩ | ⟨hnum, hcreated⟩
      · omega
      · rw [hcreated, if_pos (by omega)] at htotal
        have hnone := h.eq_zero n (not_lt.mp hlt)
        have hover : state.overwritten n action = 0 := by
          cases action with
          | child i => rfl
          | _ =>
            have := hcreated state.numNotifications
            rw [if_pos rfl] at this
            cases this
        omega

theorem Conserved.allKept_run (h : Conserved state) {actions : List (ObjectAction ε β)}
    (hrun : state.run actions = some state') :
    Conserved state' ∧ (AllKept state' ↔ AllKept state ∧ state.RunKeeps actions) := by
  induction actions generalizing state with
  | nil =>
      obtain rfl := Option.some.inj hrun
      exact ⟨h, by simp [RunKeeps]⟩
  | cons action actions ih =>
      simp only [run, Option.bind_eq_bind, Option.bind_eq_some_iff] at hrun
      obtain ⟨next, hstep, hrun⟩ := hrun
      obtain ⟨hconserved, hkept⟩ := ih (h.step hstep) hrun
      refine ⟨hconserved, ?_⟩
      have hnext : (∀ s ∈ state.step action, RunKeeps s actions) ↔ next.RunKeeps actions := by
        simp [hstep]
      rw [hkept, h.allKept_step hstep, RunKeeps, hnext, and_assoc]

/-- Every event has been delivered or is held if and only if no duty is lost. -/
theorem Conserved.delivered_iff (h : Conserved state) : state.Delivered ↔ AllKept state := by
  have hheld (n : ℕ) : state.objects.countP (holds n) = 0 ↔
      ∀ store, some store ∈ state.objects →
        store.parentNotificationEvent ≠ some (.notification n) := by
    rw [List.countP_eq_zero]
    constructor
    · intro hnone store hstore hparent
      exact hnone _ hstore (holds_some.mpr hparent)
    · intro hnone object hobject hholds
      cases object with
      | none => cases hholds
      | some store => exact hnone store hobject (holds_some.mp hholds)
  constructor
  · intro hdelivered n hn
    obtain ⟨honce, -⟩ := hdelivered n hn
    rw [← hheld n] at honce
    have := h.le_one n
    rw [total] at this ⊢
    omega
  · intro hkept n hn
    have htotal := hkept n hn
    rw [total] at htotal
    rw [← hheld n]
    omega

end Runs

/-- After any run every event of a parent that no store holds has been triggered
exactly once, if and only if no assignment of the run was made to a store that
had to notify a parent. -/
theorem delivered_iff_runKeeps {actions : List (ObjectAction ε β)} {state : StoreObjects ε β}
    (hrun : StoreObjects.run {} actions = some state) :
    state.Delivered ↔ StoreObjects.RunKeeps {} actions := by
  obtain ⟨hconserved, hkept⟩ := conserved_init.allKept_run hrun
  have hempty : AllKept ({} : StoreObjects ε β) := fun _ hn ↦ absurd hn (Nat.not_lt_zero _)
  rw [hconserved.delivered_iff, hkept, and_iff_right hempty]

/-- A child that is moved twice, the second time into an empty store. -/
theorem delivered_twice_moved : ∃ state : StoreObjects Unit Unit,
    StoreObjects.run {} [.create (), .child 0, .moveConstruct 1, .createEmpty, .moveAssign 3 2,
      .destroy 1, .destroy 3, .destroy 2, .destroy 0] = some state ∧ state.Delivered := by
  have hsome : (StoreObjects.run ({} : StoreObjects Unit Unit) [.create (), .child 0,
      .moveConstruct 1, .createEmpty, .moveAssign 3 2, .destroy 1, .destroy 3, .destroy 2,
      .destroy 0]).isSome = true := by decide
  obtain ⟨state, hrun⟩ := Option.isSome_iff_exists.mp hsome
  exact ⟨state, hrun, (delivered_iff_runKeeps hrun).mpr (by decide)⟩

/-- An assignment to a child: its parent waits for an event that is not triggered
although all stores have been destroyed. -/
theorem not_delivered_assigned_child : ∃ state : StoreObjects Unit Unit,
    StoreObjects.run {} [.create (), .child 0, .createEmpty, .moveAssign 1 2, .destroy 2,
      .destroy 1, .destroy 0] = some state ∧ ¬state.Delivered := by
  have hfacts : (StoreObjects.run ({} : StoreObjects Unit Unit) [.create (), .child 0,
      .createEmpty, .moveAssign 1 2, .destroy 2, .destroy 1, .destroy 0]).any
      (fun state ↦ state.numNotifications = 1 ∧ state.triggered 0 = 0 ∧
        state.objects.all Option.isNone = true) = true := by decide
  obtain ⟨state, hrun, hstate⟩ := (Option.any_eq_true _ _).mp hfacts
  obtain ⟨hnum, htriggered, hnone⟩ := of_decide_eq_true hstate
  refine ⟨state, hrun, fun hdelivered ↦ ?_⟩
  obtain ⟨honce, -⟩ := hdelivered 0 (hnum ▸ one_pos)
  have hone := honce fun store hstore ↦
    absurd (List.all_eq_true.mp hnone _ hstore) Bool.false_ne_true
  rw [htriggered] at hone
  exact absurd hone zero_ne_one

end StoreObjects

end Zuku
