import Zuku.Future

/-!
# Moves of a view

The move constructor of a view hands over the duty to trigger the reader event,
but not the events that have been registered so far.  A view whose events are
all registered after its last move is released as if it had not been moved.
-/

namespace Zuku

open Event

/-- The operations on a view, where `viewReleaseEvent` is the user event that
`view()` creates. -/
inductive ViewAction (ε : Type) where
  | view (viewReleaseEvent : ε)
  | viewAfter (ev : Event ε)
  | doneAfter (ev : Event ε)
  | move
  deriving DecidableEq

/-- The view that owns the reader event, and the other objects: the subviews and
the views that have been moved from. -/
structure ViewObjects (ε β : Type) where
  owner : View ε β
  others : List (View ε β) := []

variable {ε β : Type} [DecidableEq ε]

omit [DecidableEq ε] in
/-- What the move constructor leaves behind. -/
def View.movedFrom (view : View ε β) : View ε β :=
  { view with warDependency := none, value := none }

namespace ViewAction

/-- The event that an operation registers. -/
def registered : ViewAction ε → Option (Event ε)
  | .view viewReleaseEvent => some {viewReleaseEvent}
  | .viewAfter ev => some ev
  | .doneAfter ev => some ev
  | .move => none

/-- The trigger of the subview that `view()` makes. -/
def release : ViewAction ε → Option (ε × Event ε)
  | .view viewReleaseEvent => some (viewReleaseEvent, noEvent)
  | _ => none

def isMove : ViewAction ε → Bool
  | .move => true
  | _ => false

end ViewAction

/-- The completions that have been registered by some operations. -/
def registeredBy (actions : List (ViewAction ε)) : Event ε :=
  mergeAll (actions.filterMap ViewAction.registered)

namespace ViewObjects

def step (objects : ViewObjects ε β) : ViewAction ε → ViewObjects ε β
  | .view viewReleaseEvent =>
      let (subview, owner) := objects.owner.subview viewReleaseEvent
      ⟨owner, objects.others ++ [subview]⟩
  | .viewAfter ev =>
      let (subview, owner) := objects.owner.viewAfter ev
      ⟨owner, objects.others ++ [subview]⟩
  | .doneAfter ev => ⟨objects.owner.doneAfter ev, objects.others⟩
  | .move => ⟨objects.owner.moved, objects.others ++ [objects.owner.movedFrom]⟩

def run (objects : ViewObjects ε β) (actions : List (ViewAction ε)) : ViewObjects ε β :=
  actions.foldl step objects

/-- What the destruction of all objects triggers. -/
def destroyAll (objects : ViewObjects ε β) : List (ε × Event ε) :=
  (objects.owner :: objects.others).filterMap View.destroy

end ViewObjects

open ViewObjects

/-- The objects after the operations trigger the same events in the end as if
the view had not been moved, and the reader event waits for everything that was
registered. -/
structure MovesTransparent (view : View ε β) (actions : List (ViewAction ε)) : Prop where
  same : (run ⟨view, []⟩ actions).destroyAll =
    (run ⟨view, []⟩ (actions.filter fun action ↦ !action.isMove)).destroyAll
  implies : ∀ reader ∈ view.warDependency, ∃ ev,
    (run ⟨view, []⟩ actions).owner.destroy = some (reader, ev) ∧
      mergeAll view.views ∪ registeredBy actions ⊆ ev

/-! ## Runs -/

section Runs

variable (objects : ViewObjects ε β) (actions before after : List (ViewAction ε))

omit [DecidableEq ε] in
theorem run_append : run objects (before ++ after) = run (run objects before) after :=
  List.foldl_append

@[simp] theorem registeredBy_nil : registeredBy ([] : List (ViewAction ε)) = ∅ := rfl

theorem registeredBy_append :
    registeredBy (before ++ after) = registeredBy before ∪ registeredBy after := by
  ext a
  simp [registeredBy, or_and_right, exists_or]

theorem registeredBy_cons (action : ViewAction ε) :
    registeredBy (action :: actions) = registeredBy [action] ∪ registeredBy actions :=
  registeredBy_append [action] actions

theorem registeredBy_of_registered {action : ViewAction ε} {ev : Event ε}
    (h : action.registered = some ev) : registeredBy [action] = ev := by
  rw [registeredBy, List.filterMap_cons_some h]
  exact Finset.union_empty ev

theorem registeredBy_filter :
    registeredBy (actions.filter fun action ↦ !action.isMove) = registeredBy actions := by
  induction actions with
  | nil => rfl
  | cons action actions ih =>
      rw [registeredBy_cons, ← ih]
      cases action with
      | move => exact (Finset.empty_union _).symm
      | view _ => exact registeredBy_cons _ _
      | viewAfter _ => exact registeredBy_cons _ _
      | doneAfter _ => exact registeredBy_cons _ _

omit [DecidableEq ε] in
@[simp] theorem warDependency_run :
    (run objects actions).owner.warDependency = objects.owner.warDependency := by
  induction actions generalizing objects with
  | nil => rfl
  | cons action actions ih =>
      rw [run, List.foldl_cons]
      refine (ih _).trans ?_
      cases action <;> rfl

/-- Subviews trigger their own events, in the order of their creation, and views
that have been moved from trigger nothing. -/
theorem filterMap_destroy_others :
    (run objects actions).others.filterMap View.destroy =
      objects.others.filterMap View.destroy ++ actions.filterMap ViewAction.release := by
  induction actions generalizing objects with
  | nil => exact (List.append_nil _).symm
  | cons action actions ih =>
      rw [run, List.foldl_cons]
      refine (ih _).trans ?_
      cases action with
      | view _ =>
          simp [step, View.subview, View.destroy, mergeAll, ViewAction.release]
      | viewAfter _ =>
          simp [step, View.viewAfter, View.destroy, ViewAction.release, List.filterMap_cons]
      | doneAfter _ => simp [step, ViewAction.release, List.filterMap_cons]
      | move => simp [step, View.movedFrom, View.destroy, ViewAction.release, List.filterMap_cons]

theorem mergeAll_views_step {action : ViewAction ε} (h : action ≠ .move) :
    mergeAll (step objects action).owner.views =
      mergeAll objects.owner.views ∪ registeredBy [action] := by
  cases action with
  | move => exact absurd rfl h
  | view _ =>
      rw [registeredBy_of_registered rfl]
      exact View.mergeAll_views_doneAfter _ _
  | viewAfter _ =>
      rw [registeredBy_of_registered rfl]
      exact View.mergeAll_views_doneAfter _ _
  | doneAfter _ =>
      rw [registeredBy_of_registered rfl]
      exact View.mergeAll_views_doneAfter _ _

/-- Without a move a view keeps all its events. -/
theorem mergeAll_views_run (h : .move ∉ actions) :
    mergeAll (run objects actions).owner.views =
      mergeAll objects.owner.views ∪ registeredBy actions := by
  induction actions generalizing objects with
  | nil => exact (Finset.union_empty _).symm
  | cons action actions ih =>
      rw [List.mem_cons, not_or] at h
      rw [run, List.foldl_cons, registeredBy_cons, ← Finset.union_assoc,
        ← mergeAll_views_step objects (Ne.symm h.1)]
      exact ih _ h.2

/-- With moves it does not get more. -/
theorem mergeAll_views_run_subset :
    mergeAll (run objects actions).owner.views ⊆
      mergeAll objects.owner.views ∪ registeredBy actions := by
  induction actions generalizing objects with
  | nil => exact Finset.subset_union_left
  | cons action actions ih =>
      rw [run, List.foldl_cons, registeredBy_cons, ← Finset.union_assoc]
      refine (ih _).trans (Finset.union_subset_union_left ?_)
      by_cases hmove : action = .move
      · subst hmove
        exact Finset.empty_subset _
      · exact (mergeAll_views_step objects hmove).le

/-- A move forgets what was registered before it. -/
theorem mergeAll_views_run_move (h : .move ∉ after) :
    mergeAll (run objects (before ++ .move :: after)).owner.views = registeredBy after := by
  rw [run_append, run, List.foldl_cons]
  exact (mergeAll_views_run _ after h).trans (Finset.empty_union _)

omit [DecidableEq ε] in
theorem exists_last_move (h : .move ∈ actions) :
    ∃ before after, actions = before ++ .move :: after ∧ .move ∉ after := by
  obtain ⟨after, before, heq, hnot⟩ := List.eq_append_cons_of_mem (List.mem_reverse.mpr h)
  refine ⟨before.reverse, after.reverse, ?_, by simpa using hnot⟩
  rw [← List.reverse_reverse actions, heq]
  simp

/-! ## Transparency -/

variable {actions}

/-- The triggers of all objects, given what the reader event waits for. -/
theorem destroyAll_run {reader : ε} (hreader : objects.owner.warDependency = some reader) :
    (run objects actions).destroyAll =
      (reader, mergeAll (run objects actions).owner.views) ::
        (objects.others.filterMap View.destroy ++ actions.filterMap ViewAction.release) := by
  have howner : (run objects actions).owner.destroy =
      some (reader, mergeAll (run objects actions).owner.views) := by
    rw [View.destroy, warDependency_run, hreader]
    rfl
  rw [destroyAll, List.filterMap_cons_some howner, filterMap_destroy_others]

omit [DecidableEq ε] in
theorem filterMap_release_filter (actions : List (ViewAction ε)) :
    (actions.filter fun action ↦ !action.isMove).filterMap ViewAction.release =
      actions.filterMap ViewAction.release := by
  rw [List.filterMap_filter]
  congr 1
  funext action
  cases action <;> rfl

/-- Moves are transparent when the reader event has kept all it was told. -/
theorem movesTransparent_iff_views {view : View ε β} {reader : ε}
    (hreader : view.warDependency = some reader) :
    MovesTransparent view actions ↔ mergeAll (run ⟨view, []⟩ actions).owner.views =
      mergeAll view.views ∪ registeredBy actions := by
  have hkept : mergeAll (run ⟨view, []⟩ (actions.filter fun action ↦ !action.isMove)).owner.views =
      mergeAll view.views ∪ registeredBy actions := by
    rw [mergeAll_views_run _ _ (by simp [ViewAction.isMove]), registeredBy_filter]
  have hsame : (run ⟨view, []⟩ actions).destroyAll =
      (run ⟨view, []⟩ (actions.filter fun action ↦ !action.isMove)).destroyAll ↔
      mergeAll (run ⟨view, []⟩ actions).owner.views =
        mergeAll view.views ∪ registeredBy actions := by
    rw [destroyAll_run _ hreader, destroyAll_run _ hreader, filterMap_release_filter, hkept]
    simp
  refine ⟨fun h ↦ hsame.mp h.same, fun h ↦ ⟨hsame.mpr h, fun r hr ↦ ?_⟩⟩
  obtain rfl := Option.some.inj (hreader.symm.trans hr)
  refine ⟨_, ?_, h.ge⟩
  rw [View.destroy, warDependency_run, hreader]
  rfl

end Runs

/-- Moving a view is transparent exactly when every completion that was
registered before a move is registered again after it. -/
theorem moves_transparent_iff (view : View ε β) (reader : ε)
    (hreader : view.warDependency = some reader) (actions : List (ViewAction ε)) :
    MovesTransparent view actions ↔ ∀ before after, actions = before ++ .move :: after →
      mergeAll view.views ∪ registeredBy before ⊆ registeredBy after := by
  rw [movesTransparent_iff_views hreader]
  constructor
  · rintro h before after rfl
    have hafter : mergeAll (run ⟨view, []⟩ (before ++ .move :: after)).owner.views ⊆
        registeredBy after := by
      rw [run_append, run, List.foldl_cons]
      exact (mergeAll_views_run_subset _ after).trans (Finset.empty_union _).le
    refine Finset.Subset.trans ?_ hafter
    rw [h, registeredBy_append]
    exact Finset.union_subset_union_right Finset.subset_union_left
  · intro h
    by_cases hmove : .move ∈ actions
    · obtain ⟨before, after, rfl, hlast⟩ := exists_last_move actions hmove
      rw [mergeAll_views_run_move _ _ _ hlast, registeredBy_append, registeredBy_cons,
        ← Finset.union_assoc]
      have hnone : registeredBy [(.move : ViewAction ε)] = ∅ := rfl
      rw [hnone, Finset.empty_union, Finset.union_eq_right.mpr (h before after rfl)]
    · exact mergeAll_views_run ⟨view, []⟩ actions hmove

/-- A view that is moved before a subview is made of it. -/
theorem moves_transparent_first :
    MovesTransparent ({ warDependency := some 0 } : View ℕ Unit)
      [.move, .view 1, .doneAfter {2}] := by
  refine (moves_transparent_iff { warDependency := some 0 } 0 rfl
    [.move, .view 1, .doneAfter {2}]).mpr fun before after heq ↦ ?_
  cases before with
  | nil => exact Finset.empty_subset _
  | cons action rest =>
      have hrest := (List.cons.inj heq).2
      have hmem : ViewAction.move ∈ [.view 1, .doneAfter ({2} : Event ℕ)] := by
        rw [hrest]
        exact List.mem_append_right _ List.mem_cons_self
      exact absurd hmem (by decide)

/-- A view that is moved after `DoneAfter`: its reader event waits for nothing. -/
theorem not_moves_transparent_doneAfter :
    ¬ ∀ (view : View ℕ Unit) (reader : ℕ), view.warDependency = some reader →
      ∀ actions : List (ViewAction ℕ), MovesTransparent view actions := by
  intro h
  have hsame := (h { warDependency := some 0 } 0 rfl [.doneAfter {1}, .move]).same
  exact absurd hsame (by decide)

end Zuku
