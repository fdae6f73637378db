import Zuku.Store
import Zuku.Library.EventImplication
import Zuku.Library.StepRuns

/-!
# The deletion of instances

The life of a store without parent whose value has `DeferredDeleteInstances`.
The destructor of its last owner deletes the instances, if it still waits for
something.  What a call of `Wait` has cleared and the readers that were dropped
for a new writer are not known any more.
-/

namespace Zuku

open Event EventPrecondition EventImplication

/-- What is done with the store and with the other objects that come out of it.
The event given to `child` is the end of a task that starts after the
precondition of the child, or just any event. -/
inductive LifeAction (ε : Type) where
  | child (ev : Event ε) (ofTask : Bool)
  | view (ev : Event ε)
  | readyAfter (ev : Event ε)
  | wait
  | move
  | destroyOther (i : ℕ)

/-- The object that owns the value, and the children and moved-from objects that
have not been destroyed.  The readers and writers that were registered, the
readers that were dropped when writers were registered and the events that were
waited for are kept for the statement.  `orders` lists events that do not trigger before others. -/
structure StoreLife (ε β : Type) where
  owner : Store ε β
  others : List (Store ε β) := []
  deletions : List (Event ε) := []
  registered : Event ε
  dropped : Event ε := ∅
  waited : Event ε := ∅
  orders : List (Event ε × Event ε)

variable {ε β : Type} [DecidableEq ε]

namespace StoreLife

/-- `DeferredCreate`, among events with the orders `facts`. -/
def create (createEvent : Event ε) (value : β) (facts : List (Event ε × Event ε)) :
    StoreLife ε β where
  owner := Store.deferredCreate createEvent value
  registered := createEvent
  orders := facts

variable (life : StoreLife ε β)

def step : LifeAction ε → StoreLife ε β
  | .child ev ofTask =>
      let (child, owner) := life.owner.childAfter ev ev
      -- the readers so far are handed over to the child, for its task to wait for
      { life with
        owner := owner
        others := life.others ++ [child]
        registered := life.registered ∪ ev
        dropped :=
          if ofTask then life.dropped
          else life.dropped ∪ effectsOf life.owner.warPrecondition
        orders :=
          if ofTask then life.orders ++ [(ev, child.effectsPrecondition)] else life.orders }
  | .view ev =>
      { life with
        owner := (life.owner.viewAfter ev ev).2
        registered := life.registered ∪ ev }
  | .readyAfter ev =>
      { life with
        owner := life.owner.readyAfter ev ev
        registered := life.registered ∪ ev
        dropped := life.dropped ∪ effectsOf life.owner.warPrecondition }
  | .wait =>
      { life with
        owner := life.owner.wait
        waited := life.waited ∪ life.owner.waitEvent }
  | .move => { life with others := life.others ++ [life.owner.movedFrom] }
  | .destroyOther i =>
      { life with
        others := life.others.eraseIdx i
        deletions := life.deletions ++
          life.others[i]?.toList.flatMap fun store ↦ (store.destroy true).deletion.toList }

def run (actions : List (LifeAction ε)) : StoreLife ε β := actions.foldl step life

/-- All deletions, when the remaining objects have been destroyed. -/
def allDeletions : List (Event ε) :=
  life.deletions ++ (life.others ++ [life.owner]).flatMap fun store ↦
    (store.destroy true).deletion.toList

/-- The instances are deleted once, and not before the readers and writers of the
store have completed. -/
def DeletedOnce : Prop :=
  ∃ event, life.allDeletions = [event] ∧
    Implies life.orders life.waited event life.registered

/-- The readers that were dropped are done by the time of the deletion. -/
def DroppedDone : Prop :=
  Implies life.orders life.waited life.owner.precondition life.dropped

end StoreLife

/-- Something has been registered on the store since the last call of `Wait`. -/
def pendingAfter : Bool → List (LifeAction ε) → Bool
  | pending, [] => pending
  | _, .child _ _ :: actions => pendingAfter true actions
  | _, .view _ :: actions => pendingAfter true actions
  | _, .readyAfter _ :: actions => pendingAfter true actions
  | _, .wait :: actions => pendingAfter false actions
  | pending, .move :: actions => pendingAfter pending actions
  | pending, .destroyOther _ :: actions => pendingAfter pending actions

/-! ## The owner -/

namespace StoreLife

/-- What holds between two operations: only the owner can delete the instances,
and what was registered is implied by what it waits for and what was dropped. -/
structure LifeInv (life : StoreLife ε β) : Prop where
  hasParent : life.owner.hasParent = false
  value : life.owner.value.isSome = true
  others : ∀ store ∈ life.others, store.hasParent = true ∨ store.value = none
  deletions : life.deletions = []
  readers : effectsOf life.owner.warPrecondition ∪ life.dropped ⊆ life.registered
  registered : Implies life.orders life.waited (life.owner.precondition ∪ life.dropped)
    life.registered

section Invariant

variable {life : StoreLife ε β}

theorem lifeInv_create (createEvent : Event ε) (value : β) (facts : List (Event ε × Event ε)) :
    LifeInv (create createEvent value facts) where
  hasParent := rfl
  value := rfl
  others _ hstore := absurd hstore List.not_mem_nil
  deletions := rfl
  readers := Finset.empty_subset _
  registered := Implies.of_subset (Finset.union_empty createEvent).ge

theorem deletion_of_other {store : Store ε β} (h : store.hasParent = true ∨ store.value = none) :
    (store.destroy true).deletion = none := by
  rw [Store.destroy]
  rcases h with h | h <;> simp [h]

theorem LifeInv.others_step (h : LifeInv life) (action : LifeAction ε) :
    ∀ store ∈ (life.step action).others, store.hasParent = true ∨ store.value = none := by
  cases action with
  | child ev ofTask =>
      intro store hstore
      rcases List.mem_append.mp hstore with hstore | hstore
      · exact h.others store hstore
      · rw [List.mem_singleton.mp hstore]
        exact Or.inl rfl
  | move =>
      intro store hstore
      rcases List.mem_append.mp hstore with hstore | hstore
      · exact h.others store hstore
      · rw [List.mem_singleton.mp hstore]
        exact Or.inr rfl
  | destroyOther i => exact fun store hstore ↦ h.others store (List.mem_of_mem_eraseIdx hstore)
  | view ev => exact h.others
  | readyAfter ev => exact h.others
  | wait => exact h.others

theorem LifeInv.deletions_step (h : LifeInv life) (action : LifeAction ε) :
    (life.step action).deletions = [] := by
  cases action with
  | destroyOther i =>
      simp only [step, h.deletions, List.nil_append]
      cases hother : life.others[i]? with
      | none => rfl
      | some store =>
          simp [deletion_of_other (h.others store (List.mem_of_getElem? hother))]
  | _ => exact h.deletions

theorem LifeInv.readers_step (h : LifeInv life) (action : LifeAction ε) :
    effectsOf (life.step action).owner.warPrecondition ∪ (life.step action).dropped ⊆
      (life.step action).registered := by
  have hwar := Finset.union_subset_left h.readers
  have hdropped := Finset.union_subset_right h.readers
  cases action with
  | child ev ofTask =>
      refine Finset.union_subset (Finset.empty_subset _) ?_
      have hdropped' : (life.step (.child ev ofTask)).dropped ⊆ life.registered := by
        cases ofTask with
        | true => exact hdropped
        | false => exact Finset.union_subset hdropped hwar
      exact hdropped'.trans Finset.subset_union_left
  | view ev =>
      simp only [step, Store.viewAfter, Store.effectsOf_warPrecondition_addReader]
      exact Finset.union_subset
        (Finset.union_subset_union hwar (Finset.Subset.refl ev))
        (hdropped.trans Finset.subset_union_left)
  | readyAfter ev =>
      exact Finset.union_subset (Finset.empty_subset _)
        ((Finset.union_subset hdropped hwar).trans Finset.subset_union_left)
  | wait => exact Finset.union_subset (Finset.empty_subset _) hdropped
  | move => exact h.readers
  | destroyOther i => exact h.readers

/-- The owner waits for the new event as well, and still implies what it did. -/
theorem Implies.register {orders orders' : List (Event ε × Event ε)}
    {done event event' registered ev : Event ε} (h : Implies orders done event registered)
    (horders : orders ⊆ orders') (hevent : Implies orders' done event' event)
    (hev : ev ⊆ event') : Implies orders' done event' (registered ∪ ev) :=
  (hevent.trans (h.mono horders (Finset.Subset.refl _))).union (Implies.of_subset hev)

/-- A writer is registered, and the readers so far are dropped. -/
theorem LifeInv.readyAfter (h : LifeInv life) (ev : Event ε) :
    Implies life.orders life.waited
      ((life.owner.readyAfter ev ev).precondition ∪
        (life.dropped ∪ effectsOf life.owner.warPrecondition)) (life.registered ∪ ev) := by
  rw [Store.precondition_readyAfter]
  refine Implies.register h.registered (List.Subset.refl _) (Implies.of_subset ?_) ?_
  · rw [Store.precondition_eq]
    intro a ha
    simp only [Finset.mem_union] at ha ⊢
    tauto
  · exact Finset.subset_union_left.trans Finset.subset_union_left

/-- A task is registered that waits for all that the owner was waiting for. -/
theorem LifeInv.childOfTask (h : LifeInv life) (ev : Event ε) :
    Implies (life.orders ++ [(ev, (life.owner.newChild none).effectsPrecondition)]) life.waited
      ((life.owner.readyAfter ev ev).precondition ∪ life.dropped) (life.registered ∪ ev) := by
  have horder : (ev, (life.owner.newChild none).effectsPrecondition) ∈
      life.orders ++ [(ev, (life.owner.newChild none).effectsPrecondition)] := by simp
  have hev : ev ⊆ (life.owner.readyAfter ev ev).precondition ∪ life.dropped := by
    rw [Store.precondition_readyAfter, Finset.union_assoc]
    exact Finset.subset_union_left
  refine Implies.register h.registered (List.subset_append_left _ _) ?_ hev
  exact ((Implies.of_subset hev).trans (Implies.of_mem horder)).union
    (Implies.of_subset Finset.subset_union_right)

theorem LifeInv.registered_step (h : LifeInv life) (action : LifeAction ε) :
    Implies (life.step action).orders (life.step action).waited
      ((life.step action).owner.precondition ∪ (life.step action).dropped)
      (life.step action).registered := by
  cases action with
  | child ev ofTask =>
      cases ofTask with
      | true => exact h.childOfTask ev
      | false => exact h.readyAfter ev
  | view ev =>
      simp only [step, Store.viewAfter]
      rw [Store.precondition_addReader]
      refine Implies.register h.registered (List.Subset.refl _) (Implies.of_subset ?_) ?_
      · exact Finset.union_subset_union Finset.subset_union_left (Finset.Subset.refl _)
      · exact Finset.subset_union_right.trans Finset.subset_union_left
  | readyAfter ev => exact h.readyAfter ev
  | wait =>
      simp only [step]
      intro a ha
      refine ((h.registered a ha).mono (List.Subset.refl _) Finset.subset_union_left).trans ?_
      intro b hb
      rcases Finset.mem_union.mp hb with hb | hb
      · refine .done (Finset.mem_union_right _ ?_)
        rw [Store.precondition_eq, Finset.union_comm] at hb
        exact hb
      · exact .mem (Finset.mem_union_right _ hb)
  | move => exact h.registered
  | destroyOther i => exact h.registered

theorem LifeInv.step (h : LifeInv life) (action : LifeAction ε) : LifeInv (life.step action) where
  hasParent := by cases action <;> exact h.hasParent
  value := by cases action <;> exact h.value
  others := h.others_step action
  deletions := h.deletions_step action
  readers := h.readers_step action
  registered := h.registered_step action

theorem LifeInv.run (h : LifeInv life) (actions : List (LifeAction ε)) :
    LifeInv (life.run actions) :=
  StepRuns.foldl_invariant (fun _ action h ↦ h.step action) h actions

theorem hasPrecondition_run (actions : List (LifeAction ε)) :
    (life.run actions).owner.hasPrecondition =
      pendingAfter life.owner.hasPrecondition actions := by
  induction actions generalizing life with
  | nil => rfl
  | cons action actions ih =>
      have hnext : (life.run (action :: actions)).owner.hasPrecondition =
          pendingAfter (life.step action).owner.hasPrecondition actions := ih
      rw [hnext]
      cases action <;> simp [StoreLife.step, pendingAfter, Store.hasPrecondition, Store.childAfter,
        Store.readyAfter, Store.viewAfter, Store.addReader, Store.wait]

/-! ## The deletion -/

/-- The owner deletes the instances if it waits for something. -/
theorem LifeInv.allDeletions_eq (h : LifeInv life) :
    life.allDeletions =
      if life.owner.hasPrecondition then [life.owner.precondition] else [] := by
  have hothers : (life.others.flatMap fun store ↦ (store.destroy true).deletion.toList) = [] := by
    rw [List.flatMap_eq_nil_iff]
    intro store hstore
    rw [deletion_of_other (h.others store hstore)]
    rfl
  rw [allDeletions, h.deletions, List.flatMap_append, hothers, List.nil_append, List.nil_append,
    List.flatMap_singleton, Store.destroy]
  cases hpre : life.owner.hasPrecondition <;> simp [h.hasParent, h.value]

theorem LifeInv.deletedOnce_iff (h : LifeInv life) :
    life.DeletedOnce ↔ life.owner.hasPrecondition = true ∧ life.DroppedDone := by
  rw [DeletedOnce, h.allDeletions_eq]
  cases hpre : life.owner.hasPrecondition with
  | false => simp
  | true =>
      constructor
      · rintro ⟨event, hevent, himplied⟩
        obtain rfl := List.singleton_inj.mp hevent
        exact ⟨rfl, fun a ha ↦ himplied a (Finset.union_subset_right h.readers ha)⟩
      · rintro ⟨-, hdropped⟩
        refine ⟨_, rfl, Implies.trans ?_ h.registered⟩
        exact (Implies.of_subset (Finset.Subset.refl _)).union hdropped

end Invariant

/-- Over the whole life of a store the instances are deleted once, after all that
was registered on it, if and only if something was registered after the last call
of `Wait`, and the readers that were dropped are done by then. -/
theorem deletedOnce_run_iff (createEvent : Event ε) (value : β)
    (facts : List (Event ε × Event ε)) (actions : List (LifeAction ε)) :
    ((create createEvent value facts).run actions).DeletedOnce ↔
      pendingAfter true actions = true ∧
        ((create createEvent value facts).run actions).DroppedDone := by
  rw [((lifeInv_create createEvent value facts).run actions).deletedOnce_iff, hasPrecondition_run]
  rfl

/-- A store that has been waited for is destroyed without a deletion. -/
theorem not_deletedOnce_wait :
    ¬((create {0} () []).run [.child {1} true, .wait] : StoreLife ℕ Unit).DeletedOnce := by
  rintro ⟨event, hevent, -⟩
  have hnone :
      ((create {0} () []).run [.child {1} true, .wait] : StoreLife ℕ Unit).allDeletions = [] := rfl
  rw [hnone] at hevent
  cases hevent

end StoreLife

end Zuku
