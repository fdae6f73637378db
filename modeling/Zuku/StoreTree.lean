import Zuku.Store
import Zuku.Library.EventImplication

/-!
# Trees of open-ended stores

The stores that are made out of each other.  A child is handed to a task that
starts after its precondition.  The task of an open-ended child, one made by
`child()`, uses and in the end destroys it; the destruction triggers the event
that the parent got for it.
-/

namespace Zuku

open Event EventPrecondition EventImplication

/-- The completions that the operations on a tree of stores deal with. -/
inductive TreeSignal (ε : Type) where
  | notification (store : ℕ)
  | reader (id : ℕ)
  | external (e : ε)
  deriving DecidableEq, Repr

/-- A store of the tree: the store it is a child of, the precondition of its
task, and the readers and writers that were registered on it. -/
structure TreeNode (ε β : Type) where
  store : Store (TreeSignal ε) β
  parent : Option ℕ := none
  precondition : Event (TreeSignal ε) := ∅
  registered : Event (TreeSignal ε) := ∅
  destroyed : Bool := false

/-- A tree of stores, numbered by their creation.  `orders` lists events that
do not trigger before others. -/
structure StoreTree (ε β : Type) where
  nodes : List (TreeNode ε β)
  numReaders : ℕ := 0
  orders : List (Event (TreeSignal ε) × Event (TreeSignal ε)) := []
  triggered : Event (TreeSignal ε) := ∅

/-- The operations on a store, a task somewhere else with its completion and
its precondition, and a completion that triggers. -/
inductive TreeAction (ε : Type) where
  | child (store : ℕ)
  | childAfter (store : ℕ) (ev : Event (TreeSignal ε))
  | view (store : ℕ)
  | viewAfter (store : ℕ) (ev : Event (TreeSignal ε))
  | readyAfter (store : ℕ) (ev : Event (TreeSignal ε))
  | destroy (store : ℕ)
  | task (completion precondition : Event (TreeSignal ε))
  | trigger (signal : TreeSignal ε)

variable {ε β : Type} [DecidableEq ε]

namespace TreeNode

/-- A child of store `parent`, for a task that starts after its precondition. -/
def ofChild (parent : ℕ) (store : Store (TreeSignal ε) β) : TreeNode ε β where
  store := store
  parent := some parent
  precondition := store.effectsPrecondition

/-- Replace the store and remember what was registered on it. -/
def register (node : TreeNode ε β) (store : Store (TreeSignal ε) β)
    (ev : Event (TreeSignal ε)) : TreeNode ε β :=
  { node with store := store, registered := node.registered ∪ ev }

omit [DecidableEq ε] in
/-- Children made by `child(ev)` are not used to make other stores. -/
def IsOpen (node : TreeNode ε β) : Prop := node.store.parentNotificationEvent.isSome

instance (node : TreeNode ε β) : Decidable node.IsOpen :=
  inferInstanceAs (Decidable (node.store.parentNotificationEvent.isSome = true))

end TreeNode

namespace StoreTree

/-- A tree with one store that nothing has been done with. -/
def init (childRwEvent : Option (EventPrecondition (TreeSignal ε))) (value : β) :
    StoreTree ε β where
  nodes := [{ store := { childRwEvent := childRwEvent, value := some value } }]

/-- The first store and open-ended children can be used, the latter once their
task has started. -/
def usable (tree : StoreTree ε β) (store : ℕ) : Option (TreeNode ε β) :=
  match tree.nodes[store]? with
  | some node =>
      if ¬node.destroyed ∧ (node.parent.isSome → node.IsOpen) ∧
        node.precondition ⊆ tree.triggered then some node else none
  | none => none

/-- A completion may trigger if all orders allow it, and the event of a store
only when the store has been destroyed. -/
def MayTrigger (tree : StoreTree ε β) (signal : TreeSignal ε) : Prop :=
  Respects tree.orders (insert signal tree.triggered) ∧
    match signal with
    | .notification store => ∃ node ∈ tree.nodes[store]?, node.destroyed ∧
        node.store.parentNotificationEvent = some signal
    | _ => True

instance (tree : StoreTree ε β) : (signal : TreeSignal ε) → Decidable (tree.MayTrigger signal)
  | .notification store => inferInstanceAs (Decidable (_ ∧ ∃ node ∈ tree.nodes[store]?,
      node.destroyed ∧ node.store.parentNotificationEvent = some (.notification store)))
  | .reader _ => inferInstanceAs (Decidable (_ ∧ True))
  | .external _ => inferInstanceAs (Decidable (_ ∧ True))

def step (tree : StoreTree ε β) : TreeAction ε → Option (StoreTree ε β)
  | .child store => do
      let node ← tree.usable store
      let ev : Event (TreeSignal ε) := {.notification tree.nodes.length}
      let (child, parent) := node.store.child (.notification tree.nodes.length)
      let new := TreeNode.ofChild store child
      pure { tree with
        nodes := tree.nodes.set store (node.register parent ev) ++ [new]
        orders := tree.orders ++ [(ev, new.precondition)] }
  | .childAfter store ev => do
      let node ← tree.usable store
      let (child, parent) := node.store.childAfter ev ev
      let new := TreeNode.ofChild store child
      -- the event is the end of the task of the child
      if ev ⊆ tree.triggered → new.precondition ⊆ tree.triggered then
        pure { tree with
          nodes := tree.nodes.set store (node.register parent ev) ++ [new]
          orders := tree.orders ++ [(ev, new.precondition)] }
      else none
  | .view store => do
      let node ← tree.usable store
      let reader := TreeSignal.reader tree.numReaders
      pure { tree with
        nodes := tree.nodes.set store (node.register (node.store.view reader).2 {reader})
        numReaders := tree.numReaders + 1 }
  | .viewAfter store ev => do
      let node ← tree.usable store
      pure { tree with
        nodes := tree.nodes.set store (node.register (node.store.viewAfter ev ev).2 ev) }
  | .readyAfter store ev => do
      let node ← tree.usable store
      pure { tree with
        nodes := tree.nodes.set store (node.register (node.store.readyAfter ev ev) ev) }
  | .destroy store => do
      let node ← tree.usable store
      pure { tree with
        nodes := tree.nodes.set store { node with destroyed := true }
        orders := tree.orders ++ (node.store.destroy false).notification.toList.map fun n ↦
          ({n.1}, n.2) }
  | .task completion precondition =>
      if completion ⊆ tree.triggered → precondition ⊆ tree.triggered then
        some { tree with orders := tree.orders ++ [(completion, precondition)] }
      else none
  | .trigger signal =>
      if tree.MayTrigger signal then
        some { tree with triggered := insert signal tree.triggered }
      else none

def run : StoreTree ε β → List (TreeAction ε) → Option (StoreTree ε β)
  | tree, [] => some tree
  | tree, action :: actions => do
      let tree ← tree.step action
      run tree actions

end StoreTree

end Zuku
