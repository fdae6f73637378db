import Zuku.Future
import Zuku.Library.ListLookup
import Zuku.Library.StepRuns
import Zuku.Library.TriggeredEvents

/-!
# Trees of subviews

A view that a future or a store hands out, and the views that are made out of
each other by `view()`.  The destructor of a view triggers its reader event
after the reader events of its subviews and the other events registered on it,
so the event of the owner fires only after the whole tree has been destroyed.
-/

namespace Zuku

open Event ListLookup TriggeredEvents

/-- The reader events of a tree by the number of their view, and the completions
of everything else. -/
inductive ViewSignal (ε : Type) where
  | reader (view : ℕ)
  | external (e : ε)
  deriving DecidableEq, Repr

/-- A view of the tree: the view it was made out of, and the completions of the
events that were registered on it by `view(ev)` and `DoneAfter(ev)`. -/
structure ViewNode (ε β : Type) where
  view : View (ViewSignal ε) β
  parent : Option ℕ := none
  registered : Event (ViewSignal ε) := ∅
  destroyed : Bool := false

/-- A tree of views, numbered by their creation, with the triggers so far. -/
structure ViewTree (ε β : Type) where
  nodes : List (ViewNode ε β)
  triggers : List (ViewSignal ε × Event (ViewSignal ε)) := []
  done : Event (ViewSignal ε) := ∅

/-- The operations on a view, and a completion of something else. -/
inductive ViewTreeAction (ε : Type) where
  | view (view : ℕ)
  | viewAfter (view : ℕ) (ev : Event (ViewSignal ε))
  | doneAfter (view : ℕ) (ev : Event (ViewSignal ε))
  | move (view : ℕ)
  | destroy (view : ℕ)
  | external (e : ε)

/-- What a view can be made out of first. -/
inductive ViewOwner (ε β : Type) where
  | future (future : Future (ViewSignal ε) β)
  | store (store : Store (ViewSignal ε) β)

variable {ε β : Type} [DecidableEq ε]

/-- `Future::view()` or `Store::view()`. -/
def ViewOwner.view : ViewOwner ε β → ViewSignal ε → View (ViewSignal ε) β
  | .future f, reader => (f.view reader).1
  | .store s, reader => (s.view reader).1

/-- Replace the view and remember what was registered on it. -/
def ViewNode.register (node : ViewNode ε β) (view : View (ViewSignal ε) β)
    (ev : Event (ViewSignal ε)) : ViewNode ε β :=
  { node with view := view, registered := node.registered ∪ ev }

namespace ViewTree

def init (owner : ViewOwner ε β) : ViewTree ε β where
  nodes := [{ view := owner.view (.reader 0) }]

def live (tree : ViewTree ε β) (view : ℕ) : Option (ViewNode ε β) :=
  match tree.nodes[view]? with
  | some node => if node.destroyed then none else some node
  | none => none

/-- A view is moved only before anything has been registered on it. -/
def step (tree : ViewTree ε β) : ViewTreeAction ε → Option (ViewTree ε β)
  | .view view => do
      let node ← tree.live view
      let (subview, owner) := node.view.subview (.reader tree.nodes.length)
      pure { tree with
        nodes := tree.nodes.set view { node with view := owner } ++
          [{ view := subview, parent := some view }] }
  | .viewAfter view ev => do
      let node ← tree.live view
      pure { tree with nodes := tree.nodes.set view (node.register (node.view.viewAfter ev).2 ev) }
  | .doneAfter view ev => do
      let node ← tree.live view
      pure { tree with nodes := tree.nodes.set view (node.register (node.view.doneAfter ev) ev) }
  | .move view => do
      let node ← tree.live view
      if node.view.views = [] then
        pure { tree with nodes := tree.nodes.set view { node with view := node.view.moved } }
      else none
  | .destroy view => do
      let node ← tree.live view
      pure { tree with
        nodes := tree.nodes.set view { node with destroyed := true }
        triggers := tree.triggers ++ node.view.destroy.toList }
  | .external e => some { tree with done := insert (.external e) tree.done }

def run : ViewTree ε β → List (ViewTreeAction ε) → Option (ViewTree ε β)
  | tree, [] => some tree
  | tree, action :: actions => do
      let tree ← tree.step action
      run tree actions

/-! ## The guarantee -/

variable (tree : ViewTree ε β)

/-- View `d` is view `c` or a subview made, at any depth, out of it. -/
def Descendant (c d : ℕ) : Prop :=
  Relation.ReflTransGen (fun c d ↦ ∃ node ∈ tree.nodes[d]?, node.parent = some c) c d

/-- A view and all its descendants have been destroyed, and every event that was
registered on one of them has fired. -/
def Finished (c : ℕ) : Prop :=
  ∀ d node, tree.Descendant c d → tree.nodes[d]? = some node →
    node.destroyed = true ∧ FiresAll tree.triggers tree.done node.registered

/-- The reader event of a view fires exactly when the view is finished, and it
has been triggered once if the view has been destroyed, else never. -/
structure ReleasesAtEnd : Prop where
  fires_iff : ∀ c < tree.nodes.length,
    Fires tree.triggers tree.done (.reader c) ↔ tree.Finished c
  once : ∀ (c : ℕ) node, tree.nodes[c]? = some node →
    (tree.triggers.map Prod.fst).count (.reader c) = if node.destroyed then 1 else 0

end ViewTree

/-! ## The invariant -/

/-- What holds of a tree between two operations. -/
structure ViewTreeInv (tree : ViewTree ε β) : Prop where
  dependency : ∀ (c : ℕ) node, tree.nodes[c]? = some node →
    node.view.warDependency = some (.reader c)
  done : ∀ c : ℕ, .reader c ∉ tree.done
  parent : ∀ (c d : ℕ) node, tree.nodes[d]? = some node → node.parent = some c →
    c < d ∧ ∃ owner ∈ tree.nodes[c]?, .reader d ∈ mergeAll owner.view.views
  registered : ∀ (c : ℕ) node, tree.nodes[c]? = some node →
    node.registered ⊆ mergeAll node.view.views
  /-- A view waits for what was registered on it and for its subviews only. -/
  views : ∀ (c : ℕ) node, tree.nodes[c]? = some node → ∀ a ∈ mergeAll node.view.views,
    a ∈ node.registered ∨ ∃ d, a = .reader d ∧ ∃ child ∈ tree.nodes[d]?, child.parent = some c
  triggers : ∀ (a : ViewSignal ε) ev, (a, ev) ∈ tree.triggers ↔ ∃ (c : ℕ) (node : ViewNode ε β),
    tree.nodes[c]? = some node ∧ node.destroyed = true ∧ a = .reader c ∧
      ev = mergeAll node.view.views
  once : ∀ (c : ℕ) node, tree.nodes[c]? = some node →
    (tree.triggers.map Prod.fst).count (.reader c) = if node.destroyed then 1 else 0

section Guarantee

variable {tree : ViewTree ε β}

/-- The reader event of a destroyed view fires with everything it waits for. -/
theorem ViewTreeInv.fires_reader (h : ViewTreeInv tree) {c : ℕ} {node : ViewNode ε β}
    (hnode : tree.nodes[c]? = some node) :
    Fires tree.triggers tree.done (.reader c) ↔
      node.destroyed = true ∧ FiresAll tree.triggers tree.done (mergeAll node.view.views) := by
  rw [fires_iff_exists (h.done c)]
  constructor
  · rintro ⟨ev, hev, hall⟩
    obtain ⟨c', node', hnode', hdestroyed, heq, rfl⟩ := (h.triggers _ _).mp hev
    obtain rfl := ViewSignal.reader.inj heq
    obtain rfl := Option.some.inj (hnode.symm.trans hnode')
    exact ⟨hdestroyed, hall⟩
  · rintro ⟨hdestroyed, hall⟩
    exact ⟨_, (h.triggers _ _).mpr ⟨c, node, hnode, hdestroyed, rfl, rfl⟩, hall⟩

/-- With a view its descendants fire as well. -/
theorem ViewTreeInv.fires_descendant (h : ViewTreeInv tree) {c d : ℕ}
    (hc : Fires tree.triggers tree.done (.reader c)) (hdescendant : tree.Descendant c d) :
    Fires tree.triggers tree.done (.reader d) := by
  induction hdescendant with
  | refl => exact hc
  | tail _ hchild ih =>
      obtain ⟨child, hchild, hparent⟩ := hchild
      obtain ⟨-, owner, howner, hmem⟩ := h.parent _ _ child hchild hparent
      exact ((h.fires_reader howner).mp ih).2 _ hmem

theorem ViewTreeInv.finished_of_fires (h : ViewTreeInv tree) {c : ℕ}
    (hc : Fires tree.triggers tree.done (.reader c)) : tree.Finished c := by
  intro d node hdescendant hnode
  obtain ⟨hdestroyed, hall⟩ := (h.fires_reader hnode).mp (h.fires_descendant hc hdescendant)
  exact ⟨hdestroyed, hall.subset (h.registered d node hnode)⟩

/-- Subviews come after their view, so the induction is on the views after. -/
theorem ViewTreeInv.fires_of_finished (h : ViewTreeInv tree) {c : ℕ}
    (hc : c < tree.nodes.length) (hfinished : tree.Finished c) :
    Fires tree.triggers tree.done (.reader c) := by
  induction hrest : tree.nodes.length - c using Nat.strong_induction_on generalizing c with
  | _ n ih =>
      subst hrest
      have hnode := List.getElem?_eq_getElem hc
      obtain ⟨hdestroyed, hregistered⟩ := hfinished c _ .refl hnode
      refine (h.fires_reader hnode).mpr ⟨hdestroyed, fun a ha ↦ ?_⟩
      rcases h.views c _ hnode a ha with hmem | ⟨d, rfl, child, hchild, hparent⟩
      · exact hregistered a hmem
      · have hd : d < tree.nodes.length := (List.getElem?_eq_some_iff.mp hchild).1
        have hlt : c < d := (h.parent c d child hchild hparent).1
        refine ih _ (by omega) hd (fun e node hdescendant hnode ↦ ?_) rfl
        exact hfinished e node (.head ⟨child, hchild, hparent⟩ hdescendant) hnode

theorem ViewTreeInv.releasesAtEnd (h : ViewTreeInv tree) : tree.ReleasesAtEnd where
  fires_iff _ hc := ⟨h.finished_of_fires, h.fires_of_finished hc⟩
  once := h.once

/-- A view that does not exist has not been triggered. -/
theorem ViewTreeInv.not_triggered (h : ViewTreeInv tree) {c : ℕ} (hc : tree.nodes[c]? = none) :
    (tree.triggers.map Prod.fst).count (.reader c) = 0 := by
  rw [List.count_eq_zero, List.mem_map]
  rintro ⟨⟨a, ev⟩, hmem, rfl⟩
  obtain ⟨d, node, hnode, -, heq, -⟩ := (h.triggers _ _).mp hmem
  obtain rfl := ViewSignal.reader.inj heq
  rw [hc] at hnode
  cases hnode

end Guarantee

/-! ## Steps -/

section Steps

variable {tree tree' : ViewTree ε β} {c : ℕ} {node : ViewNode ε β}

omit [DecidableEq ε] in
theorem live_eq_some (h : tree.live c = some node) :
    tree.nodes[c]? = some node ∧ node.destroyed = false := by
  cases hnode : tree.nodes[c]? with
  | none => simp [ViewTree.live, hnode] at h
  | some other =>
      simp only [ViewTree.live, hnode] at h
      split_ifs at h with hdestroyed
      obtain rfl := Option.some.inj h
      exact ⟨rfl, by simpa using hdestroyed⟩

/-- The node of a view after something has been registered on it, together with
the subview that was made for it if there is one. -/
structure Registers (tree : ViewTree ε β) (c : ℕ) (node node' : ViewNode ε β)
    (new : List (ViewNode ε β)) (ev : Event (ViewSignal ε)) : Prop where
  parent : node'.parent = node.parent
  destroyed : node'.destroyed = node.destroyed
  dependency : node'.view.warDependency = node.view.warDependency
  views : mergeAll node'.view.views = mergeAll node.view.views ∪ ev
  registered : node.registered ⊆ node'.registered ∧ node'.registered ⊆ node.registered ∪ ev
  explained : ∀ a ∈ ev, a ∈ node'.registered ∨
    ∃ i child, a = .reader (tree.nodes.length + i) ∧ new[i]? = some child
  new : ∀ (i : ℕ) child, new[i]? = some child → child.parent = some c ∧
    child.destroyed = false ∧ child.registered = ∅ ∧ child.view.views = [] ∧
    child.view.warDependency = some (.reader (tree.nodes.length + i)) ∧
    .reader (tree.nodes.length + i) ∈ ev

omit [DecidableEq ε] in
theorem getElem?_set_append_cases {node' z : ViewNode ε β} {new : List (ViewNode ε β)} {j : ℕ}
    (h : (tree.nodes.set c node' ++ new)[j]? = some z) :
    (j = c ∧ z = node') ∨ (j ≠ c ∧ tree.nodes[j]? = some z) ∨
      ∃ i, j = tree.nodes.length + i ∧ new[i]? = some z := by
  rcases Nat.lt_or_ge j (tree.nodes.set c node').length with hlt | hge
  · rw [List.getElem?_append_left hlt] at h
    exact (eq_or_getElem?_of_set h).imp_right Or.inl
  · rw [List.getElem?_append_right hge] at h
    rw [List.length_set] at h hge
    exact Or.inr (Or.inr ⟨_, (Nat.add_sub_of_le hge).symm, h⟩)

section Registers

variable {node' : ViewNode ε β} {new : List (ViewNode ε β)} {ev : Event (ViewSignal ε)}

/-- A node that stays where it was. -/
theorem Registers.getElem?_old (hr : Registers tree c node node' new ev)
    (hnode : tree.nodes[c]? = some node) {d : ℕ} {old : ViewNode ε β}
    (hd : tree.nodes[d]? = some old) : ∃ z, (tree.nodes.set c node' ++ new)[d]? = some z ∧
      z.parent = old.parent ∧ z.destroyed = old.destroyed ∧
      mergeAll old.view.views ⊆ mergeAll z.view.views := by
  by_cases heq : d = c
  · subst heq
    obtain rfl := Option.some.inj (hnode.symm.trans hd)
    refine ⟨node', ?_, hr.parent, hr.destroyed, hr.views ▸ Finset.subset_union_left⟩
    rw [List.getElem?_append_left (by simpa using (List.getElem?_eq_some_iff.mp hd).1)]
    exact getElem?_set_of_getElem? hd
  · refine ⟨old, ?_, rfl, rfl, Finset.Subset.refl _⟩
    rw [List.getElem?_append_left (by simpa using (List.getElem?_eq_some_iff.mp hd).1),
      List.getElem?_set_ne (Ne.symm heq)]
    exact hd

theorem ViewTreeInv.register (h : ViewTreeInv tree) (hnode : tree.nodes[c]? = some node)
    (hlive : node.destroyed = false) (hr : Registers tree c node node' new ev) :
    ViewTreeInv { tree with nodes := tree.nodes.set c node' ++ new } := by
  constructor
  · intro d z hz
    rcases getElem?_set_append_cases hz with ⟨rfl, rfl⟩ | ⟨-, hz⟩ | ⟨i, rfl, hzn⟩
    · exact hr.dependency.trans (h.dependency d node hnode)
    · exact h.dependency d z hz
    · exact (hr.new i z hzn).2.2.2.2.1
  · exact h.done
  · intro p d z hz hparent
    rcases getElem?_set_append_cases hz with ⟨rfl, rfl⟩ | ⟨-, hz⟩ | ⟨i, rfl, hzn⟩
    · obtain ⟨hlt, owner, howner, hmem⟩ := h.parent p d node hnode (hr.parent ▸ hparent)
      obtain ⟨z, hz, -, -, hviews⟩ := hr.getElem?_old hnode howner
      exact ⟨hlt, z, hz, hviews hmem⟩
    · obtain ⟨hlt, owner, howner, hmem⟩ := h.parent p d z hz hparent
      obtain ⟨z, hz, -, -, hviews⟩ := hr.getElem?_old hnode howner
      exact ⟨hlt, z, hz, hviews hmem⟩
    · obtain ⟨hc, -, -, -, -, hmem⟩ := hr.new i z hzn
      obtain rfl := Option.some.inj (hc.symm.trans hparent)
      have hlt := (List.getElem?_eq_some_iff.mp hnode).1
      refine ⟨by omega, node', ?_, hr.views ▸ Finset.mem_union_right _ hmem⟩
      rw [Option.mem_def, List.getElem?_append_left (by simpa using hlt)]
      exact getElem?_set_of_getElem? hnode
  · intro d z hz
    rcases getElem?_set_append_cases hz with ⟨rfl, rfl⟩ | ⟨-, hz⟩ | ⟨i, rfl, hzn⟩
    · rw [hr.views]
      exact hr.registered.2.trans
        (Finset.union_subset_union_left (h.registered d node hnode))
    · exact h.registered d z hz
    · rw [(hr.new i z hzn).2.2.1]
      exact Finset.empty_subset _
  · intro d z hz a ha
    have hold : ∀ e : ℕ, (∃ child ∈ tree.nodes[e]?, child.parent = some d) →
        ∃ child ∈ (tree.nodes.set c node' ++ new)[e]?, child.parent = some d := by
      rintro e ⟨child, hchild, hparent⟩
      obtain ⟨z, hz, heq, -⟩ := hr.getElem?_old hnode hchild
      exact ⟨z, hz, heq.trans hparent⟩
    rcases getElem?_set_append_cases hz with ⟨rfl, rfl⟩ | ⟨-, hz⟩ | ⟨i, rfl, hzn⟩
    · rw [hr.views, Finset.mem_union] at ha
      rcases ha with ha | ha
      · rcases h.views d node hnode a ha with hmem | ⟨e, rfl, hchild⟩
        · exact Or.inl (hr.registered.1 hmem)
        · exact Or.inr ⟨e, rfl, hold e hchild⟩
      · rcases hr.explained a ha with hmem | ⟨i, child, rfl, hchild⟩
        · exact Or.inl hmem
        · refine Or.inr ⟨_, rfl, child, ?_, (hr.new i child hchild).1⟩
          rw [Option.mem_def, List.getElem?_append_right (by simp), List.length_set,
            Nat.add_sub_cancel_left]
          exact hchild
    · rcases h.views d z hz a ha with hmem | ⟨e, rfl, hchild⟩
      · exact Or.inl hmem
      · exact Or.inr ⟨e, rfl, hold e hchild⟩
    · rw [(hr.new i z hzn).2.2.2.1] at ha
      exact absurd ha (Finset.notMem_empty a)
  · intro a event
    rw [h.triggers]
    constructor
    · rintro ⟨d, old, hold, hdestroyed, rfl, rfl⟩
      have hne : d ≠ c := by
        rintro rfl
        obtain rfl := Option.some.inj (hnode.symm.trans hold)
        exact Bool.false_ne_true (hlive.symm.trans hdestroyed)
      refine ⟨d, old, ?_, hdestroyed, rfl, rfl⟩
      rw [List.getElem?_append_left (by simpa using (List.getElem?_eq_some_iff.mp hold).1),
        List.getElem?_set_ne hne.symm]
      exact hold
    · rintro ⟨d, z, hz, hdestroyed, rfl, rfl⟩
      rcases getElem?_set_append_cases hz with ⟨rfl, rfl⟩ | ⟨-, hz⟩ | ⟨i, rfl, hzn⟩
      · exact absurd ((hr.destroyed.trans hlive).symm.trans hdestroyed) Bool.false_ne_true
      · exact ⟨d, z, hz, hdestroyed, rfl, rfl⟩
      · exact absurd ((hr.new i z hzn).2.1.symm.trans hdestroyed) Bool.false_ne_true
  · intro d z hz
    rcases getElem?_set_append_cases hz with ⟨rfl, rfl⟩ | ⟨-, hz⟩ | ⟨i, rfl, hzn⟩
    · rw [hr.destroyed]
      exact h.once d node hnode
    · exact h.once d z hz
    · rw [(hr.new i z hzn).2.1]
      exact h.not_triggered (List.getElem?_eq_none (Nat.le_add_right _ _))

end Registers

/-- The destruction of a view triggers its reader event. -/
theorem ViewTreeInv.destroy (h : ViewTreeInv tree) (hnode : tree.nodes[c]? = some node)
    (hlive : node.destroyed = false) :
    ViewTreeInv { tree with
      nodes := tree.nodes.set c { node with destroyed := true }
      triggers := tree.triggers ++ [(.reader c, mergeAll node.view.views)] } := by
  have hold {d : ℕ} {old : ViewNode ε β} (hd : tree.nodes[d]? = some old) :
      ∃ z, (tree.nodes.set c { node with destroyed := true })[d]? = some z ∧
        z.parent = old.parent ∧ z.view = old.view := by
    by_cases heq : d = c
    · subst heq
      obtain rfl := Option.some.inj (hnode.symm.trans hd)
      exact ⟨_, getElem?_set_of_getElem? hd, rfl, rfl⟩
    · exact ⟨old, (List.getElem?_set_ne (Ne.symm heq)).trans hd, rfl, rfl⟩
  have hcount (d : ℕ) :
      ((tree.triggers ++ [(ViewSignal.reader c, mergeAll node.view.views)]).map
        Prod.fst).count (ViewSignal.reader d) =
      (tree.triggers.map Prod.fst).count (.reader d) + if d = c then 1 else 0 := by
    rw [List.map_append, List.count_append, List.map_singleton, List.count_singleton]
    rcases eq_or_ne d c with rfl | hne
    · simp
    · simp [hne, hne.symm]
  constructor
  · intro d z hz
    rcases eq_or_getElem?_of_set hz with ⟨rfl, rfl⟩ | ⟨-, hz⟩
    · exact h.dependency d node hnode
    · exact h.dependency d z hz
  · exact h.done
  · intro p d z hz hparent
    have hlater : p < d ∧ ∃ owner ∈ tree.nodes[p]?, .reader d ∈ mergeAll owner.view.views := by
      rcases eq_or_getElem?_of_set hz with ⟨rfl, rfl⟩ | ⟨-, hz⟩
      · exact h.parent p d node hnode hparent
      · exact h.parent p d z hz hparent
    obtain ⟨hlt, owner, howner, hmem⟩ := hlater
    obtain ⟨z, hz, -, hview⟩ := hold howner
    exact ⟨hlt, z, hz, hview ▸ hmem⟩
  · intro d z hz
    rcases eq_or_getElem?_of_set hz with ⟨rfl, rfl⟩ | ⟨-, hz⟩
    · exact h.registered d node hnode
    · exact h.registered d z hz
  · intro d z hz a ha
    have hexplained : a ∈ z.registered ∨
        ∃ e : ℕ, a = .reader e ∧ ∃ child ∈ tree.nodes[e]?, child.parent = some d := by
      rcases eq_or_getElem?_of_set hz with ⟨rfl, rfl⟩ | ⟨-, hz⟩
      · exact h.views d node hnode a ha
      · exact h.views d z hz a ha
    refine hexplained.imp_right ?_
    rintro ⟨e, rfl, child, hchild, hparent⟩
    obtain ⟨z, hz, heq, -⟩ := hold hchild
    exact ⟨e, rfl, z, hz, heq.trans hparent⟩
  · intro a ev
    rw [List.mem_append, List.mem_singleton, h.triggers]
    constructor
    · rintro (⟨d, old, hd, hdestroyed, rfl, rfl⟩ | heq)
      · have hne : d ≠ c := by
          rintro rfl
          obtain rfl := Option.some.inj (hnode.symm.trans hd)
          exact Bool.false_ne_true (hlive.symm.trans hdestroyed)
        exact ⟨d, old, (List.getElem?_set_ne hne.symm).trans hd, hdestroyed, rfl, rfl⟩
      · obtain ⟨rfl, rfl⟩ := Prod.mk.inj heq
        exact ⟨c, _, getElem?_set_of_getElem? hnode, rfl, rfl, rfl⟩
    · rintro ⟨d, z, hz, hdestroyed, rfl, rfl⟩
      rcases eq_or_getElem?_of_set hz with ⟨rfl, rfl⟩ | ⟨-, hz⟩
      · exact Or.inr rfl
      · exact Or.inl ⟨d, z, hz, hdestroyed, rfl, rfl⟩
  · intro d z hz
    rw [hcount]
    rcases eq_or_getElem?_of_set hz with ⟨rfl, rfl⟩ | ⟨hne, hz⟩
    · rw [h.once d node hnode, hlive, if_pos rfl]
      rfl
    · rw [h.once d z hz, if_neg hne, Nat.add_zero]

/-- A completion of something else triggers. -/
theorem ViewTreeInv.external (h : ViewTreeInv tree) (e : ε) :
    ViewTreeInv { tree with done := insert (.external e) tree.done } where
  dependency := h.dependency
  done c hmem := by
    rcases Finset.mem_insert.mp hmem with heq | hmem
    · cases heq
    · exact h.done c hmem
  parent := h.parent
  registered := h.registered
  views := h.views
  triggers := h.triggers
  once := h.once

/-- The node of a view and the subview that is made out of it. -/
theorem registers_subview (tree : ViewTree ε β) (c : ℕ) (node : ViewNode ε β) :
    Registers tree c node
      { node with view := (node.view.subview (.reader tree.nodes.length)).2 }
      [{ view := (node.view.subview (.reader tree.nodes.length)).1, parent := some c }]
      {.reader tree.nodes.length} where
  parent := rfl
  destroyed := rfl
  dependency := rfl
  views := node.view.mergeAll_views_doneAfter _
  registered := ⟨Finset.Subset.refl _, Finset.subset_union_left⟩
  explained a ha := Or.inr ⟨0, _, Finset.mem_singleton.mp ha, rfl⟩
  new i child hchild := by
    obtain ⟨hi, rfl⟩ := List.getElem?_eq_some_iff.mp hchild
    obtain rfl : i = 0 := Nat.lt_one_iff.mp hi
    exact ⟨rfl, rfl, rfl, rfl, rfl, Finset.mem_singleton_self _⟩

/-- The node of a view that has been told about an event. -/
theorem registers_doneAfter (tree : ViewTree ε β) (c : ℕ) (node : ViewNode ε β)
    (ev : Event (ViewSignal ε)) :
    Registers tree c node (node.register (node.view.doneAfter ev) ev) [] ev where
  parent := rfl
  destroyed := rfl
  dependency := rfl
  views := node.view.mergeAll_views_doneAfter ev
  registered := ⟨Finset.subset_union_left, Finset.Subset.refl _⟩
  explained _ ha := Or.inl (Finset.mem_union_right _ ha)
  new _ _ hchild := absurd hchild (by simp)

theorem ViewTreeInv.doneAfter (h : ViewTreeInv tree) (hnode : tree.nodes[c]? = some node)
    (hlive : node.destroyed = false) (ev : Event (ViewSignal ε)) :
    ViewTreeInv { tree with
      nodes := tree.nodes.set c (node.register (node.view.doneAfter ev) ev) } := by
  have hregister := h.register hnode hlive (registers_doneAfter tree c node ev)
  rwa [List.append_nil] at hregister

end Steps

/-! ## Runs -/

section Runs

variable {tree tree' : ViewTree ε β}

theorem ViewTreeInv.step (h : ViewTreeInv tree) {action : ViewTreeAction ε}
    (hstep : tree.step action = some tree') : ViewTreeInv tree' := by
  cases action with
  | view c =>
      obtain ⟨node, hlive, hstep⟩ := Option.bind_eq_some_iff.mp hstep
      obtain ⟨hnode, hlive⟩ := live_eq_some hlive
      obtain rfl := Option.some.inj hstep
      exact h.register hnode hlive (registers_subview tree c node)
  | viewAfter c ev =>
      obtain ⟨node, hlive, hstep⟩ := Option.bind_eq_some_iff.mp hstep
      obtain ⟨hnode, hlive⟩ := live_eq_some hlive
      obtain rfl := Option.some.inj hstep
      exact h.doneAfter hnode hlive ev
  | doneAfter c ev =>
      obtain ⟨node, hlive, hstep⟩ := Option.bind_eq_some_iff.mp hstep
      obtain ⟨hnode, hlive⟩ := live_eq_some hlive
      obtain rfl := Option.some.inj hstep
      exact h.doneAfter hnode hlive ev
  | move c =>
      obtain ⟨node, hlive, hstep⟩ := Option.bind_eq_some_iff.mp hstep
      obtain ⟨hnode, -⟩ := live_eq_some hlive
      obtain ⟨hviews, hstep⟩ := Option.ite_none_right_eq_some.mp hstep
      obtain rfl := Option.some.inj hstep
      -- the move only loses the events of subviews, and there are none
      have hmoved : node.view.moved = node.view := by
        rw [View.moved, ← hviews]
      obtain ⟨hlt, rfl⟩ := List.getElem?_eq_some_iff.mp hnode
      rw [hmoved, List.set_getElem_self]
      exact h
  | destroy c =>
      obtain ⟨node, hlive, hstep⟩ := Option.bind_eq_some_iff.mp hstep
      obtain ⟨hnode, hlive⟩ := live_eq_some hlive
      obtain rfl := Option.some.inj hstep
      rw [View.destroy, h.dependency c node hnode]
      exact h.destroy hnode hlive
  | external e =>
      obtain rfl := Option.some.inj hstep
      exact h.external e

theorem ViewTreeInv.run (h : ViewTreeInv tree) {actions : List (ViewTreeAction ε)}
    (hrun : tree.run actions = some tree') : ViewTreeInv tree' :=
  StepRuns.run_invariant (fun tree action tree' ↦ tree.step action = some tree')
    (fun tree actions tree' ↦ tree.run actions = some tree') (fun _ _ ↦ Option.some.inj)
    (fun _ _ _ _ ↦ Option.bind_eq_some_iff.mp) (fun _ _ _ h hstep ↦ h.step hstep) h hrun

theorem viewTreeInv_init (owner : ViewOwner ε β) : ViewTreeInv (ViewTree.init owner) := by
  have hroot {c : ℕ} {node : ViewNode ε β} (hc : (ViewTree.init owner).nodes[c]? = some node) :
      c = 0 ∧ node = { view := owner.view (.reader 0) } := by
    obtain ⟨hlt, rfl⟩ := List.getElem?_eq_some_iff.mp hc
    obtain rfl : c = 0 := Nat.lt_one_iff.mp hlt
    exact ⟨rfl, rfl⟩
  have hviews : (owner.view (.reader 0)).views = [] := by cases owner <;> rfl
  constructor
  · intro c node hc
    obtain ⟨rfl, rfl⟩ := hroot hc
    cases owner <;> rfl
  · exact fun c ↦ Finset.notMem_empty _
  · intro c d node hd hparent
    rw [(hroot hd).2] at hparent
    cases hparent
  · intro c node hc
    rw [(hroot hc).2]
    exact Finset.empty_subset _
  · intro c node hc a ha
    rw [(hroot hc).2, hviews] at ha
    exact absurd ha (Finset.notMem_empty a)
  · intro a ev
    refine ⟨fun hmem ↦ absurd hmem List.not_mem_nil, ?_⟩
    rintro ⟨c, node, hc, hdestroyed, -⟩
    rw [(hroot hc).2] at hdestroyed
    cases hdestroyed
  · intro c node hc
    rw [(hroot hc).2]
    rfl

end Runs

/-- The parent is destroyed before its subview, which an event is registered on. -/
def parentFirst : List (ViewTreeAction ℕ) :=
  [.view 0, .doneAfter 1 {.external 5}, .destroy 0, .destroy 1, .external 5]

end Zuku
