import Zuku.StoreTree
import Zuku.Library.ListLookup

/-!
# What the release of a store waits for

The destructor of an open-ended store passes the event of its writers to the
parent.  Where that event implies the readers that are still pending, and
`ReadyAfter` was only given events that imply those it drops, the notification
waits for everything that was done through the store and its descendants.
-/

namespace Zuku

open Event EventPrecondition EventImplication ListLookup

variable {ε β : Type} [DecidableEq ε]

/-! ## The guarantee -/

namespace StoreTree

/-- Store `d` is store `c` or an open-ended store made, at any depth, out of it. -/
def Descendant (tree : StoreTree ε β) (c d : ℕ) : Prop :=
  Relation.ReflTransGen
    (fun c d ↦ ∃ node ∈ tree.nodes[d]?, node.parent = some c ∧ node.IsOpen) c d

/-- All readers and writers of a store and its descendants are done. -/
def Finished (tree : StoreTree ε β) (c : ℕ) : Prop :=
  ∀ d node, tree.Descendant c d → tree.nodes[d]? = some node → node.registered ⊆ tree.triggered

/-- The notification of a store comes after everything done through it, and the
writers of its parent that are made after it start after that. -/
structure Released (tree : StoreTree ε β) : Prop where
  notified : ∀ c, .notification c ∈ tree.triggered → tree.Finished c
  next_writer : ∀ (c d p : ℕ) nc nd, tree.nodes[c]? = some nc → tree.nodes[d]? = some nd →
    nc.parent = some p → nc.IsOpen → nd.parent = some p → c < d →
    nd.precondition ⊆ tree.triggered → tree.Finished c

/-- The readers that an operation forgets are implied by what it keeps. -/
def ReadersCovered (tree : StoreTree ε β) : TreeAction ε → Prop
  | .readyAfter store ev => ∀ node ∈ tree.nodes[store]?,
      ∀ a ∈ effectsOf node.store.warPrecondition,
        Implied tree.orders tree.triggered (ev ∪ effectsOf node.store.childRwEvent) a
  | .destroy store => ∀ node ∈ tree.nodes[store]?, node.IsOpen →
      ∀ a ∈ effectsOf node.store.warPrecondition,
        Implied tree.orders tree.triggered (effectsOf node.store.childRwEvent) a
  | _ => True

/-- In every step of a run the readers that are forgotten are implied. -/
def RunCovered : StoreTree ε β → List (TreeAction ε) → Prop
  | _, [] => True
  | tree, action :: actions => tree.ReadersCovered action ∧
      ∀ tree' ∈ tree.step action, RunCovered tree' actions

end StoreTree

/-! ## The invariant -/

/-- What holds of a tree between two operations. -/
structure TreeInv (tree : StoreTree ε β) : Prop where
  respects : Respects tree.orders tree.triggered
  notification : ∀ (c : ℕ) node n, tree.nodes[c]? = some node →
    node.store.parentNotificationEvent = some n → n = .notification c
  destroyed : ∀ c, .notification c ∈ tree.triggered →
    ∃ node ∈ tree.nodes[c]?, node.destroyed = true ∧ node.IsOpen
  /-- What was registered on a live store is pending or implied by its writers. -/
  live : ∀ (c : ℕ) node, tree.nodes[c]? = some node → node.destroyed = false →
    ∀ a ∈ node.registered, a ∈ effectsOf node.store.warPrecondition ∨
      Implied tree.orders tree.triggered (effectsOf node.store.childRwEvent) a
  /-- What was registered on a destroyed store is implied by its notification. -/
  released : ∀ (c : ℕ) node, tree.nodes[c]? = some node → node.destroyed = true → node.IsOpen →
    ∀ a ∈ node.registered, Implied tree.orders tree.triggered {.notification c} a
  child_registered : ∀ (c d : ℕ) node, tree.nodes[d]? = some node → node.parent = some c →
    node.IsOpen → ∃ parent ∈ tree.nodes[c]?, .notification d ∈ parent.registered ∧
      .notification d ∈ effectsOf parent.store.childRwEvent
  sibling : ∀ (c d p : ℕ) nc nd, tree.nodes[c]? = some nc → tree.nodes[d]? = some nd →
    nc.parent = some p → nc.IsOpen → nd.parent = some p → c < d →
    .notification c ∈ nd.precondition

section Guarantee

variable {tree : StoreTree ε β}

omit [DecidableEq ε] in
/-- Everything registered on a notified store is done. -/
theorem TreeInv.registered_subset (h : TreeInv tree) {c : ℕ}
    (hc : .notification c ∈ tree.triggered) {node : TreeNode ε β}
    (hnode : tree.nodes[c]? = some node) : node.registered ⊆ tree.triggered := by
  obtain ⟨node', hnode', hdestroyed, hopen⟩ := h.destroyed c hc
  obtain rfl : node = node' := Option.some.inj (hnode.symm.trans hnode')
  intro a ha
  exact (h.released c node hnode hdestroyed hopen a ha).sound h.respects
    (Finset.singleton_subset_iff.mpr hc)

omit [DecidableEq ε] in
/-- The descendants of a notified store are notified. -/
theorem TreeInv.notification_of_descendant (h : TreeInv tree) {c d : ℕ}
    (hc : .notification c ∈ tree.triggered) (hdescendant : tree.Descendant c d) :
    .notification d ∈ tree.triggered := by
  induction hdescendant with
  | refl => exact hc
  | tail _ hchild ih =>
      obtain ⟨node, hnode, hparent, hopen⟩ := hchild
      obtain ⟨parent, hparent', hregistered, -⟩ := h.child_registered _ _ node hnode hparent hopen
      exact h.registered_subset ih hparent' hregistered

omit [DecidableEq ε] in
theorem TreeInv.finished (h : TreeInv tree) {c : ℕ} (hc : .notification c ∈ tree.triggered) :
    tree.Finished c :=
  fun _ _ hdescendant hnode ↦
    h.registered_subset (h.notification_of_descendant hc hdescendant) hnode

omit [DecidableEq ε] in
theorem TreeInv.isReleased (h : TreeInv tree) : tree.Released where
  notified _ hc := h.finished hc
  next_writer c d p nc nd hc hd hcp hopen hdp hcd hready :=
    h.finished (hready (h.sibling c d p nc nd hc hd hcp hopen hdp hcd))

end Guarantee

/-! ## Steps -/

section Steps

variable {tree : StoreTree ε β} {store : ℕ} {node : TreeNode ε β}

theorem usable_eq_some (h : tree.usable store = some node) :
    tree.nodes[store]? = some node ∧ node.destroyed = false ∧
      node.precondition ⊆ tree.triggered := by
  cases hnode : tree.nodes[store]? with
  | none => simp [StoreTree.usable, hnode] at h
  | some other =>
      simp only [StoreTree.usable, hnode] at h
      split_ifs at h with hif
      obtain rfl := Option.some.inj h
      exact ⟨rfl, by simpa using hif.1, hif.2.2⟩

/-- The node of a store after an operation that registers something on it. -/
theorem TreeInv.register (h : TreeInv tree) (hnode : tree.nodes[store]? = some node)
    (hlive : node.destroyed = false) (s : Store (TreeSignal ε) β) (ev : Event (TreeSignal ε))
    (orders : List (Event (TreeSignal ε) × Event (TreeSignal ε)))
    (hnotification : s.parentNotificationEvent = node.store.parentNotificationEvent)
    (hrw : effectsOf node.store.childRwEvent ⊆ effectsOf s.childRwEvent)
    (hcover : ∀ a ∈ node.registered ∪ ev, a ∈ effectsOf s.warPrecondition ∨
      Implied (tree.orders ++ orders) tree.triggered (effectsOf s.childRwEvent) a)
    (horders : Respects orders tree.triggered) (numReaders : ℕ) :
    TreeInv ⟨tree.nodes.set store (node.register s ev), numReaders, tree.orders ++ orders,
      tree.triggered⟩ := by
  have hopen : (node.register s ev).IsOpen ↔ node.IsOpen := by
    rw [TreeNode.IsOpen, TreeNode.IsOpen, ← hnotification]
    rfl
  have hmono {e : Event (TreeSignal ε)} {a : TreeSignal ε}
      (ha : Implied tree.orders tree.triggered e a) :
      Implied (tree.orders ++ orders) tree.triggered e a :=
    ha.mono (List.subset_append_left _ _) (Finset.Subset.refl _)
  -- a node of the new tree has the parent and the notification of the old one
  have hold {c : ℕ} {nc : TreeNode ε β}
      (hc : (tree.nodes.set store (node.register s ev))[c]? = some nc) :
      ∃ old, tree.nodes[c]? = some old ∧ old.parent = nc.parent ∧
        old.precondition = nc.precondition ∧ (nc.IsOpen ↔ old.IsOpen) := by
    rcases eq_or_getElem?_of_set hc with ⟨rfl, rfl⟩ | ⟨-, hc⟩
    · exact ⟨node, hnode, rfl, rfl, hopen⟩
    · exact ⟨nc, hc, rfl, rfl, Iff.rfl⟩
  constructor
  · exact respects_append h.respects horders
  · intro c nc n hc hn
    rcases eq_or_getElem?_of_set hc with ⟨rfl, rfl⟩ | ⟨-, hc⟩
    · exact h.notification c node n hnode (hnotification ▸ hn)
    · exact h.notification c nc n hc hn
  · intro c hc
    obtain ⟨nc, hnc, hdestroyed, hncopen⟩ := h.destroyed c hc
    have hne : store ≠ c := by
      rintro rfl
      obtain rfl : node = nc := Option.some.inj (hnode.symm.trans hnc)
      rw [hlive] at hdestroyed
      exact Bool.false_ne_true hdestroyed
    exact ⟨nc, (List.getElem?_set_ne hne).trans hnc, hdestroyed, hncopen⟩
  · intro c nc hc hdestroyed a ha
    rcases eq_or_getElem?_of_set hc with ⟨rfl, rfl⟩ | ⟨-, hc⟩
    · exact hcover a ha
    · exact (h.live c nc hc hdestroyed a ha).imp_right hmono
  · intro c nc hc hdestroyed hncopen a ha
    rcases eq_or_getElem?_of_set hc with ⟨rfl, rfl⟩ | ⟨-, hc⟩
    · rw [TreeNode.register, hlive] at hdestroyed
      exact absurd hdestroyed Bool.false_ne_true
    · exact hmono (h.released c nc hc hdestroyed hncopen a ha)
  · intro c d nd hd hparent hndopen
    obtain ⟨old, hd, hparent', -, hopen'⟩ := hold hd
    obtain ⟨np, hnp, hregistered, hnprw⟩ :=
      h.child_registered c d old hd (hparent'.trans hparent) (hopen'.mp hndopen)
    by_cases heq : c = store
    · subst heq
      obtain rfl : node = np := Option.some.inj (hnode.symm.trans hnp)
      exact ⟨_, getElem?_set_of_getElem? hnode, Finset.mem_union_left _ hregistered, hrw hnprw⟩
    · exact ⟨np, (List.getElem?_set_ne (Ne.symm heq)).trans hnp, hregistered, hnprw⟩
  · intro c d p nc nd hc hd hcp hncopen hdp hcd
    obtain ⟨oldc, hc, hcp', -, hcopen⟩ := hold hc
    obtain ⟨oldd, hd, hdp', hpre, -⟩ := hold hd
    rw [← hpre]
    exact h.sibling c d p oldc oldd hc hd (hcp'.trans hcp) (hcopen.mp hncopen) (hdp'.trans hdp) hcd

/-- A child that the store was told about. -/
theorem TreeInv.addChild (h : TreeInv tree) {parent new : TreeNode ε β}
    (hstore : tree.nodes[store]? = some parent) (hparent : new.parent = some store)
    (hregistered : new.registered = ∅) (hlive : new.destroyed = false)
    (hnotification : ∀ n, new.store.parentNotificationEvent = some n →
      n = .notification tree.nodes.length ∧ n ∈ parent.registered ∧
        n ∈ effectsOf parent.store.childRwEvent)
    (hsibling : ∀ (c : ℕ) nc, tree.nodes[c]? = some nc → nc.parent = some store → nc.IsOpen →
      .notification c ∈ new.precondition) :
    TreeInv { tree with nodes := tree.nodes ++ [new] } := by
  constructor
  · exact h.respects
  · intro c nc n hc hn
    rcases eq_or_getElem?_of_push hc with ⟨rfl, rfl⟩ | hc
    · exact (hnotification n hn).1
    · exact h.notification c nc n hc hn
  · intro c hc
    obtain ⟨nc, hnc, hdestroyed⟩ := h.destroyed c hc
    exact ⟨nc, getElem?_push_of_getElem? hnc, hdestroyed⟩
  · intro c nc hc hdestroyed a ha
    rcases eq_or_getElem?_of_push hc with ⟨rfl, rfl⟩ | hc
    · rw [hregistered] at ha
      exact absurd ha (Finset.notMem_empty a)
    · exact h.live c nc hc hdestroyed a ha
  · intro c nc hc hdestroyed hopen a ha
    rcases eq_or_getElem?_of_push hc with ⟨rfl, rfl⟩ | hc
    · rw [hregistered] at ha
      exact absurd ha (Finset.notMem_empty a)
    · exact h.released c nc hc hdestroyed hopen a ha
  · intro c d nd hd hdp hopen
    rcases eq_or_getElem?_of_push hd with ⟨rfl, rfl⟩ | hd
    · obtain rfl : store = c := Option.some.inj (hparent.symm.trans hdp)
      obtain ⟨n, hn⟩ := Option.isSome_iff_exists.mp hopen
      obtain ⟨rfl, hmem, hrw⟩ := hnotification n hn
      exact ⟨parent, getElem?_push_of_getElem? hstore, hmem, hrw⟩
    · obtain ⟨np, hnp, hfacts⟩ := h.child_registered c d nd hd hdp hopen
      exact ⟨np, getElem?_push_of_getElem? hnp, hfacts⟩
  · intro c d p nc nd hc hd hcp hopen hdp hcd
    rcases eq_or_getElem?_of_push hc with ⟨rfl, rfl⟩ | hcold
    · have hlt := (List.getElem?_eq_some_iff.mp hd).1
      rw [List.length_append, List.length_singleton] at hlt
      omega
    rcases eq_or_getElem?_of_push hd with ⟨rfl, rfl⟩ | hdold
    · obtain rfl : store = p := Option.some.inj (hparent.symm.trans hdp)
      exact hsibling c nc hcold hcp hopen
    · exact h.sibling c d p nc nd hcold hdold hcp hopen hdp hcd

/-- The event of a writer that starts after the precondition of the store
implies everything registered before it. -/
theorem TreeInv.implied_of_writer (h : TreeInv tree) (hnode : tree.nodes[store]? = some node)
    (hlive : node.destroyed = false) (ev : Event (TreeSignal ε)) {a : TreeSignal ε}
    (ha : a ∈ node.registered ∪ ev) :
    Implied (tree.orders ++ [(ev, node.store.effectsPrecondition)]) tree.triggered
      (ev ∪ effectsOf node.store.childRwEvent) a := by
  rcases Finset.mem_union.mp ha with ha | ha
  · rcases h.live store node hnode hlive a ha with hwar | himplied
    · have hmem : (ev, node.store.effectsPrecondition) ∈
          tree.orders ++ [(ev, node.store.effectsPrecondition)] := by simp
      refine .order hmem
        (fun b hb ↦ .mem (Finset.mem_union_left _ hb)) ?_
      rw [Store.effectsPrecondition_eq]
      exact Finset.mem_union_left _ hwar
    · exact (himplied.mono (List.subset_append_left _ _) (Finset.Subset.refl _)).subset
        Finset.subset_union_right
  · exact .mem (Finset.mem_union_left _ ha)

/-- A child, open-ended or not, whose task ends with `ev`. -/
theorem TreeInv.makeChild (h : TreeInv tree) (hnode : tree.nodes[store]? = some node)
    (hlive : node.destroyed = false) {notification : Option (TreeSignal ε)}
    {ev : Event (TreeSignal ε)}
    (hnotification : ∀ n, notification = some n → n = .notification tree.nodes.length ∧ n ∈ ev)
    (hev : ev ⊆ tree.triggered → node.store.effectsPrecondition ⊆ tree.triggered) :
    TreeInv { tree with
      nodes := tree.nodes.set store (node.register (node.store.readyAfter ev ev) ev) ++
        [TreeNode.ofChild store (node.store.newChild notification)]
      orders := tree.orders ++ [(ev, node.store.effectsPrecondition)] } := by
  have hwriters : effectsOf node.store.childRwEvent ⊆
      effectsOf (node.store.readyAfter ev ev).childRwEvent := by
    rw [Store.effectsOf_childRwEvent_readyAfter]
    exact Finset.subset_union_right
  have horders : Respects [(ev, node.store.effectsPrecondition)] tree.triggered := by
    simpa [Respects] using hev
  have hcover : ∀ a ∈ node.registered ∪ ev,
      a ∈ effectsOf (node.store.readyAfter ev ev).warPrecondition ∨
        Implied (tree.orders ++ [(ev, node.store.effectsPrecondition)]) tree.triggered
          (effectsOf (node.store.readyAfter ev ev).childRwEvent) a := by
    intro a ha
    rw [Store.effectsOf_childRwEvent_readyAfter]
    exact Or.inr (h.implied_of_writer hnode hlive ev ha)
  have hregister := h.register hnode hlive (node.store.readyAfter ev ev) ev _ rfl hwriters hcover
    horders tree.numReaders
  refine hregister.addChild (getElem?_set_of_getElem? hnode) rfl rfl rfl ?_ ?_
  · intro n hn
    obtain ⟨rfl, hmem⟩ := hnotification n hn
    refine ⟨by rw [List.length_set], Finset.mem_union_right _ hmem, ?_⟩
    rw [TreeNode.register, Store.effectsOf_childRwEvent_readyAfter]
    exact Finset.mem_union_left _ hmem
  · intro c nc hc hcp hopen
    have hsibling {old : TreeNode ε β} (hold : tree.nodes[c]? = some old)
        (hparent : old.parent = some store) (holdopen : old.IsOpen) :
        .notification c ∈ node.store.effectsPrecondition := by
      obtain ⟨np, hnp, -, hrw⟩ := h.child_registered store c old hold hparent holdopen
      obtain rfl : node = np := Option.some.inj (hnode.symm.trans hnp)
      rw [Store.effectsPrecondition_eq]
      exact Finset.mem_union_right _ hrw
    rcases eq_or_getElem?_of_set hc with ⟨rfl, rfl⟩ | ⟨-, hc⟩
    · exact hsibling hnode hcp hopen
    · exact hsibling hc hcp hopen

/-- The end of the task of a store, whose pending readers are implied. -/
theorem TreeInv.destroyStore (h : TreeInv tree) (hnode : tree.nodes[store]? = some node)
    (hlive : node.destroyed = false)
    (hcovered : node.IsOpen → ∀ a ∈ effectsOf node.store.warPrecondition,
      Implied tree.orders tree.triggered (effectsOf node.store.childRwEvent) a) :
    TreeInv { tree with
      nodes := tree.nodes.set store { node with destroyed := true }
      orders := tree.orders ++ (node.store.destroy false).notification.toList.map fun n ↦
        ({n.1}, n.2) } := by
  set orders := (node.store.destroy false).notification.toList.map fun n ↦
    (({n.1}, n.2) : Event (TreeSignal ε) × Event (TreeSignal ε)) with horders
  have hmono {e : Event (TreeSignal ε)} {a : TreeSignal ε}
      (ha : Implied tree.orders tree.triggered e a) :
      Implied (tree.orders ++ orders) tree.triggered e a :=
    ha.mono (List.subset_append_left _ _) (Finset.Subset.refl _)
  have hpending : .notification store ∉ tree.triggered := by
    intro hc
    obtain ⟨nc, hnc, hdestroyed, -⟩ := h.destroyed store hc
    obtain rfl : node = nc := Option.some.inj (hnode.symm.trans hnc)
    rw [hlive] at hdestroyed
    exact Bool.false_ne_true hdestroyed
  have horder (hopen : node.IsOpen) : orders =
      [({.notification store}, effectsOf node.store.childRwEvent)] := by
    obtain ⟨n, hn⟩ := Option.isSome_iff_exists.mp hopen
    obtain rfl := h.notification store node n hnode hn
    simp [horders, Store.destroy, hn]
  have hnew : Respects orders tree.triggered := by
    by_cases hopen : node.IsOpen
    · rw [horder hopen]
      intro p hp hsubset
      obtain rfl := List.mem_singleton.mp hp
      exact absurd (Finset.singleton_subset_iff.mp hsubset) hpending
    · have hnone : node.store.parentNotificationEvent = none :=
        Option.not_isSome_iff_eq_none.mp hopen
      simp [horders, Store.destroy, hnone, Respects]
  have hold {c : ℕ} {nc : TreeNode ε β}
      (hc : (tree.nodes.set store { node with destroyed := true })[c]? = some nc) :
      ∃ old, tree.nodes[c]? = some old ∧ nc = { old with destroyed := nc.destroyed } := by
    rcases eq_or_getElem?_of_set hc with ⟨rfl, rfl⟩ | ⟨-, hc⟩
    · exact ⟨node, hnode, rfl⟩
    · exact ⟨nc, hc, rfl⟩
  constructor
  · exact respects_append h.respects hnew
  · intro c nc n hc hn
    obtain ⟨old, hc, heq⟩ := hold hc
    rw [heq] at hn
    exact h.notification c old n hc hn
  · intro c hc
    obtain ⟨nc, hnc, hdestroyed, hopen⟩ := h.destroyed c hc
    by_cases heq : store = c
    · exact absurd hc (heq ▸ hpending)
    · exact ⟨nc, (List.getElem?_set_ne heq).trans hnc, hdestroyed, hopen⟩
  · intro c nc hc hdestroyed a ha
    rcases eq_or_getElem?_of_set hc with ⟨rfl, rfl⟩ | ⟨-, hc⟩
    · exact absurd hdestroyed (by simp)
    · exact (h.live c nc hc hdestroyed a ha).imp_right hmono
  · intro c nc hc hdestroyed hopen a ha
    rcases eq_or_getElem?_of_set hc with ⟨rfl, rfl⟩ | ⟨-, hc⟩
    · have hrw : Implied tree.orders tree.triggered (effectsOf node.store.childRwEvent) a :=
        (h.live c node hnode hlive a ha).elim (hcovered hopen a) id
      apply (hmono hrw).of_order
      rw [horder hopen]
      exact List.mem_append_right _ (List.mem_singleton_self _)
    · exact hmono (h.released c nc hc hdestroyed hopen a ha)
  · intro c d nd hd hdp hopen
    obtain ⟨old, hd, heq⟩ := hold hd
    rw [heq] at hdp hopen
    obtain ⟨np, hnp, hfacts⟩ := h.child_registered c d old hd hdp hopen
    by_cases hc : c = store
    · subst hc
      obtain rfl : node = np := Option.some.inj (hnode.symm.trans hnp)
      exact ⟨_, getElem?_set_of_getElem? hnode, hfacts⟩
    · exact ⟨np, (List.getElem?_set_ne (Ne.symm hc)).trans hnp, hfacts⟩
  · intro c d p nc nd hc hd hcp hopen hdp hcd
    obtain ⟨oldc, hc, heqc⟩ := hold hc
    obtain ⟨oldd, hd, heqd⟩ := hold hd
    rw [heqc] at hcp hopen
    rw [heqd] at hdp ⊢
    exact h.sibling c d p oldc oldd hc hd hcp hopen hdp hcd

omit [DecidableEq ε] in
/-- A new order that the completions respect. -/
theorem TreeInv.addOrder (h : TreeInv tree)
    {orders : List (Event (TreeSignal ε) × Event (TreeSignal ε))}
    (horders : Respects orders tree.triggered) :
    TreeInv { tree with orders := tree.orders ++ orders } :=
  { h with
    respects := respects_append h.respects horders
    live := fun c node hc hlive a ha ↦ (h.live c node hc hlive a ha).imp_right fun himplied ↦
      himplied.mono (List.subset_append_left _ _) (Finset.Subset.refl _)
    released := fun c node hc hdestroyed hopen a ha ↦
      (h.released c node hc hdestroyed hopen a ha).mono (List.subset_append_left _ _)
        (Finset.Subset.refl _) }

/-- A completion that triggers. -/
theorem TreeInv.trigger (h : TreeInv tree) {signal : TreeSignal ε}
    (hmay : tree.MayTrigger signal) :
    TreeInv { tree with triggered := insert signal tree.triggered } where
  respects := hmay.1
  notification := h.notification
  destroyed c hc := by
    rcases Finset.mem_insert.mp hc with heq | hc
    · subst heq
      obtain ⟨node, hnode, hdestroyed, hnotification⟩ := hmay.2
      refine ⟨node, hnode, hdestroyed, ?_⟩
      rw [TreeNode.IsOpen, hnotification]
      rfl
    · exact h.destroyed c hc
  live c node hc hlive a ha := (h.live c node hc hlive a ha).imp_right fun himplied ↦
    himplied.mono (List.Subset.refl _) (Finset.subset_insert _ _)
  released c node hc hdestroyed hopen a ha :=
    (h.released c node hc hdestroyed hopen a ha).mono (List.Subset.refl _)
      (Finset.subset_insert _ _)
  child_registered := h.child_registered
  sibling := h.sibling

/-- A reader that is registered on a store. -/
theorem TreeInv.addReader (h : TreeInv tree) (hnode : tree.nodes[store]? = some node)
    (hlive : node.destroyed = false) (ev : Event (TreeSignal ε)) (numReaders : ℕ) :
    TreeInv { tree with
      nodes := tree.nodes.set store (node.register (node.store.addReader ev ev) ev)
      numReaders := numReaders } := by
  have hwriters : effectsOf node.store.childRwEvent ⊆
      effectsOf (node.store.addReader ev ev).childRwEvent := Finset.Subset.refl _
  have hcover : ∀ a ∈ node.registered ∪ ev,
      a ∈ effectsOf (node.store.addReader ev ev).warPrecondition ∨
        Implied (tree.orders ++ []) tree.triggered
          (effectsOf (node.store.addReader ev ev).childRwEvent) a := by
    intro a ha
    rw [Store.effectsOf_warPrecondition_addReader, Store.childRwEvent_addReader,
      List.append_nil, Finset.mem_union]
    rcases Finset.mem_union.mp ha with ha | ha
    · exact (h.live store node hnode hlive a ha).imp_left Or.inl
    · exact Or.inl (Or.inr ha)
  have hregister := h.register hnode hlive (node.store.addReader ev ev) ev [] rfl hwriters hcover
    (by simp [Respects]) numReaders
  rwa [List.append_nil] at hregister

/-- An event given to `ReadyAfter` that implies the pending readers. -/
theorem TreeInv.readyAfter (h : TreeInv tree) (hnode : tree.nodes[store]? = some node)
    (hlive : node.destroyed = false) {ev : Event (TreeSignal ε)}
    (hcovered : ∀ a ∈ effectsOf node.store.warPrecondition,
      Implied tree.orders tree.triggered (ev ∪ effectsOf node.store.childRwEvent) a) :
    TreeInv { tree with
      nodes := tree.nodes.set store (node.register (node.store.readyAfter ev ev) ev) } := by
  have hwriters : effectsOf node.store.childRwEvent ⊆
      effectsOf (node.store.readyAfter ev ev).childRwEvent := by
    rw [Store.effectsOf_childRwEvent_readyAfter]
    exact Finset.subset_union_right
  have hcover : ∀ a ∈ node.registered ∪ ev,
      a ∈ effectsOf (node.store.readyAfter ev ev).warPrecondition ∨
        Implied (tree.orders ++ []) tree.triggered
          (effectsOf (node.store.readyAfter ev ev).childRwEvent) a := by
    intro a ha
    rw [Store.effectsOf_childRwEvent_readyAfter, List.append_nil]
    rcases Finset.mem_union.mp ha with ha | ha
    · rcases h.live store node hnode hlive a ha with hwar | himplied
      · exact Or.inr (hcovered a hwar)
      · exact Or.inr (himplied.subset Finset.subset_union_right)
    · exact Or.inr (.mem (Finset.mem_union_left _ ha))
  have hregister := h.register hnode hlive (node.store.readyAfter ev ev) ev [] rfl hwriters hcover
    (by simp [Respects]) tree.numReaders
  rwa [List.append_nil] at hregister

end Steps

/-! ## Runs -/

section Runs

variable {tree tree' : StoreTree ε β}

omit [DecidableEq ε] in
/-- A store that does not exist has not been notified. -/
theorem TreeInv.fresh (h : TreeInv tree) : .notification tree.nodes.length ∉ tree.triggered := by
  intro hc
  obtain ⟨node, hnode, -⟩ := h.destroyed _ hc
  rw [Option.mem_def, List.getElem?_eq_none le_rfl] at hnode
  exact absurd hnode (by simp)

theorem TreeInv.step (h : TreeInv tree) {action : TreeAction ε}
    (hcovered : tree.ReadersCovered action) (hstep : tree.step action = some tree') :
    TreeInv tree' := by
  cases action with
  | child store =>
      obtain ⟨node, husable, hstep⟩ := Option.bind_eq_some_iff.mp hstep
      obtain ⟨hnode, hlive, -⟩ := usable_eq_some husable
      obtain rfl := Option.some.inj hstep
      apply h.makeChild hnode hlive
      · intro n hn
        obtain rfl := Option.some.inj hn
        simp
      · intro hsubset
        exact absurd (Finset.singleton_subset_iff.mp hsubset) h.fresh
  | childAfter store ev =>
      obtain ⟨node, husable, hstep⟩ := Option.bind_eq_some_iff.mp hstep
      obtain ⟨hnode, hlive, -⟩ := usable_eq_some husable
      obtain ⟨hev, hstep⟩ := Option.ite_none_right_eq_some.mp hstep
      obtain rfl := Option.some.inj hstep
      exact h.makeChild hnode hlive (fun n hn ↦ absurd hn.symm (Option.some_ne_none n)) hev
  | view store =>
      obtain ⟨node, husable, hstep⟩ := Option.bind_eq_some_iff.mp hstep
      obtain ⟨hnode, hlive, -⟩ := usable_eq_some husable
      obtain rfl := Option.some.inj hstep
      exact h.addReader hnode hlive {.reader tree.numReaders} (tree.numReaders + 1)
  | viewAfter store ev =>
      obtain ⟨node, husable, hstep⟩ := Option.bind_eq_some_iff.mp hstep
      obtain ⟨hnode, hlive, -⟩ := usable_eq_some husable
      obtain rfl := Option.some.inj hstep
      exact h.addReader hnode hlive ev tree.numReaders
  | readyAfter store ev =>
      obtain ⟨node, husable, hstep⟩ := Option.bind_eq_some_iff.mp hstep
      obtain ⟨hnode, hlive, -⟩ := usable_eq_some husable
      obtain rfl := Option.some.inj hstep
      exact h.readyAfter hnode hlive (hcovered node hnode)
  | destroy store =>
      obtain ⟨node, husable, hstep⟩ := Option.bind_eq_some_iff.mp hstep
      obtain ⟨hnode, hlive, -⟩ := usable_eq_some husable
      obtain rfl := Option.some.inj hstep
      exact h.destroyStore hnode hlive (hcovered node hnode)
  | task completion precondition =>
      obtain ⟨horder, hstep⟩ := Option.ite_none_right_eq_some.mp hstep
      obtain rfl := Option.some.inj hstep
      exact h.addOrder (by simpa [Respects] using horder)
  | trigger signal =>
      obtain ⟨hmay, hstep⟩ := Option.ite_none_right_eq_some.mp hstep
      obtain rfl := Option.some.inj hstep
      exact h.trigger hmay

theorem TreeInv.run (h : TreeInv tree) {actions : List (TreeAction ε)}
    (hcovered : tree.RunCovered actions) (hrun : tree.run actions = some tree') :
    TreeInv tree' := by
  induction actions generalizing tree with
  | nil =>
      obtain rfl := Option.some.inj hrun
      exact h
  | cons action actions ih =>
      obtain ⟨tree₁, hstep, hrun⟩ := Option.bind_eq_some_iff.mp hrun
      exact ih (h.step hcovered.1 hstep) (hcovered.2 tree₁ hstep) hrun

omit [DecidableEq ε] in
theorem treeInv_init (childRwEvent : Option (EventPrecondition (TreeSignal ε))) (value : β) :
    TreeInv (StoreTree.init childRwEvent value) := by
  have hroot {c : ℕ} {node : TreeNode ε β}
      (hc : (StoreTree.init childRwEvent value).nodes[c]? = some node) :
      node.parent = none ∧ ¬node.IsOpen ∧ node.registered = ∅ := by
    have hmem := List.mem_of_getElem? hc
    obtain rfl := List.mem_singleton.mp hmem
    exact ⟨rfl, by simp [TreeNode.IsOpen], rfl⟩
  constructor
  · simp [Respects, StoreTree.init]
  · intro c node n hc hn
    exact absurd (Option.isSome_of_mem hn) (hroot hc).2.1
  · intro c hc
    exact absurd hc (Finset.notMem_empty _)
  · intro c node hc _ a ha
    rw [(hroot hc).2.2] at ha
    exact absurd ha (Finset.notMem_empty a)
  · intro c node hc _ hopen
    exact absurd hopen (hroot hc).2.1
  · intro c d node hd _ hopen
    exact absurd hopen (hroot hd).2.1
  · intro c d p nc nd hc _ _ hopen
    exact absurd hopen (hroot hc).2.1

/-- Where no reader is forgotten that is not implied, the notification of every
store comes after everything done through the store and its descendants. -/
theorem run_released (childRwEvent : Option (EventPrecondition (TreeSignal ε))) (value : β)
    (actions : List (TreeAction ε))
    (hcovered : (StoreTree.init childRwEvent value).RunCovered actions)
    (hrun : (StoreTree.init childRwEvent value).run actions = some tree) : tree.Released :=
  ((treeInv_init childRwEvent value).run hcovered hrun).isReleased

end Runs

/-- A reader and then a writer are registered on a child before it is destroyed. -/
def writtenAfterRead : List (TreeAction ℕ) :=
  [.child 0, .viewAfter 1 {.external 5}, .childAfter 1 {.external 6}, .destroy 1,
    .trigger (.external 5), .trigger (.external 6), .trigger (.notification 1)]

theorem run_released_writtenAfterRead :
    ∃ tree, (StoreTree.init none ()).run writtenAfterRead = some tree ∧ tree.Released := by
  refine ⟨_, rfl, run_released none () writtenAfterRead ?_ rfl⟩
  refine ⟨trivial, fun t ht ↦ ?_⟩
  obtain rfl := Option.some.inj ht
  refine ⟨trivial, fun t ht ↦ ?_⟩
  obtain rfl := Option.some.inj ht
  refine ⟨trivial, fun t ht ↦ ?_⟩
  obtain rfl := Option.some.inj ht
  refine ⟨fun node hnode _ a ha ↦ ?_, fun t ht ↦ ?_⟩
  · obtain rfl := Option.some.inj hnode
    exact absurd ha (Finset.notMem_empty a)
  obtain rfl := Option.some.inj ht
  exact ⟨trivial, fun t _ ↦ ⟨trivial, fun t _ ↦ ⟨trivial, fun t _ ↦ trivial⟩⟩⟩

/-- The task of a child ends while a reader of the child is pending: the parent
is notified before the reader is done. -/
theorem not_released_pendingReader :
    ∃ tree, (StoreTree.init none ()).run
        [.child 0, .viewAfter 1 {.external 5}, .destroy 1, .child 0,
          .trigger (.notification 1)] = some tree ∧ ¬tree.Released := by
  refine ⟨_, rfl, fun h ↦ ?_⟩
  have hsubset := h.notified 1 (by decide) 1 _ .refl rfl
  have hdone := hsubset (Finset.mem_union_right ∅
    (Finset.mem_singleton_self (TreeSignal.external 5)))
  exact absurd hdone (by decide)

end Zuku
