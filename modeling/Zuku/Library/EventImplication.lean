import Mathlib

/-!
# Events that imply each other

Some completions have triggered, and it is known of some events that they do
not trigger before others.  From that an event can imply a completion: whenever
the event has triggered, so has the completion.
-/

namespace EventImplication

variable {α : Type*}

/-- The event `p.1` does not trigger before the event `p.2`, for all `p` in
`orders`; the completions in `done` have triggered. -/
inductive Implied (orders : List (Finset α × Finset α)) (done event : Finset α) : α → Prop where
  | mem {a : α} : a ∈ event → Implied orders done event a
  | done {a : α} : a ∈ done → Implied orders done event a
  | order {p : Finset α × Finset α} {a : α} : p ∈ orders →
      (∀ b ∈ p.1, Implied orders done event b) → a ∈ p.2 → Implied orders done event a

/-- The completions that have triggered respect the order. -/
def Respects (orders : List (Finset α × Finset α)) (done : Finset α) : Prop :=
  ∀ p ∈ orders, p.1 ⊆ done → p.2 ⊆ done

instance [DecidableEq α] (orders : List (Finset α × Finset α)) (done : Finset α) :
    Decidable (Respects orders done) :=
  inferInstanceAs (Decidable (∀ p ∈ orders, p.1 ⊆ done → p.2 ⊆ done))

variable {orders orders' : List (Finset α × Finset α)} {done done' event event' : Finset α} {a : α}

/-- What an event implies has triggered when the event has. -/
theorem Implied.sound (h : Implied orders done event a) (hrespects : Respects orders done)
    (hevent : event ⊆ done) : a ∈ done := by
  induction h with
  | mem ha => exact hevent ha
  | done ha => exact ha
  | order hp _ ha ih => exact hrespects _ hp ih ha

/-- More orders and more completions imply more. -/
theorem Implied.mono (h : Implied orders done event a) (horders : orders ⊆ orders')
    (hdone : done ⊆ done') : Implied orders' done' event a := by
  induction h with
  | mem ha => exact .mem ha
  | done ha => exact .done (hdone ha)
  | order hp _ ha ih => exact .order (horders hp) ih ha

theorem Implied.trans (h : Implied orders done event a)
    (hevent : ∀ b ∈ event, Implied orders done event' b) : Implied orders done event' a := by
  induction h with
  | mem ha => exact hevent _ ha
  | done ha => exact .done ha
  | order hp _ ha ih => exact .order hp ih ha

theorem Implied.subset (h : Implied orders done event a) (hevent : event ⊆ event') :
    Implied orders done event' a :=
  h.trans fun _ hb ↦ .mem (hevent hb)

/-- An event implies all that it is ordered after. -/
theorem Implied.of_order (h : Implied orders done event' a) (horder : (event, event') ∈ orders) :
    Implied orders done event a :=
  h.trans fun _ hb ↦ .order horder (fun _ hc ↦ .mem hc) hb

/-- The event implies every completion of another one. -/
def Implies (orders : List (Finset α × Finset α)) (done event event' : Finset α) : Prop :=
  ∀ a ∈ event', Implied orders done event a

theorem Implies.of_subset (h : event' ⊆ event) : Implies orders done event event' :=
  fun _ ha ↦ .mem (h ha)

theorem Implies.of_mem (h : (event, event') ∈ orders) : Implies orders done event event' :=
  fun _ ha ↦ .order h (fun _ hb ↦ .mem hb) ha

theorem Implies.trans {event'' : Finset α} (h : Implies orders done event event')
    (h' : Implies orders done event' event'') : Implies orders done event event'' :=
  fun a ha ↦ (h' a ha).trans h

theorem Implies.mono (h : Implies orders done event event') (horders : orders ⊆ orders')
    (hdone : done ⊆ done') : Implies orders' done' event event' :=
  fun a ha ↦ (h a ha).mono horders hdone

theorem Implies.union [DecidableEq α] {event'' : Finset α} (h : Implies orders done event event')
    (h' : Implies orders done event event'') :
    Implies orders done event (event' ∪ event'') := by
  intro a ha
  rcases Finset.mem_union.mp ha with ha | ha
  · exact h a ha
  · exact h' a ha

/-- In every state of the completions the other event has triggered as well. -/
theorem Implies.sound (h : Implies orders done event event') {triggered : Finset α}
    (hrespects : Respects orders triggered) (hdone : done ⊆ triggered)
    (hevent : event ⊆ triggered) : event' ⊆ triggered :=
  fun a ha ↦ ((h a ha).mono (List.Subset.refl _) hdone).sound hrespects hevent

theorem respects_append {new : List (Finset α × Finset α)} (h : Respects orders done)
    (hnew : Respects new done) : Respects (orders ++ new) done := by
  intro p hp
  rcases List.mem_append.mp hp with hp | hp
  · exact h p hp
  · exact hnew p hp

/-! ## Worlds -/

/-- A set of completions that could have triggered. -/
def World (orders : List (Finset α × Finset α)) (triggered : Set α) : Prop :=
  ∀ p ∈ orders, (p.1 : Set α) ⊆ triggered → (p.2 : Set α) ⊆ triggered

theorem world_coe_iff {triggered : Finset α} :
    World orders (triggered : Set α) ↔ Respects orders triggered := by
  simp only [World, Respects, Finset.coe_subset]

theorem Implied.mem_world (h : Implied orders done event a) {triggered : Set α}
    (hworld : World orders triggered) (hdone : (done : Set α) ⊆ triggered)
    (hevent : (event : Set α) ⊆ triggered) : a ∈ triggered := by
  induction h with
  | mem ha => exact hevent ha
  | done ha => exact hdone ha
  | order hp _ ha ih => exact hworld _ hp ih ha

/-- What an event implies is a world. -/
theorem world_implied : World orders {a | Implied orders done event a} :=
  fun _ hp hall _ ha ↦ .order hp hall ha

/-- An event that is a world itself implies nothing else. -/
theorem implied_iff_mem_of_world (hworld : World orders (event : Set α))
    (hdone : done ⊆ event) : Implied orders done event a ↔ a ∈ event :=
  ⟨fun h ↦ h.mem_world hworld hdone subset_rfl, .mem⟩

end EventImplication
