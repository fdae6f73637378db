import Mathlib

/-!
# Graphs of waits

`r b a` says that `a` waits for `b`.  Nothing waits for ever when the relation
is well founded.  It stays so when nodes start to wait for others that do not
wait for them, at once or through further nodes.
-/

namespace WaitGraph

open Relation

variable {α : Type*} {r r' : α → α → Prop}

/-- A node that is not on an infinite chain of waits does not wait for itself. -/
theorem not_transGen_self {a : α} (h : Acc r a) : ¬TransGen r a a := by
  induction h with
  | intro a _ ih =>
      intro hcycle
      obtain ⟨b, hab, hba⟩ := TransGen.tail'_iff.mp hcycle
      exact ih b hba (.head' hba hab)

/-- Only what a node waits for counts. -/
theorem acc_of_same_below {a : α} (h : Acc r a)
    (hsame : ∀ c, ReflTransGen r c a → ∀ b, r' b c → r b c) : Acc r' a := by
  induction h with
  | intro a _ ih =>
      refine ⟨a, fun b hb ↦ ?_⟩
      have hba := hsame a .refl b hb
      exact ih b hba fun c hc ↦ hsame c (hc.tail hba)

/-- New waits for nodes that do not wait for ever. -/
theorem wellFounded_of_new_edges (hr : WellFounded r)
    (hnew : ∀ b a, r' b a → r b a ∨ Acc r' b) : WellFounded r' := by
  refine ⟨fun a ↦ ?_⟩
  induction hr.apply a with
  | intro a _ ih => exact ⟨a, fun b hb ↦ (hnew b a hb).elim (ih b) id⟩

/-- The nodes `n` start to wait for `p`. -/
theorem wellFounded_addEdges (hr : WellFounded r) {n p : Set α}
    (hnew : ∀ b a, r' b a → r b a ∨ (a ∈ n ∧ b ∈ p))
    (hp : ∀ a ∈ n, ∀ b ∈ p, ¬ReflTransGen r a b) : WellFounded r' := by
  apply wellFounded_of_new_edges hr
  intro b a hb
  refine (hnew b a hb).imp_right fun hba ↦ ?_
  apply acc_of_same_below (hr.apply b)
  exact fun c hcb d hd ↦ (hnew d c hd).resolve_right fun hc ↦ hp c hc.1 b hba.2 hcb

/-- New nodes `s` wait for `p`, and the nodes `n` start to wait for them. -/
theorem wellFounded_addNodes (hr : WellFounded r) {s n p : Set α}
    (hnew : ∀ b a, r' b a → r b a ∨ (a ∈ s ∧ b ∈ p) ∨ (a ∈ n ∧ b ∈ s))
    (hfresh : ∀ a ∈ s, a ∉ n ∧ ∀ b, ¬r b a)
    (hp : ∀ a ∈ s ∪ n, ∀ b ∈ p, ¬ReflTransGen r a b) : WellFounded r' := by
  have hbelow : ∀ b ∈ p, Acc r' b := by
    intro b hb
    apply acc_of_same_below (hr.apply b)
    intro c hcb d hd
    rcases hnew d c hd with hd | ⟨hc, -⟩ | ⟨hc, -⟩
    · exact hd
    · exact absurd hcb (hp c (Or.inl hc) b hb)
    · exact absurd hcb (hp c (Or.inr hc) b hb)
  have hnodes : ∀ a ∈ s, Acc r' a := by
    intro a ha
    refine ⟨a, fun b hb ↦ ?_⟩
    rcases hnew b a hb with hb | ⟨-, hb⟩ | ⟨hn, -⟩
    · exact absurd hb ((hfresh a ha).2 b)
    · exact hbelow b hb
    · exact absurd hn (hfresh a ha).1
  apply wellFounded_of_new_edges hr
  intro b a hb
  rcases hnew b a hb with hb | ⟨-, hb⟩ | ⟨-, hb⟩
  · exact Or.inl hb
  · exact Or.inr (hbelow b hb)
  · exact Or.inr (hnodes b hb)

end WaitGraph
