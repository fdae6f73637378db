import Mathlib

/-!
# Copies between locations

A copy overwrites a region of one location with what another one holds there.
When everything that a list of copies reads has been right from the start, or has
been written by an earlier copy of the list, all that it writes is right in the
end.
-/

namespace CopyNetwork

variable {L X α : Type*}

structure Transfer (L X : Type*) where
  source : L
  target : L
  region : Set X

namespace Transfer

/-- The points that are read, each with its location. -/
def read (copy : Transfer L X) : Set (L × X) := {p | p.1 = copy.source ∧ p.2 ∈ copy.region}

def written (copy : Transfer L X) : Set (L × X) := {p | p.1 = copy.target ∧ p.2 ∈ copy.region}

open Classical in
noncomputable def exec (copy : Transfer L X) (contents : L → X → α) (l : L) (x : X) : α :=
  if (l, x) ∈ copy.written then contents copy.source x else contents l x

end Transfer

noncomputable def run (copies : List (Transfer L X)) (contents : L → X → α) : L → X → α :=
  copies.foldl (fun contents copy ↦ copy.exec contents) contents

/-- The points that are written by some copy of a list. -/
def writtenBy (copies : List (Transfer L X)) : Set (L × X) :=
  {p | ∃ copy ∈ copies, p ∈ copy.written}

/-- The points at which the contents agree with `g`. -/
def right (g : X → α) (contents : L → X → α) : Set (L × X) := {p | contents p.1 p.2 = g p.2}

/-- Every copy reads what is known, or what an earlier copy has written. -/
def Feeds (known : Set (L × X)) : List (Transfer L X) → Prop
  | [] => True
  | copy :: copies => copy.read ⊆ known ∧ Feeds (known ∪ copy.written) copies

theorem writtenBy_cons (copy : Transfer L X) (copies : List (Transfer L X)) :
    writtenBy (copy :: copies) = copy.written ∪ writtenBy copies := by
  ext p
  simp [writtenBy]

theorem Transfer.exec_of_notMem {copy : Transfer L X} {l : L} {x : X} (h : (l, x) ∉ copy.written)
    (contents : L → X → α) : copy.exec contents l x = contents l x := if_neg h

/-- A copy of what is right keeps what is right and adds what it writes. -/
theorem right_exec {g : X → α} {contents : L → X → α} {copy : Transfer L X}
    (h : copy.read ⊆ right g contents) :
    right g contents ∪ copy.written ⊆ right g (copy.exec contents) := by
  rintro ⟨l, x⟩ hp
  by_cases hwritten : (l, x) ∈ copy.written
  · have hread : (copy.source, x) ∈ copy.read := ⟨rfl, hwritten.2⟩
    exact (if_pos hwritten).trans (h hread)
  · exact (Transfer.exec_of_notMem hwritten contents).trans (hp.resolve_right hwritten)

/-- The induction carries the set of the points that are known to be right. -/
theorem right_run {g : X → α} {known : Set (L × X)} {copies : List (Transfer L X)}
    (h : Feeds known copies) {contents : L → X → α} (hknown : known ⊆ right g contents) :
    known ∪ writtenBy copies ⊆ right g (run copies contents) := by
  induction copies generalizing known contents with
  | nil =>
      intro p hp
      rcases hp with hp | ⟨copy, hcopy, -⟩
      · exact hknown hp
      · cases hcopy
  | cons copy copies ih =>
      have hstep : known ∪ copy.written ⊆ right g (copy.exec contents) :=
        (Set.union_subset_union_left _ hknown).trans (right_exec (h.1.trans hknown))
      rw [writtenBy_cons, ← Set.union_assoc]
      exact ih h.2 hstep

/-- The same condition, read off every place of the list. -/
theorem feeds_of_splits {known : Set (L × X)} {copies : List (Transfer L X)}
    (h : ∀ before copy after, copies = before ++ copy :: after →
      copy.read ⊆ known ∪ writtenBy before) : Feeds known copies := by
  induction copies generalizing known with
  | nil => trivial
  | cons copy copies ih =>
      constructor
      · have hread : copy.read ⊆ known ∪ writtenBy [] := h [] copy copies rfl
        simpa [writtenBy] using hread
      · apply ih
        intro before copy' after hsplit
        have hread := h (copy :: before) copy' after (by rw [hsplit, List.cons_append])
        rwa [writtenBy_cons, ← Set.union_assoc] at hread

end CopyNetwork
