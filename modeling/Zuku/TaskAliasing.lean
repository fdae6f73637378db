import Zuku.TaskOrder

/-!
# Stores that a task is given twice

Every argument of `defer` is mapped with the completion of the new task, and
the arguments after it see that completion on the store.  A store that a call
uses twice, and does not only read, makes the task wait for itself.
-/

namespace Zuku

open Event EventPrecondition

variable {ε β κ ν σ : Type}

/-- Every store is used once, or only read. -/
def ReadsAliasesOnly (uses : List (κ × Access)) : Prop :=
  uses.Pairwise fun a b ↦ a.1 = b.1 → a.2 = .read ∧ b.2 = .read

instance [DecidableEq κ] (uses : List (κ × Access)) : Decidable (ReadsAliasesOnly uses) :=
  inferInstanceAs (Decidable (List.Pairwise _ uses))

/-! ## Mapping the stores of a call -/

section Mapping

variable [DecidableEq ε]

/-- After one use of a store, a second use waits for the same events, and for
the new one unless both only read; only a writer forgets the readers. -/
theorem mem_waitsFor_toTaskArgument {streamOrdered : Bool} {store : Store ε β}
    {stream effects : Event ε} {first second : Access} {c : ε} :
    c ∈ (toTaskArgument store stream effects first).2.waitsFor streamOrdered second ↔
      (c ∈ (if streamOrdered then stream else effects) ∧ ¬(first = .read ∧ second = .read)) ∨
        c ∈ store.waitsFor streamOrdered (if first = .write then .read else second) := by
  cases first with
  | read =>
      cases second with
      | read => simp [toTaskArgument, Store.viewAfter, Store.waitsFor]
      | write => simp [toTaskArgument, Store.viewAfter, Store.waitsFor, or_assoc, or_comm]
  | write =>
      cases second <;>
        simp [toTaskArgument, Store.childAfter, Store.readyAfter, Store.waitsFor]

variable [DecidableEq κ] {streamOrdered : Bool} {stream effects : Event ε}

/-- What the first use does not wait for, a later use waits for if it did
before, or if the event is the new one and the later use is an alias. -/
theorem mem_waitsFor_update_iff {stores : κ → Store ε β} {first later : κ × Access} {c : ε}
    (hfirst : c ∉ (stores first.1).waitsFor streamOrdered first.2) :
    c ∈ (Function.update stores first.1
        (toTaskArgument (stores first.1) stream effects first.2).2 later.1).waitsFor
          streamOrdered later.2 ↔
      (c ∈ (if streamOrdered then stream else effects) ∧
        ¬(first.1 = later.1 → first.2 = .read ∧ later.2 = .read)) ∨
        c ∈ (stores later.1).waitsFor streamOrdered later.2 := by
  by_cases hsame : later.1 = first.1
  · rw [hsame, Function.update_self, mem_waitsFor_toTaskArgument]
    cases haccess : first.2 with
    | read => simp
    | write =>
        have hnone (access : Access) : c ∉ (stores first.1).waitsFor streamOrdered access :=
          fun hc ↦ hfirst (haccess ▸ waitsFor_subset_write hc)
        simp [hnone]
  · rw [Function.update_of_ne hsame]
    simp [Ne.symm hsame]

/-- The arguments of a call wait for what its uses wait for, and for the new
event as soon as a store is used twice and not only read. -/
theorem mem_dependency_storeArgs_iff {stores : κ → Store ε β} {uses : List (κ × Access)} {c : ε} :
    (∃ argument ∈ (storeArgsAndSetPostcondition stream effects stores uses).1,
        c ∈ argument.dependency streamOrdered) ↔
      (c ∈ (if streamOrdered then stream else effects) ∧ ¬ReadsAliasesOnly uses) ∨
        ∃ use ∈ uses, c ∈ (stores use.1).waitsFor streamOrdered use.2 := by
  induction uses generalizing stores with
  | nil => simp [storeArgsAndSetPostcondition, ReadsAliasesOnly]
  | cons use uses ih =>
      rw [storeArgsAndSetPostcondition]
      simp only [List.exists_mem_cons_iff, dependency_toTaskArgument, ih]
      by_cases hfirst : c ∈ (stores use.1).waitsFor streamOrdered use.2
      · simp only [hfirst, true_or, or_true]
      · simp only [mem_waitsFor_update_iff hfirst, hfirst, false_or, and_or_left, exists_or,
          ReadsAliasesOnly, List.pairwise_cons, not_and_or, not_forall, exists_prop]
        grind

end Mapping

/-! ## Events of a call -/

/-- All events of the store are made of these completions. -/
def Store.Within [DecidableEq ε] (known : Set ε) (store : Store ε β) : Prop :=
  ∀ streamOrdered, ∀ c ∈ store.waitsFor streamOrdered .write, c ∈ known

/-- The completions that trigger because the task of a call runs: its own, and
with a stream order the return of control. -/
def Call.signals [DecidableEq ε] (call : Call κ ν σ ε) (task : ℕ) : Event (Completion ε) :=
  {.task task} ∪ call.context.streamOrdered.getD ∅

/-- A context for which the return of control is a new user event, and whose
other event is made of completions that exist already. -/
structure DeferContext.MadeOf (known : Set (Completion ε))
    (context : DeferContext (Completion ε)) : Prop where
  after : ∀ after ∈ context.after, ∀ c ∈ after, c ∈ known
  control : ∀ control ∈ context.streamOrdered,
    ∃ e, control = {.external e} ∧ .external e ∉ known

section Within

variable [DecidableEq ε] [DecidableEq κ]

theorem toTaskArgument_within {known : Set ε} {store : Store ε β} {stream effects : Event ε}
    (hstore : store.Within known) (hstream : ∀ c ∈ stream, c ∈ known)
    (heffects : ∀ c ∈ effects, c ∈ known) (access : Access) :
    (toTaskArgument store stream effects access).2.Within known := by
  intro streamOrdered c hc
  rcases mem_waitsFor_toTaskArgument.mp hc with ⟨hnew, -⟩ | hold
  · cases streamOrdered with
    | false => exact heffects c hnew
    | true => exact hstream c hnew
  · exact hstore streamOrdered c (waitsFor_subset_write hold)

theorem storeArgs_within {known : Set ε} {stream effects : Event ε} {stores : κ → Store ε β}
    {uses : List (κ × Access)} (hstores : ∀ s, (stores s).Within known)
    (hstream : ∀ c ∈ stream, c ∈ known) (heffects : ∀ c ∈ effects, c ∈ known) (s : κ) :
    ((storeArgsAndSetPostcondition stream effects stores uses).2 s).Within known := by
  induction uses generalizing stores with
  | nil => exact hstores s
  | cons use uses ih =>
      rw [storeArgsAndSetPostcondition]
      apply ih
      intro s'
      by_cases hs : s' = use.1
      · rw [hs, Function.update_self]
        exact toTaskArgument_within (hstores _) hstream heffects _
      · rw [Function.update_of_ne hs]
        exact hstores s'

end Within

section Signals

variable [DecidableEq ε] {call : Call κ ν σ ε} {known : Set (Completion ε)}

theorem task_mem_signals (call : Call κ ν σ ε) (task : ℕ) : .task task ∈ call.signals task :=
  Finset.mem_union_left _ (Finset.mem_singleton_self _)

/-- The event that a call leaves on its stores is one of its task. -/
theorem getStreamOrderedEvent_subset_signals (call : Call κ ν σ ε) (task : ℕ) :
    getStreamOrderedEvent call.context {.task task} ⊆ call.signals task := by
  rw [getStreamOrderedEvent, Call.signals]
  cases call.context.streamOrdered with
  | none => exact Finset.subset_union_left
  | some control => exact Finset.subset_union_right

omit [DecidableEq ε] in
theorem getStreamOrderedEvent_nonempty (hcontext : call.context.MadeOf known) (task : ℕ) :
    (getStreamOrderedEvent call.context {.task task}).Nonempty := by
  rw [getStreamOrderedEvent]
  cases hcontrol : call.context.streamOrdered with
  | none => exact Finset.singleton_nonempty _
  | some control =>
      obtain ⟨e, rfl, -⟩ := hcontext.control control hcontrol
      exact Finset.singleton_nonempty _

/-- Every event of a task is its completion or a new user event. -/
theorem mem_signals_cases (hcontext : call.context.MadeOf known) {task : ℕ} {c : Completion ε}
    (hc : c ∈ call.signals task) :
    c = .task task ∨ ∃ e, c = .external e ∧ .external e ∉ known := by
  rw [Call.signals, Finset.mem_union, Finset.mem_singleton] at hc
  apply hc.imp_right
  intro hcontrol
  cases hstream : call.context.streamOrdered with
  | none => simp [hstream] at hcontrol
  | some control =>
      obtain ⟨e, rfl, hnew⟩ := hcontext.control control hstream
      rw [hstream, Option.getD_some, Finset.mem_singleton] at hcontrol
      exact ⟨e, hcontrol, hnew⟩

end Signals

end Zuku
