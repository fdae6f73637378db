import Zuku.Future
import Zuku.Library.EventImplication
import Zuku.Library.ListLookup

/-!
# Readers of a future

A future that has handed out views is ready after its readers.  A reader that
waits for the producer makes the future wait for it as well, but a view that is
destroyed without being read does not.
-/

namespace Zuku

open Event EventPrecondition EventImplication ListLookup

/-- The reader events of the views and the completions of the tasks they are
passed to, both by the number of the call, and all other completions. -/
inductive ReadSignal (ε : Type) where
  | reader (call : ℕ)
  | task (call : ℕ)
  | external (e : ε)
  deriving DecidableEq, Repr

/-- A call of `view()`, or of `view(ev)` with a given event.  The view is passed
to a task or destroyed unused. -/
structure ViewCall (ε : Type) where
  given : Option (Event (ReadSignal ε)) := none
  passed : Bool

/-- A future with the number of views made, the events after which they are
released, and the events that do not trigger before others. -/
structure ReadFuture (ε β : Type) where
  future : Future (ReadSignal ε) β
  numCalls : ℕ := 0
  releases : List (Event (ReadSignal ε)) := []
  orders : List (Event (ReadSignal ε) × Event (ReadSignal ε)) := []

variable {ε β : Type} [DecidableEq ε]

namespace ViewCall

variable (call : ViewCall ε)

def view (n : ℕ) (future : Future (ReadSignal ε) β) :
    View (ReadSignal ε) β × Future (ReadSignal ε) β :=
  match call.given with
  | some ev => future.viewAfter ev
  | none => future.view (.reader n)

omit [DecidableEq ε] in
/-- The event that the call registers. -/
def release (n : ℕ) : Event (ReadSignal ε) := call.given.getD {.reader n}

/-- A task waits for the precondition of its view, and the view is destroyed
after the task has started.  An unused view is destroyed at any time. -/
def orders (n : ℕ) (view : View (ReadSignal ε) β) :
    List (Event (ReadSignal ε) × Event (ReadSignal ε)) :=
  if call.passed then
    ({.task n}, view.effectsPrecondition) :: view.destroy.toList.map fun trigger ↦
      ({trigger.1}, view.effectsPrecondition ∪ trigger.2)
  else view.destroy.toList.map fun trigger ↦ ({trigger.1}, trigger.2)

end ViewCall

namespace ReadFuture

/-- A future that waits for its producer. -/
def init (producer : Event ε) (value : Option β) : ReadFuture ε β where
  future := { rawPrecondition := some (producer.image .external), value := value }

def step (state : ReadFuture ε β) (call : ViewCall ε) : ReadFuture ε β :=
  let (view, future) := call.view state.numCalls state.future
  ⟨future, state.numCalls + 1, state.releases ++ [call.release state.numCalls],
    state.orders ++ call.orders state.numCalls view⟩

def run (state : ReadFuture ε β) (calls : List (ViewCall ε)) : ReadFuture ε β :=
  calls.foldl step state

/-- The precondition of the future implies its producer and the release of every
view, whatever else has triggered. -/
structure ReadyInTime (producer : Event ε) (state : ReadFuture ε β) : Prop where
  produced : Implies state.orders ∅ state.future.precondition (producer.image .external)
  released : ∀ release ∈ state.releases,
    Implies state.orders ∅ state.future.precondition release

end ReadFuture

open ReadFuture

/-! ## What the calls leave behind -/

/-- The future after some calls. -/
structure ReadFutureInv (producer : Event (ReadSignal ε)) (calls : List (ViewCall ε))
    (state : ReadFuture ε β) : Prop where
  raw : state.future.rawPrecondition = some producer
  numCalls : state.numCalls = calls.length
  releases : state.releases = calls.mapIdx fun n call ↦ call.release n
  war : calls = [] ∧ state.future.warPrecondition = none ∨
    calls ≠ [] ∧ state.future.warPrecondition = some (mergeAll state.releases)
  orders : ∀ p, p ∈ state.orders ↔ ∃ n call, calls[n]? = some call ∧
    ((call.passed = true ∧ p = ({.task n}, producer)) ∨
      (call.given = none ∧ p = ({.reader n}, if call.passed then producer else ∅)))

section Calls

variable {producer : Event (ReadSignal ε)} {calls : List (ViewCall ε)} {state : ReadFuture ε β}

omit [DecidableEq ε] in
theorem view_snd [DecidableEq ε] (call : ViewCall ε) (n : ℕ) (future : Future (ReadSignal ε) β) :
    (call.view n future).2 = future.addReader (call.release n) := by
  rw [ViewCall.view, ViewCall.release]
  cases call.given <;> rfl

/-- What a call orders, for a future that waits for its producer. -/
theorem mem_orders_iff {call : ViewCall ε} {n : ℕ} {future : Future (ReadSignal ε) β}
    (hraw : future.rawPrecondition = some producer)
    (p : Event (ReadSignal ε) × Event (ReadSignal ε)) :
    p ∈ call.orders n (call.view n future).1 ↔
      (call.passed = true ∧ p = ({.task n}, producer)) ∨
        (call.given = none ∧ p = ({.reader n}, if call.passed then producer else ∅)) := by
  have hview : (call.view n future).1.effectsPrecondition = producer := by
    rw [View.effectsPrecondition, ViewCall.view]
    cases call.given <;> simp [Future.viewAfter, Future.view, hraw]
  have hdestroy : (call.view n future).1.destroy =
      if call.given = none then some (.reader n, ∅) else none := by
    rw [View.destroy, ViewCall.view]
    cases call.given <;> rfl
  rw [ViewCall.orders, hview, hdestroy]
  cases call.passed <;> cases call.given <;> simp

theorem ReadFutureInv.step (h : ReadFutureInv producer calls state) (call : ViewCall ε) :
    ReadFutureInv producer (calls ++ [call]) (state.step call) := by
  have hfuture : (state.step call).future =
      state.future.addReader (call.release state.numCalls) := view_snd call _ _
  have hreleases : (state.step call).releases =
      state.releases ++ [call.release state.numCalls] := rfl
  have horders : (state.step call).orders =
      state.orders ++ call.orders state.numCalls (call.view state.numCalls state.future).1 := rfl
  constructor
  · rw [hfuture]
    exact h.raw
  · rw [List.length_append, ← h.numCalls]
    rfl
  · rw [hreleases, List.mapIdx_concat, ← h.releases, ← h.numCalls]
  · refine Or.inr ⟨by simp, ?_⟩
    rw [hfuture, hreleases, mergeAll_concat, Future.addReader]
    rcases h.war with ⟨rfl, hwar⟩ | ⟨-, hwar⟩
    · have hnil : state.releases = [] := h.releases
      rw [hwar, hnil]
      exact congrArg some (Finset.empty_union _).symm
    · rw [hwar]
      rfl
  · intro p
    rw [horders, List.mem_append, h.orders, mem_orders_iff h.raw, h.numCalls]
    constructor
    · rintro (⟨n, other, hother, hp⟩ | hp)
      · exact ⟨n, other, getElem?_push_of_getElem? hother, hp⟩
      · exact ⟨calls.length, call, List.getElem?_concat_length, hp⟩
    · rintro ⟨n, other, hother, hp⟩
      rcases eq_or_getElem?_of_push hother with ⟨rfl, rfl⟩ | hother
      · exact Or.inr hp
      · exact Or.inl ⟨n, other, hother, hp⟩

theorem readFutureInv_init (producer : Event ε) (value : Option β) :
    ReadFutureInv (producer.image .external) [] (init producer value) where
  raw := rfl
  numCalls := rfl
  releases := rfl
  war := Or.inl ⟨rfl, rfl⟩
  orders p := by simp [init]

theorem readFutureInv_run (producer : Event ε) (value : Option β) (calls : List (ViewCall ε)) :
    ReadFutureInv (producer.image .external) calls (run (init producer value) calls) := by
  induction calls using List.reverseRecOn with
  | nil => exact readFutureInv_init producer value
  | append_singleton calls call ih =>
      rw [run, List.foldl_append]
      exact ih.step call

end Calls

/-! ## When the future is ready in time -/

/-- Some view reaches a task whose end the readers wait for: a view of `view()`,
or one of a task whose completion was given to `view(ev)`. -/
def ReaderWaits (calls : List (ViewCall ε)) : Prop :=
  ∃ n call, calls[n]? = some call ∧ call.passed = true ∧
    (call.given = none ∨ ∃ other ∈ calls, ∃ ev ∈ other.given, .task n ∈ ev)

/-- Every completion of the producer was given to `view(ev)`. -/
def ProducerGiven (producer : Event ε) (calls : List (ViewCall ε)) : Prop :=
  ∀ e ∈ producer, ∃ call ∈ calls, ∃ ev ∈ call.given, .external e ∈ ev

section Ready

variable {producer : Event ε} {calls : List (ViewCall ε)} {state : ReadFuture ε β}

theorem ReadFutureInv.precondition_eq {producer : Event (ReadSignal ε)}
    (h : ReadFutureInv producer calls state) :
    (calls = [] ∧ state.future.precondition = producer) ∨
      (calls ≠ [] ∧ state.future.precondition = mergeAll state.releases) := by
  refine h.war.imp ?_ ?_
  · rintro ⟨hcalls, hwar⟩
    rw [Future.precondition_of_warPrecondition_none _ hwar, h.raw]
    exact ⟨hcalls, rfl⟩
  · rintro ⟨hcalls, hwar⟩
    rw [Future.precondition, hwar]
    exact ⟨hcalls, rfl⟩

/-- A completion of the readers belongs to the event of some call. -/
theorem ReadFutureInv.mem_releases {producer : Event (ReadSignal ε)}
    (h : ReadFutureInv producer calls state) {a : ReadSignal ε} :
    a ∈ mergeAll state.releases ↔
      ∃ (n : ℕ) (call : ViewCall ε), calls[n]? = some call ∧ a ∈ call.release n := by
  rw [mem_mergeAll, h.releases]
  constructor
  · rintro ⟨ev, hev, ha⟩
    obtain ⟨n, hn, rfl⟩ := List.mem_mapIdx.mp hev
    exact ⟨n, _, List.getElem?_eq_getElem hn, ha⟩
  · rintro ⟨n, call, hcall, ha⟩
    obtain ⟨hn, rfl⟩ := List.getElem?_eq_some_iff.mp hcall
    exact ⟨_, List.mem_mapIdx.mpr ⟨n, hn, rfl⟩, ha⟩

omit [DecidableEq ε] in
/-- What the events of the calls contain apart from their own readers was given. -/
theorem exists_given {a : ReadSignal ε} {n : ℕ} {call : ViewCall ε} (hcall : calls[n]? = some call)
    (ha : a ∈ call.release n) :
    (call.given = none ∧ a = .reader n) ∨ ∃ call ∈ calls, ∃ ev ∈ call.given, a ∈ ev := by
  rw [ViewCall.release] at ha
  cases hgiven : call.given with
  | none =>
      rw [hgiven] at ha
      exact Or.inl ⟨rfl, Finset.mem_singleton.mp ha⟩
  | some ev =>
      rw [hgiven] at ha
      exact Or.inr ⟨call, List.mem_of_getElem? hcall, ev, hgiven, ha⟩

theorem ReadFutureInv.mem_releases_of_given {producer : Event (ReadSignal ε)}
    (h : ReadFutureInv producer calls state) {a : ReadSignal ε}
    (ha : ∃ call ∈ calls, ∃ ev ∈ call.given, a ∈ ev) : a ∈ mergeAll state.releases := by
  obtain ⟨call, hcall, ev, hev, ha⟩ := ha
  obtain ⟨n, hn⟩ := List.mem_iff_getElem?.mp hcall
  refine h.mem_releases.mpr ⟨n, call, hn, ?_⟩
  rw [ViewCall.release, Option.mem_def.mp hev]
  exact ha

/-- A reader that waits for the producer makes the future wait for it. -/
theorem ReadFutureInv.implies_of_readerWaits {producer : Event (ReadSignal ε)}
    (h : ReadFutureInv producer calls state) (hwaits : ReaderWaits calls) :
    Implies state.orders ∅ (mergeAll state.releases) producer := by
  obtain ⟨n, call, hcall, hpassed, hgiven⟩ := hwaits
  -- the completion after which the future is ready and before which the producer is
  obtain ⟨a, ha, horder⟩ : ∃ a ∈ mergeAll state.releases, ({a}, producer) ∈ state.orders := by
    rcases hgiven with hnone | hgiven
    · refine ⟨.reader n, h.mem_releases.mpr ⟨n, call, hcall, ?_⟩, (h.orders _).mpr ⟨n, call, hcall,
        Or.inr ⟨hnone, by rw [if_pos hpassed]⟩⟩⟩
      rw [ViewCall.release, hnone]
      exact Finset.mem_singleton_self _
    · exact ⟨.task n, h.mem_releases_of_given hgiven,
        (h.orders _).mpr ⟨n, call, hcall, Or.inl ⟨hpassed, rfl⟩⟩⟩
  exact (Implies.of_subset (Finset.singleton_subset_iff.mpr ha)).trans (Implies.of_mem horder)

/-- With no such reader, the events of the readers alone could have triggered. -/
theorem ReadFutureInv.world_releases {producer : Event (ReadSignal ε)}
    (h : ReadFutureInv producer calls state) (hwaits : ¬ReaderWaits calls) :
    EventImplication.World state.orders (mergeAll state.releases : Set (ReadSignal ε)) := by
  intro p hp hsubset
  obtain ⟨n, call, hcall, ⟨hpassed, rfl⟩ | ⟨hnone, rfl⟩⟩ := (h.orders p).mp hp
  · have hmem : .task n ∈ mergeAll state.releases := hsubset (by simp)
    obtain ⟨m, other, hother, hmem⟩ := h.mem_releases.mp hmem
    rcases exists_given hother hmem with ⟨-, heq⟩ | hgiven
    · cases heq
    · exact absurd ⟨n, call, hcall, hpassed, Or.inr hgiven⟩ hwaits
  · have hunused : call.passed = false := by
      rw [← Bool.not_eq_true]
      exact fun hpassed ↦ hwaits ⟨n, call, hcall, hpassed, Or.inl hnone⟩
    simp [hunused]

end Ready

/-- A future that has handed out views waits for its producer exactly when some
view reaches a task that the readers' events wait for, or the producer was given
as the event of a reader.  It always waits for the release of the views. -/
theorem future_ready_iff (producer : Event ε) (value : Option β) (calls : List (ViewCall ε)) :
    ReadyInTime producer (run (init producer value) calls) ↔
      calls = [] ∨ ReaderWaits calls ∨ ProducerGiven producer calls := by
  have h := readFutureInv_run producer value calls
  rcases h.precondition_eq with ⟨rfl, hpre⟩ | ⟨hcalls, hpre⟩
  · refine iff_of_true ⟨?_, fun release hrelease ↦ ?_⟩ (Or.inl rfl)
    · rw [hpre]
      exact Implies.of_subset (Finset.Subset.refl _)
    · rw [h.releases] at hrelease
      exact absurd hrelease List.not_mem_nil
  have hreleased : ∀ release ∈ (run (init producer value) calls).releases,
      Implies (run (init producer value) calls).orders ∅
        (run (init producer value) calls).future.precondition release := by
    intro release hrelease
    rw [hpre]
    exact Implies.of_subset (subset_mergeAll hrelease)
  have hready : ReadyInTime producer (run (init producer value) calls) ↔
      Implies (run (init producer value) calls).orders ∅
        (mergeAll (run (init producer value) calls).releases) (producer.image .external) :=
    ⟨fun hready ↦ hpre ▸ hready.produced, fun hproduced ↦ ⟨hpre ▸ hproduced, hreleased⟩⟩
  rw [hready]
  constructor
  · intro himplies
    refine Or.inr (or_iff_not_imp_left.mpr fun hwaits e he ↦ ?_)
    have hmem := (implied_iff_mem_of_world (h.world_releases hwaits) (Finset.empty_subset _)).mp
      (himplies _ (Finset.mem_image_of_mem _ he))
    obtain ⟨n, call, hcall, hmem⟩ := h.mem_releases.mp hmem
    rcases exists_given hcall hmem with ⟨-, heq⟩ | hgiven
    · cases heq
    · exact hgiven
  · rintro (rfl | hwaits | hgiven)
    · exact absurd rfl hcalls
    · exact h.implies_of_readerWaits hwaits
    · refine Implies.of_subset fun a ha ↦ ?_
      obtain ⟨e, he, rfl⟩ := Finset.mem_image.mp ha
      exact h.mem_releases_of_given (hgiven e he)

/-- A future that is read by no one but looked at once: it seems to be ready
before its producer. -/
theorem not_future_ready_unused :
    ¬ ∀ (producer : Event ℕ) (value : Option Unit) (calls : List (ViewCall ℕ)),
      ReadyInTime producer (run (init producer value) calls) := by
  intro h
  have hunused : ¬ReaderWaits [(⟨none, false⟩ : ViewCall ℕ)] := by
    rintro ⟨n, call, hcall, hpassed, -⟩
    rw [List.mem_singleton.mp (List.mem_of_getElem? hcall)] at hpassed
    cases hpassed
  have hworld := (readFutureInv_run {7} (none : Option Unit) [⟨none, false⟩]).world_releases hunused
  have hmem := (h {7} none [⟨none, false⟩]).produced (.external 7) (by decide)
  exact absurd (hmem.mem_world hworld (by simp) subset_rfl) (by decide)

end Zuku
