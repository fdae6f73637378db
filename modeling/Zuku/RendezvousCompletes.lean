import Zuku.RendezvousOrder
import Zuku.RendezvousLocal

/-!
# Rendezvous that come to an end

When all messages have been delivered and both sides of every key have had as
many operations, nothing is pending.  An operation may wait for operations of
any key that come before it in one order of all operations, as those of a
program that every process runs do; then the event of every operation triggers.
-/

namespace Zuku

open Checked Event FifoMatching

variable {κ ε ι : Type}

/-- What triggers, given the events from outside that have.  An event from
outside a key can be that of an operation of another key: `link` says of which.
A generation of a barrier follows those before it. -/
inductive Completes (reshards : PointToPointReshards κ ε ι) (link : ε → Option (κ × Signal ε))
    (done : Set ε) : κ → Signal ε → Prop where
  | external {key : κ} {e : ε} : e ∈ done → Completes reshards link done key (.external e)
  | linked {key other : κ} {e : ε} {s : Signal ε} : link e = some (other, s) →
      Completes reshards link done other s → Completes reshards link done key (.external e)
  | copy {key : κ} {k : ℕ} {copy : Copy ε ι} : (reshards key).runtime.copies[k]? = some copy →
      (∀ s ∈ copy.precondition, Completes reshards link done key s) →
      Completes reshards link done key (.copyDone k)
  | userEvent {key : κ} {id : ℕ} {event : Event (Signal ε)} :
      (id, event) ∈ (reshards key).runtime.triggers →
      (∀ s ∈ event, Completes reshards link done key s) →
      Completes reshards link done key (.userEvent id)
  | generation {key : κ} {barrier gen : ℕ} {event : Event (Signal ε)} :
      (⟨barrier, gen⟩, event) ∈ (reshards key).runtime.arrivals →
      (∀ s ∈ event, Completes reshards link done key s) →
      (∀ earlier < gen, Completes reshards link done key (.generation barrier earlier)) →
      Completes reshards link done key (.generation barrier gen)

/-- A completion that key `key` waits for is one of the key `other`. -/
def Refers (link : ε → Option (κ × Signal ε)) (key : κ) (s : Signal ε) (other : κ)
    (s' : Signal ε) : Prop :=
  (other = key ∧ s' = s) ∨ ∃ e, s = .external e ∧ link e = some (other, s')

/-- The operations of all keys are numbered by `step`, those of a key in their
order.  An operation waits for what has happened outside and for the events of
operations with smaller numbers. -/
structure WaitsEarlier (reshards : PointToPointReshards κ ε ι) (link : ε → Option (κ × Signal ε))
    (done : Set ε) (step : κ → ℕ → ℕ) : Prop where
  strictMono : ∀ key, StrictMono (step key)
  waits : ∀ (key : κ) (k : ℕ) answer, (reshards key).IsOp k answer →
    ∀ s ∈ answer.1.precondition, (∃ e ∈ done, s = .external e) ∨
      ∃ other j earlier s', step other j < step key k ∧ (reshards other).IsOp j earlier ∧
        s' ∈ earlier.2 ∧ Refers link key s other s'

/-- Nothing of a key waits for a counterpart, and there is a copy for every
pair of operations. -/
structure Settled (spaces : KeySpaces) (state : KeyState ε ι) : Prop where
  source_idle : (state.entries spaces.source).pendingSourceReshards = [] ∧
    (state.entries spaces.source).pendingDestReshards = []
  target_idle : (state.entries spaces.target).pendingSourceReshards = [] ∧
    (state.entries spaces.target).pendingDestReshards = []
  length_copies : state.runtime.copies.length = state.sourceOps.length

/-! ## One operation -/

section Operations

variable {reshards : PointToPointReshards κ ε ι} {link : ε → Option (κ × Signal ε)} {done : Set ε}
  {key : κ}

theorem completes_of_givenBy {event result : Event (Signal ε)} {ready : Prop}
    (h : GivenBy (reshards key).runtime.triggers event result ready) (hready : ready)
    (hresult : ∀ s ∈ result, Completes reshards link done key s) :
    ∀ s ∈ event, Completes reshards link done key s := by
  rcases h with ⟨rfl, -⟩ | ⟨id, rfl, htriggered, -⟩
  · exact hresult
  · intro s hs
    rw [Finset.mem_singleton.mp hs]
    have hmem : (id, result) ∈ (reshards key).runtime.triggers.filter
        fun t ↦ decide (t.1 = id) := by
      rw [htriggered hready]
      exact List.mem_singleton_self _
    exact .userEvent (List.mem_of_mem_filter hmem) hresult

/-- A generation triggers once something arrives on it and on all before it. -/
theorem completes_generation {barrier k : ℕ}
    (h : ∀ j ≤ k, ∃ event ∈ arrivedOn (reshards key).runtime ⟨barrier, j⟩,
      ∀ s ∈ event, Completes reshards link done key s) :
    Completes reshards link done key (.generation barrier k) := by
  induction k using Nat.strong_induction_on with
  | _ k ih =>
    obtain ⟨event, hmem, hevent⟩ := h k le_rfl
    obtain ⟨arrival, harrival, rfl⟩ := List.mem_map.mp hmem
    obtain ⟨hmem, hbarrier⟩ := List.mem_filter.mp harrival
    obtain ⟨at', event⟩ := arrival
    obtain rfl : at' = ⟨barrier, k⟩ := of_decide_eq_true hbarrier
    exact .generation hmem hevent fun j hj ↦ ih j hj fun i hi ↦ h i (hi.trans hj.le)

end Operations

theorem Matching.drained {α β : Type} {lefts pendingLeft : List α} {rights pendingRight : List β}
    {matched : List (α × β)} (h : Matching lefts rights pendingLeft pendingRight matched)
    (hlength : lefts.length = rights.length) : pendingLeft = [] ∧ pendingRight = [] := by
  rw [h.pendingLeft_eq, h.pendingRight_eq, hlength, List.drop_length, ← hlength, List.drop_length]
  exact ⟨rfl, rfl⟩

variable [DecidableEq ε]

/-- The preconditions of the operations up to number `k` have triggered. -/
def ReadyUpTo (reshards : PointToPointReshards κ ε ι) (link : ε → Option (κ × Signal ε))
    (done : Set ε) (key : κ) (k : ℕ) : Prop :=
  ∀ j ≤ k, ∀ answer, (reshards key).IsOp j answer →
    ∀ s ∈ answer.1.precondition, Completes reshards link done key s

/-! ## A key in one address space -/

section Local

variable {space : ℕ} {state : KeyState ε ι}

theorem LocalState.settled (h : LocalState space state)
    (hbalanced : state.sourceOps.length = state.targetOps.length) :
    Settled ⟨space, space⟩ state := by
  have hlength := h.fifoMatched.length_copies
  obtain ⟨first, sources, targets, hsources, htargets, hinv⟩ := h
  obtain ⟨matched, hmatching, -⟩ := hinv.matching
  have hidle := Matching.drained hmatching (by simpa [hsources, htargets] using hbalanced)
  rw [← hbalanced, min_self] at hlength
  exact ⟨hidle, hidle, hlength⟩

variable {reshards : PointToPointReshards κ ε ι} {link : ε → Option (κ × Signal ε)} {done : Set ε}
  {key : κ}

theorem LocalState.completes (h : LocalState space (reshards key))
    (hbalanced : (reshards key).sourceOps.length = (reshards key).targetOps.length) {k : ℕ}
    (hready : ReadyUpTo reshards link done key k) {answer : ReshardOp ε ι × Event (Signal ε)}
    (hop : (reshards key).IsOp k answer) :
    ∀ s ∈ answer.2, Completes reshards link done key s := by
  have hfifo := h.fifoMatched
  have hlt : k < (reshards key).runtime.copies.length := by
    rw [hfifo.length_copies, ← hbalanced, min_self]
    rcases hop with hop | hop
    · exact (List.getElem?_eq_some_iff.mp hop).1
    · rw [hbalanced]
      exact (List.getElem?_eq_some_iff.mp hop).1
  have hcopy : ∀ s ∈ ({.copyDone k} : Event (Signal ε)), Completes reshards link done key s := by
    intro s hs
    rw [Finset.mem_singleton.mp hs]
    obtain ⟨source, target, hsource, htarget, -, -, hpre⟩ :=
      hfifo.copy_pairs k _ (List.getElem?_eq_getElem hlt)
    refine .copy (List.getElem?_eq_getElem hlt) fun s hs ↦ ?_
    rw [hpre] at hs
    rcases Finset.mem_union.mp hs with hs | hs
    · exact hready k le_rfl target (Or.inr htarget) s hs
    · exact hready k le_rfl source (Or.inl hsource) s hs
  rcases hop with hop | hop
  · exact completes_of_givenBy (hfifo.source_given k answer hop) hlt hcopy
  · exact completes_of_givenBy (hfifo.target_given k answer hop) hlt hcopy

end Local

/-! ## A key in two address spaces -/

section Cross

variable {spaces : KeySpaces} {inOrder : Prop} {state : KeyState ε ι}

/-- All names have been delivered. -/
theorem CrossState.length_names (h : CrossState spaces inOrder state)
    (hmessages : state.runtime.messages = []) :
    (names state.delivered).length = state.targetOps.length := by
  obtain ⟨sources, targets, ack, ready, acked, -, htargets, hinv⟩ := h
  have hperm := hinv.traffic.names_perm
  rw [hmessages, names_nil, List.append_nil] at hperm
  rw [hperm.length_eq, length_targetNames, htargets, length_answers]

theorem CrossState.ackDelivered (h : CrossState spaces inOrder state)
    (hmessages : state.runtime.messages = []) (hsome : state.sourceOps ≠ []) :
    AckDelivered spaces state := by
  obtain ⟨sources, targets, ack, ready, acked, hsources, -, hinv⟩ := h
  rw [ackDelivered_iff hinv.traffic]
  by_contra hacked
  have hopened : (sources.head?.map Prod.fst).isSome = true := by
    cases sources with
    | nil => exact absurd hsources hsome
    | cons source sources => rfl
  have hsent := hinv.traffic.acks_messages hopened hacked
  rw [hmessages] at hsent
  exact absurd hsent (by simp)

theorem CrossState.settled (h : CrossState spaces inOrder state)
    (hmessages : state.runtime.messages = [])
    (hbalanced : state.sourceOps.length = state.targetOps.length) : Settled spaces state := by
  have hnames := h.length_names hmessages
  have hlength := h.nothingLost.length_copies
  have hack := h.ackDelivered hmessages
  obtain ⟨sources, targets, ack, ready, acked, hsources, htargets, hinv⟩ := h
  obtain ⟨matched, hmatching, -⟩ := hinv.sourceSide.matching
  refine ⟨?_, ⟨hinv.targetSide.noSource, ?_⟩, ?_⟩
  · apply Matching.drained hmatching
    rw [List.length_map, List.length_map, hnames, ← hbalanced, hsources, length_answers]
  · rw [hinv.targetSide.pendingDest]
    cases targets with
    | nil => simp
    | cons target targets =>
        have hsome : state.sourceOps ≠ [] := by
          rw [← List.length_pos_iff, hbalanced, htargets, length_answers]
          exact Nat.succ_pos _
        exact if_pos ((ackDelivered_iff hinv.traffic).mp (hack hsome))
  · rw [hlength, hnames, ← hbalanced, min_self]

variable {reshards : PointToPointReshards κ ε ι} {link : ε → Option (κ × Signal ε)} {done : Set ε}
  {key : κ}

theorem CrossState.completes (h : CrossState spaces inOrder (reshards key)) (horder : inOrder)
    (hmessages : (reshards key).runtime.messages = [])
    (hbalanced : (reshards key).sourceOps.length = (reshards key).targetOps.length) {k : ℕ}
    (hready : ReadyUpTo reshards link done key k) {answer : ReshardOp ε ι × Event (Signal ε)}
    (hop : (reshards key).IsOp k answer) :
    ∀ s ∈ answer.2, Completes reshards link done key s := by
  obtain ⟨ack, ready, hpairs, hgiven, -⟩ := h.pairsInOrder horder
  have hlength := (h.settled hmessages hbalanced).length_copies
  have hlt : k < (reshards key).sourceOps.length := by
    rcases hop with hop | hop
    · exact (List.getElem?_eq_some_iff.mp hop).1
    · rw [hbalanced]
      exact (List.getElem?_eq_some_iff.mp hop).1
  have hpair (j : ℕ) (hj : j ≤ k) :=
    hpairs j _ (List.getElem?_eq_getElem (hlength ▸ hj.trans_lt hlt))
  have htarget (j : ℕ) (hj : j ≤ k) :
      Completes reshards link done key (.generation ready j) := by
    apply completes_generation
    intro i hi
    obtain ⟨source, target, -, htarget, -, -, -, harrived⟩ := (hpair i (hi.trans hj)).paired
    refine ⟨target.1.precondition, ?_, hready i (hi.trans hj) target (Or.inr htarget)⟩
    rw [harrived]
    exact List.mem_singleton_self _
  have hcopy (j : ℕ) (hj : j ≤ k) :
      ∀ s ∈ ({.copyDone j} : Event (Signal ε)), Completes reshards link done key s := by
    intro s hs
    rw [Finset.mem_singleton.mp hs]
    obtain ⟨source, target, hsource, -, -, -, hpre, -⟩ := (hpair j hj).paired
    refine .copy (List.getElem?_eq_getElem (hlength ▸ hj.trans_lt hlt)) fun s hs ↦ ?_
    rw [hpre] at hs
    rcases Finset.mem_union.mp hs with hs | hs
    · rw [Finset.mem_singleton.mp hs]
      exact htarget j hj
    · exact hready j hj source (Or.inl hsource) s hs
  rcases hop with hop | hop
  · have hnamed : k < (names (reshards key).delivered).length := by
      rwa [h.length_names hmessages, ← hbalanced]
    exact completes_of_givenBy (h.nothingLost.source_given k answer hop) hnamed (hcopy k le_rfl)
  · have hsome : (reshards key).sourceOps ≠ [] := List.ne_nil_of_length_pos (Nat.zero_lt_of_lt hlt)
    refine completes_of_givenBy (hgiven k answer hop) (h.ackDelivered hmessages hsome) ?_
    intro s hs
    rw [Finset.mem_singleton.mp hs]
    apply completes_generation
    intro j hj
    refine ⟨{.copyDone j}, ?_, hcopy j hj⟩
    rw [(hpair j hj).arrivedOn_ack]
    exact List.mem_singleton_self _

end Cross

/-! ## All keys -/

section Keys

variable [DecidableEq κ] {spaces : κ → KeySpaces} {reshards : PointToPointReshards κ ε ι}

/-- All messages have been delivered, and both sides have had as many operations. -/
structure Quiescent (state : KeyState ε ι) : Prop where
  noMessages : state.runtime.messages = []
  balanced : state.sourceOps.length = state.targetOps.length

variable {link : ε → Option (κ × Signal ε)} {done : Set ε} {step : κ → ℕ → ℕ}

omit [DecidableEq κ] [DecidableEq ε] in
/-- Operations complete in the order of their numbers. -/
theorem completes_of_waitsEarlier (hwaits : WaitsEarlier reshards link done step)
    (hcompletes : ∀ (key : κ) (k : ℕ) answer, ReadyUpTo reshards link done key k →
      (reshards key).IsOp k answer → ∀ s ∈ answer.2, Completes reshards link done key s)
    {key : κ} {k : ℕ} {answer : ReshardOp ε ι × Event (Signal ε)}
    (hop : (reshards key).IsOp k answer) :
    ∀ s ∈ answer.2, Completes reshards link done key s := by
  induction hn : step key k using Nat.strong_induction_on generalizing key k answer with
  | _ n ih =>
    apply hcompletes key k answer _ hop
    intro j hj before hbefore s hs
    rcases hwaits.waits key j before hbefore s hs with
      ⟨e, he, rfl⟩ | ⟨other, i, earlier, s', hlt, hearlier, hs', hrefers⟩
    · exact .external he
    · have hstep : step other i < n :=
        hn ▸ hlt.trans_le ((hwaits.strictMono key).monotone hj)
      have hdone := ih _ hstep hearlier rfl s' hs'
      rcases hrefers with ⟨rfl, rfl⟩ | ⟨e, rfl, hlink⟩
      · exact hdone
      · exact .linked hlink hdone

/-- An interleaving of operations and deliveries of all keys in which the first
operation of every entry can name its reshard, and whose names are delivered in
order, runs without a fault.  If it ends with nothing in flight, nothing is
pending, and if moreover operations wait only for earlier ones, all of them
complete. -/
theorem run_completes (spaces : κ → KeySpaces) (actions : List (κ × KeyAction ε ι))
    (hnamed : ∀ key, FirstNamed (spaces key) (actionsOf key actions))
    (horder : ∀ key, (spaces key).source ≠ (spaces key).target →
      RunInOrder (spaces key) {} (actionsOf key actions)) :
    ∃ reshards, PointToPointReshards.run spaces (fun _ ↦ {}) actions = .ok reshards ∧
      (∀ key, Logged (spaces key) (actionsOf key actions) (reshards key)) ∧
      ((∀ key, Quiescent (reshards key)) →
        (∀ key, Settled (spaces key) (reshards key)) ∧
        ∀ (link : ε → Option (κ × Signal ε)) (done : Set ε) (step : κ → ℕ → ℕ),
          WaitsEarlier reshards link done step →
            ∀ (key : κ) (k : ℕ) answer, (reshards key).IsOp k answer →
              ∀ s ∈ answer.2, Completes reshards link done key s) := by
  obtain ⟨reshards, hrun, hinv⟩ :=
    PointToPointReshards.run_keyInv (fun key ↦ keyInv_init (spaces key))
      fun key ↦ namedFrom_init.mpr (hnamed key)
  have hlocal (key : κ) (heq : (spaces key).source = (spaces key).target) :
      LocalState (spaces key).source (reshards key) := by
    have hstate := hinv key
    rwa [KeyInv, if_pos heq] at hstate
  have hcross (key : κ) (hne : (spaces key).source ≠ (spaces key).target) :
      ∃ inOrder, inOrder ∧ CrossState (spaces key) inOrder (reshards key) := by
    obtain ⟨state, hstate, hcross⟩ :=
      crossState_init.run hne (namedFrom_init.mpr (hnamed key))
    obtain rfl : state = reshards key :=
      Except.ok.inj (hstate.symm.trans (PointToPointReshards.run_key hrun key))
    exact ⟨_, ⟨trivial, horder key hne⟩, hcross⟩
  refine ⟨reshards, hrun, fun key ↦ KeyState.logged_of_run (PointToPointReshards.run_key hrun key),
    fun hquiet ↦ ⟨fun key ↦ ?_, fun link done step hwaits key k answer ↦ ?_⟩⟩
  · by_cases heq : (spaces key).source = (spaces key).target
    · have hsettled := (hlocal key heq).settled (hquiet key).balanced
      exact ⟨hsettled.source_idle, heq ▸ hsettled.target_idle, hsettled.length_copies⟩
    · obtain ⟨inOrder, -, hstate⟩ := hcross key heq
      exact hstate.settled (hquiet key).noMessages (hquiet key).balanced
  · refine completes_of_waitsEarlier hwaits fun key k answer hready hop ↦ ?_
    by_cases heq : (spaces key).source = (spaces key).target
    · exact (hlocal key heq).completes (hquiet key).balanced hready hop
    · obtain ⟨inOrder, horder, hstate⟩ := hcross key heq
      exact hstate.completes horder (hquiet key).noMessages (hquiet key).balanced hready hop

end Keys

theorem getElem?_singleton_eq_some {α : Type} {a b : α} {k : ℕ} :
    [a][k]? = some b ↔ k = 0 ∧ a = b := by
  cases k <;> simp

/-- One key joins two address spaces and the other is within one, where the
source operation waits for the target operation of the first key. -/
def linkedSpaces (key : Bool) : KeySpaces := if key then ⟨1, 1⟩ else ⟨0, 1⟩

def linkedActions : List (Bool × KeyAction ℕ ℕ) :=
  [(false, .target (tileOp 0 10)), (true, .source (tileOp 5 11)), (false, .source (tileOp 1 20)),
    (false, .deliver 0), (true, .target (tileOp 2 30)), (false, .deliver 0)]

def linkedEvent (e : ℕ) : Option (Bool × Signal ℕ) :=
  if e = 5 then some (false, .userEvent 0) else none

theorem run_completes_linked :
    ∃ reshards : PointToPointReshards Bool ℕ ℕ,
      PointToPointReshards.run linkedSpaces (fun _ ↦ {}) linkedActions = .ok reshards ∧
      (∀ key, Settled (linkedSpaces key) (reshards key)) ∧
      ∀ (key : Bool) (k : ℕ) answer, (reshards key).IsOp k answer → ∀ s ∈ answer.2,
        Completes reshards linkedEvent {0, 1, 2} key s := by
  obtain ⟨reshards, hrun, -, hcompletes⟩ :=
    run_completes linkedSpaces linkedActions (by decide) (by decide)
  obtain ⟨joined, hjoined, hsources, htargets, hmessages⟩ :
      ∃ state, KeyState.run (linkedSpaces false) {} (actionsOf false linkedActions) = .ok state ∧
        state.sourceOps = [(tileOp 1 20, {.userEvent 1})] ∧
        state.targetOps = [(tileOp 0 10, {.userEvent 0})] ∧ state.runtime.messages = [] :=
    ⟨_, rfl, rfl, rfl, rfl⟩
  obtain rfl : joined = reshards false :=
    Except.ok.inj (hjoined.symm.trans (PointToPointReshards.run_key hrun false))
  obtain ⟨within, hwithin, hsources', htargets', hmessages'⟩ :
      ∃ state, KeyState.run (linkedSpaces true) {} (actionsOf true linkedActions) = .ok state ∧
        state.sourceOps = [(tileOp 5 11, {.userEvent 0})] ∧
        state.targetOps = [(tileOp 2 30, {.copyDone 0})] ∧ state.runtime.messages = [] :=
    ⟨_, rfl, rfl, rfl, rfl⟩
  obtain rfl : within = reshards true :=
    Except.ok.inj (hwithin.symm.trans (PointToPointReshards.run_key hrun true))
  have hquiet (key : Bool) : Quiescent (reshards key) := by
    cases key with
    | false => exact ⟨hmessages, by rw [hsources, htargets]; rfl⟩
    | true => exact ⟨hmessages', by rw [hsources', htargets']; rfl⟩
  obtain ⟨hsettled, hdone⟩ := hcompletes hquiet
  refine ⟨reshards, hrun, hsettled, hdone linkedEvent {0, 1, 2}
    (fun key k ↦ if key then 2 * k + 1 else 2 * k) ⟨?_, ?_⟩⟩
  · intro key i j hij
    cases key <;> simp <;> omega
  · intro key k answer hop s hs
    cases key with
    | false =>
        rw [KeyState.IsOp, hsources, htargets, getElem?_singleton_eq_some,
          getElem?_singleton_eq_some] at hop
        rcases hop with ⟨rfl, rfl⟩ | ⟨rfl, rfl⟩
        · exact Or.inl ⟨1, by simp, Finset.mem_singleton.mp hs⟩
        · exact Or.inl ⟨0, by simp, Finset.mem_singleton.mp hs⟩
    | true =>
        rw [KeyState.IsOp, hsources', htargets', getElem?_singleton_eq_some,
          getElem?_singleton_eq_some] at hop
        rcases hop with ⟨rfl, rfl⟩ | ⟨rfl, rfl⟩
        · refine Or.inr ⟨false, 0, (tileOp 0 10, {.userEvent 0}), .userEvent 0, by simp, ?_,
            Finset.mem_singleton_self _, Or.inr ⟨5, Finset.mem_singleton.mp hs, rfl⟩⟩
          exact Or.inr (by rw [htargets]; rfl)
        · exact Or.inl ⟨2, by simp, Finset.mem_singleton.mp hs⟩

end Zuku
