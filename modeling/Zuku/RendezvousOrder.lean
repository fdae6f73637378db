import Zuku.RendezvousLossless

/-!
# The order of the names in a rendezvous

The source pairs its operations with the names of the target in the order in
which the names arrive, and the target pairs its own operations with the
generations of the ack barrier in program order.  Both agree when the names are
delivered in the order in which they were sent.
-/

namespace Zuku

open Checked Event FifoMatching

variable {ε ι : Type}

/-- The `k`-th operation of one side, with the event it was given. -/
def KeyState.IsOp (state : KeyState ε ι) (k : ℕ) (answer : ReshardOp ε ι × Event (Signal ε)) :
    Prop :=
  state.sourceOps[k]? = some answer ∨ state.targetOps[k]? = some answer

/-- A wait outside of the manager: `outside` says for what the events from
outside of the key wait. -/
def OutsideWait (outside : ε → Signal ε → Prop) (s s' : Signal ε) : Prop :=
  ∃ e, s = .external e ∧ outside e s'

/-- The completions that a completion waits for. -/
inductive WaitsFor (outside : ε → Signal ε → Prop) (rt : Runtime ε ι) :
    Signal ε → Signal ε → Prop where
  | outside {s s' : Signal ε} : OutsideWait outside s s' → WaitsFor outside rt s s'
  | copy {k : ℕ} {copy : Copy ε ι} {s : Signal ε} :
      rt.copies[k]? = some copy → s ∈ copy.precondition → WaitsFor outside rt (.copyDone k) s
  | trigger {id : ℕ} {event : Event (Signal ε)} {s : Signal ε} :
      (id, event) ∈ rt.triggers → s ∈ event → WaitsFor outside rt (.userEvent id) s
  | arrival {barrier gen : ℕ} {event : Event (Signal ε)} {s : Signal ε} :
      (⟨barrier, gen⟩, event) ∈ rt.arrivals → s ∈ event →
        WaitsFor outside rt (.generation barrier gen) s
  | advance {barrier gen : ℕ} :
      WaitsFor outside rt (.generation barrier (gen + 1)) (.generation barrier gen)

/-- Outside of the manager a completion waits, of the events of the key, only
for those given to operations with a number below `k`. -/
def WaitsBelow (outside : ε → Signal ε → Prop) (state : KeyState ε ι) (k : ℕ) (s : Signal ε) :
    Prop :=
  ∀ s', Relation.ReflTransGen (OutsideWait outside) s s' →
    (∃ e, s' = .external e) ∨ ∃ j < k, ∃ answer, state.IsOp j answer ∧ s' ∈ answer.2

variable [DecidableEq ε]

/-- The copy of generation `i` waits for the `i`-th source and target and writes
the instance of the `i`-th target. -/
structure InOrderCopy (state : KeyState ε ι) (ack ready i : ℕ) (copy : Copy ε ι) : Prop where
  arrivedOn_ack : arrivedOn state.runtime ⟨ack, i⟩ = [{.copyDone i}]
  paired : ∃ source target, state.sourceOps[i]? = some source ∧ state.targetOps[i]? = some target ∧
    copy.srcInstance = some source.1.regionInstance ∧
    copy.dstInstance = some target.1.regionInstance ∧
    copy.precondition = mergeEvents {.generation ready i} source.1.precondition ∧
    arrivedOn state.runtime ⟨ready, i⟩ = [target.1.precondition]

/-- The `i`-th operations of both sides are paired, and no target operation
waits for a later one, provided that every operation is deferred only after
what its side has been given before. -/
def PairsInOrder (spaces : KeySpaces) (state : KeyState ε ι) : Prop :=
  ∃ ack ready,
    (∀ (i : ℕ) copy, state.runtime.copies[i]? = some copy → InOrderCopy state ack ready i copy) ∧
    (∀ (i : ℕ) target, state.targetOps[i]? = some target →
      GivenBy state.runtime.triggers target.2 {.generation ack i} (AckDelivered spaces state)) ∧
    ∀ outside : ε → Signal ε → Prop,
      (∀ (k : ℕ) answer, state.IsOp k answer →
        ∀ s ∈ answer.1.precondition, WaitsBelow outside state k s) →
      ∀ (i j : ℕ) target, i < j → state.targetOps[i]? = some target → ∀ s ∈ target.2,
        ¬Relation.ReflTransGen (WaitsFor outside state.runtime) s (.generation ready j)

/-! ## What an early completion waits for -/

/-- The result of an operation up to number `i`. -/
def EarlyResult (ack i : ℕ) (event : Event (Signal ε)) : Prop :=
  ∃ k ≤ i, event = {.copyDone k} ∨ event = {.generation ack k}

/-- The completions that the operations up to number `i` can wait for. -/
def Early (outside : ε → Signal ε → Prop) (state : KeyState ε ι) (ack ready i : ℕ) :
    Signal ε → Prop
  | .external e => WaitsBelow outside state i (.external e)
  | .copyDone k => k ≤ i
  | .generation barrier gen => (barrier = ack ∨ barrier = ready) ∧ gen ≤ i
  | .userEvent id => ∀ event, (id, event) ∈ state.runtime.triggers → EarlyResult ack i event

section Waiting

variable {outside : ε → Signal ε → Prop} {state : KeyState ε ι} {ack ready i : ℕ}

omit [DecidableEq ε] in
theorem mem_arrivedOn {rt : Runtime ε ι} {barrier : Barrier} {event : Event (Signal ε)} :
    event ∈ arrivedOn rt barrier ↔ (barrier, event) ∈ rt.arrivals := by
  rw [arrivedOn, List.mem_map]
  constructor
  · rintro ⟨arrival, hmem, rfl⟩
    obtain ⟨harrival, heq⟩ := List.mem_filter.mp hmem
    rwa [← of_decide_eq_true heq]
  · intro hmem
    exact ⟨(barrier, event), List.mem_filter.mpr ⟨hmem, decide_eq_true rfl⟩, rfl⟩

omit [DecidableEq ε] in
theorem WaitsBelow.mono {k : ℕ} (hk : k ≤ i) {s : Signal ε} (h : WaitsBelow outside state k s) :
    WaitsBelow outside state i s := by
  intro s' hs'
  rcases h s' hs' with hexternal | ⟨j, hj, hop⟩
  · exact Or.inl hexternal
  · exact Or.inr ⟨j, hj.trans_le hk, hop⟩

omit [DecidableEq ε] in
/-- An event that was given an early result is early. -/
theorem early_of_givenBy {event result : Event (Signal ε)} {p : Prop}
    (hgiven : GivenBy state.runtime.triggers event result p) (hresult : EarlyResult ack i result)
    {s : Signal ε} (hs : s ∈ event) : Early outside state ack ready i s := by
  rcases hgiven with ⟨rfl, -⟩ | ⟨id, rfl, htriggered, hwaiting⟩
  · obtain ⟨k, hk, rfl | rfl⟩ := hresult
    · rw [Finset.mem_singleton.mp hs]
      exact hk
    · rw [Finset.mem_singleton.mp hs]
      exact ⟨Or.inl rfl, hk⟩
  · rw [Finset.mem_singleton.mp hs]
    intro event hmem
    have hfilter : (id, event) ∈ state.runtime.triggers.filter fun t ↦ decide (t.1 = id) :=
      List.mem_filter.mpr ⟨hmem, decide_eq_true rfl⟩
    by_cases hp : p
    · rw [htriggered hp] at hfilter
      obtain rfl := congrArg Prod.snd (List.mem_singleton.mp hfilter)
      exact hresult
    · rw [hwaiting hp] at hfilter
      exact absurd hfilter List.not_mem_nil

/-- What the waits of a key in order are made of: the events given to its
operations, and what arrives on the barriers and is copied. -/
structure OrderedWaits (outside : ε → Signal ε → Prop) (state : KeyState ε ι) (ack ready : ℕ) :
    Prop where
  given : ∀ (k : ℕ) answer, state.IsOp k answer → ∀ i ≥ k, ∀ s ∈ answer.2,
    Early outside state ack ready i s
  below : ∀ (k : ℕ) answer, state.IsOp k answer → ∀ s ∈ answer.1.precondition,
    WaitsBelow outside state k s
  arrived_ack : ∀ gen, ∀ event ∈ arrivedOn state.runtime ⟨ack, gen⟩, event = {.copyDone gen}
  arrived_ready : ∀ gen, ∀ event ∈ arrivedOn state.runtime ⟨ready, gen⟩,
    ∃ answer, state.IsOp gen answer ∧ event = answer.1.precondition
  copied : ∀ (k : ℕ) copy, state.runtime.copies[k]? = some copy → ∃ answer,
    state.IsOp k answer ∧
      copy.precondition = mergeEvents {.generation ready k} answer.1.precondition

/-- Outside of the manager, what waits only for operations below `i` is early. -/
theorem OrderedWaits.early_of_waitsBelow (h : OrderedWaits outside state ack ready) {s : Signal ε}
    (hs : WaitsBelow outside state i s) : Early outside state ack ready i s := by
  rcases hs s .refl with ⟨e, rfl⟩ | ⟨j, hj, answer, hop, hmem⟩
  · exact hs
  · exact h.given j answer hop i hj.le s hmem

theorem OrderedWaits.early_of_precondition (h : OrderedWaits outside state ack ready) {k : ℕ}
    (hk : k ≤ i) {answer : ReshardOp ε ι × Event (Signal ε)} (hop : state.IsOp k answer)
    {s : Signal ε} (hs : s ∈ answer.1.precondition) : Early outside state ack ready i s :=
  h.early_of_waitsBelow ((h.below k answer hop s hs).mono hk)

/-- An early completion waits for early ones only. -/
theorem OrderedWaits.waitsFor (h : OrderedWaits outside state ack ready) {s s' : Signal ε}
    (hs : Early outside state ack ready i s) (hwaits : WaitsFor outside state.runtime s s') :
    Early outside state ack ready i s' := by
  cases hwaits with
  | outside houtside =>
      obtain ⟨e, rfl, hwait⟩ := houtside
      apply h.early_of_waitsBelow
      intro s'' hs''
      exact hs s'' (.head ⟨e, rfl, hwait⟩ hs'')
  | copy hk hmem =>
      obtain ⟨answer, hop, hpre⟩ := h.copied _ _ hk
      rw [hpre] at hmem
      rcases Finset.mem_union.mp hmem with hmem | hmem
      · rw [Finset.mem_singleton.mp hmem]
        exact ⟨Or.inr rfl, hs⟩
      · exact h.early_of_precondition hs hop hmem
  | trigger hid hmem =>
      obtain ⟨k, hk, rfl | rfl⟩ := hs _ hid
      · rw [Finset.mem_singleton.mp hmem]
        exact hk
      · rw [Finset.mem_singleton.mp hmem]
        exact ⟨Or.inl rfl, hk⟩
  | arrival harrival hmem =>
      obtain ⟨rfl | rfl, hgen⟩ := hs
      · rw [h.arrived_ack _ _ (mem_arrivedOn.mpr harrival)] at hmem
        rw [Finset.mem_singleton.mp hmem]
        exact hgen
      · obtain ⟨answer, hop, rfl⟩ := h.arrived_ready _ _ (mem_arrivedOn.mpr harrival)
        exact h.early_of_precondition hgen hop hmem
  | advance => exact ⟨hs.1, Nat.le_of_succ_le hs.2⟩

end Waiting

/-! ## Runs in order -/

section InOrder

variable {spaces : KeySpaces} {sources targets : List (Served ε ι)} {ack ready : ℕ} {acked : Bool}
  {inOrder : Prop} {state : KeyState ε ι}

omit [DecidableEq ε] in
/-- The `i`-th delivered name is that of the `i`-th target operation. -/
theorem Traffic.getElem?_names {opened acked : Prop} {messages delivered : List (NameMessage ι)}
    (h : Traffic spaces ack ready opened acked inOrder targets messages delivered)
    (horder : inOrder) {i : ℕ} {name : TargetName ι} (hname : (names delivered)[i]? = some name) :
    ∃ op, targets[i]? = some op ∧ name = (⟨ready, i⟩, op.1.regionInstance) := by
  have hlt := (List.getElem?_eq_some_iff.mp hname).1
  have heq := congrArg (·[i]?) (h.names_eq horder)
  simp only [List.getElem?_append_left hlt, hname, targetNames, List.getElem?_mapIdx] at heq
  obtain ⟨op, hop, hname'⟩ := Option.map_eq_some_iff.mp heq.symm
  exact ⟨op, hop, hname'.symm⟩

/-- Copy `i` is between the `i`-th operations of both sides. -/
theorem CrossInv.inOrderCopy {first : Option (ReshardOp ε ι)}
    {source target : PointToPointReshard ε ι}
    (h : CrossInv spaces first sources targets ack ready acked inOrder state.delivered source target
      state.runtime)
    (hne : ack ≠ ready) (horder : inOrder) (hsources : state.sourceOps = answers copyEvent sources)
    (htargets : state.targetOps = answers (ackEvent ack) targets) {i : ℕ} {copy : Copy ε ι}
    (hcopy : state.runtime.copies[i]? = some copy) : InOrderCopy state ack ready i copy := by
  obtain ⟨sourceOp, name, hsource, hname, hpairs, -⟩ := h.sourceSide.getElem?_copies hcopy
  obtain ⟨targetOp, htarget, rfl⟩ := h.traffic.getElem?_names horder hname
  constructor
  · rw [h.arrivedOn_ack hne, if_pos (List.getElem?_eq_some_iff.mp hcopy).1]
    rfl
  · have hready : arrivedOn state.runtime ⟨ready, i⟩ = [targetOp.1.precondition] := by
      rw [h.arrivedOn_ready hne, htarget]
      rfl
    exact ⟨(sourceOp.1, _), (targetOp.1, _), hsources ▸ answers_getElem? _ hsource,
      htargets ▸ answers_getElem? _ htarget, hpairs.srcInstance, hpairs.dstInstance,
      hpairs.precondition, hready⟩

/-- The events given to the operations of a key in order. -/
theorem CrossInv.orderedWaits {first : Option (ReshardOp ε ι)}
    {source target : PointToPointReshard ε ι}
    (h : CrossInv spaces first sources targets ack ready acked inOrder state.delivered source target
      state.runtime)
    (hne : ack ≠ ready) (horder : inOrder) (hsources : state.sourceOps = answers copyEvent sources)
    (htargets : state.targetOps = answers (ackEvent ack) targets)
    {outside : ε → Signal ε → Prop}
    (hbelow : ∀ (k : ℕ) answer, state.IsOp k answer →
      ∀ s ∈ answer.1.precondition, WaitsBelow outside state k s) :
    OrderedWaits outside state ack ready where
  given := by
    rintro k answer (hop | hop) i hk s hs
    · rw [hsources] at hop
      obtain ⟨op, hserved, rfl⟩ := getElem?_answers hop
      exact early_of_givenBy (h.userEvents.givenBy_source hserved) ⟨k, hk, Or.inl rfl⟩ hs
    · exact early_of_givenBy (h.target_given htargets hop) ⟨k, hk, Or.inr rfl⟩ hs
  below := hbelow
  arrived_ack := by
    intro gen event hevent
    rw [h.arrivedOn_ack hne] at hevent
    split at hevent
    · exact List.mem_singleton.mp hevent
    · exact absurd hevent List.not_mem_nil
  arrived_ready := by
    intro gen event hevent
    rw [h.arrivedOn_ready hne, List.mem_map] at hevent
    obtain ⟨op, hop, rfl⟩ := hevent
    have hanswer : state.targetOps[gen]? = some (op.1, _) :=
      htargets ▸ answers_getElem? _ (Option.mem_toList.mp hop)
    exact ⟨_, Or.inr hanswer, rfl⟩
  copied := by
    intro k copy hcopy
    obtain ⟨source, -, hsource, -, -, -, hpre, -⟩ :=
      (h.inOrderCopy hne horder hsources htargets hcopy).paired
    exact ⟨source, Or.inl hsource, hpre⟩

theorem CrossState.pairsInOrder (h : CrossState spaces inOrder state) (horder : inOrder) :
    PairsInOrder spaces state := by
  obtain ⟨sources, targets, ack, ready, acked, hne, hsources, htargets, hinv⟩ := h.separate
  refine ⟨ack, ready, fun i copy ↦ hinv.inOrderCopy hne horder hsources htargets,
    fun i target ↦ hinv.target_given htargets, ?_⟩
  intro outside hbelow i j target hij htarget s hs hwaits
  have hordered := hinv.orderedWaits hne horder hsources htargets hbelow
  have hearly (s' : Signal ε)
      (hwaits : Relation.ReflTransGen (WaitsFor outside state.runtime) s s') :
      Early outside state ack ready i s' := by
    induction hwaits with
    | refl => exact hordered.given i target (Or.inr htarget) i le_rfl s hs
    | tail _ hstep ih => exact hordered.waitsFor ih hstep
  exact absurd (hearly _ hwaits).2 (Nat.not_le_of_lt hij)

/-- When the first operation of either side can name its reshard and all names
are delivered in order, operations of both sides are paired in program order. -/
theorem run_pairsInOrder (spaces : KeySpaces) (hne : spaces.source ≠ spaces.target)
    (actions : List (KeyAction ε ι)) (hnamed : FirstNamed spaces actions)
    (horder : RunInOrder spaces {} actions) :
    ∃ state, KeyState.run spaces {} actions = .ok state ∧ Logged spaces actions state ∧
      PairsInOrder spaces state := by
  obtain ⟨state, hrun, hstate⟩ := crossState_init.run hne (namedFrom_init.mpr hnamed)
  exact ⟨state, hrun, KeyState.logged_of_run hrun, hstate.pairsInOrder ⟨trivial, horder⟩⟩

end InOrder

theorem run_pairsInOrder_targetsFirst :
    ∃ state, KeyState.run ⟨0, 1⟩ {} [.target (tileOp 0 10), .target (tileOp 1 11), .deliver 0,
      .source (tileOp 2 20), .deliver 0] = .ok state ∧
      Logged ⟨0, 1⟩ [.target (tileOp 0 10), .target (tileOp 1 11), .deliver 0,
        .source (tileOp 2 20), .deliver 0] state ∧ PairsInOrder ⟨0, 1⟩ state :=
  run_pairsInOrder ⟨0, 1⟩ (by decide) _ (by decide) (by decide)

/-- The second name is delivered before the first one: the first copy writes
the instance of the second target operation. -/
theorem not_pairsInOrder_overtaken :
    ∃ state, KeyState.run ⟨0, 1⟩ {} [.target (tileOp 0 10), .target (tileOp 1 11), .deliver 1,
      .source (tileOp 2 20)] = .ok state ∧ ¬PairsInOrder ⟨0, 1⟩ state := by
  refine ⟨_, rfl, ?_⟩
  rintro ⟨ack, ready, hcopies, -⟩
  obtain ⟨source, target, -, htarget, -, hdst, -⟩ := (hcopies 0 _ rfl).paired
  obtain rfl : (tileOp 0 10, {.userEvent 0}) = target := Option.some.inj htarget
  exact absurd hdst (by decide)

end Zuku
