import Zuku.ControlReplication

/-!
# The order of the uses on one processor

On every processor a task or a copy that uses a store waits for the tasks and
copies before it that use the store, unless both only read it.  The copies inside
a broadcast tree wait for the copy into their source.
-/

namespace Zuku

open Event EventPrecondition EventImplication Checked

variable {κ α σ ε : Type} [DecidableEq κ] [DecidableEq ε]

/-! ## Registered uses -/

namespace Arrays

/-- The users of a store that have been registered with this access. -/
def registeredAs (arrays : Arrays κ ε) : Access → κ → Event (ArraySignal ε)
  | .read => arrays.readers
  | .write => arrays.writers

/-- What a use with this access must not overtake. -/
def conflicting (arrays : Arrays κ ε) (access : Access) (s : κ) : Event (ArraySignal ε) :=
  match access with
  | .read => arrays.writers s
  | .write => arrays.writers s ∪ arrays.readers s

omit [DecidableEq κ] in
theorem registeredAs_subset_conflicting (arrays : Arrays κ ε) {access access' : Access}
    (h : access = .write ∨ access' = .write) (s : κ) :
    arrays.registeredAs access s ⊆ arrays.conflicting access' s := by
  cases access <;> cases access'
  · simp at h
  · exact Finset.subset_union_right
  · exact Finset.Subset.refl _
  · exact Finset.subset_union_left

/-- Nothing that is known of the arrays is forgotten. -/
structure Grows (arrays arrays' : Arrays κ ε) : Prop where
  orders_subset : arrays.runtime.orders ⊆ arrays'.runtime.orders
  done_eq : arrays'.done = arrays.done
  value_eq : ∀ s, (arrays'.stores s).value = (arrays.stores s).value
  registeredAs_subset : ∀ access s, arrays.registeredAs access s ⊆ arrays'.registeredAs access s
  registered : arrays.Registered → arrays'.Registered

namespace Grows

variable {arrays arrays' arrays'' : Arrays κ ε}

omit [DecidableEq κ] in
theorem refl (arrays : Arrays κ ε) : Grows arrays arrays :=
  ⟨List.Subset.refl _, rfl, fun _ ↦ rfl, fun _ _ ↦ Finset.Subset.refl _, id⟩

omit [DecidableEq κ] in
theorem trans (h : Grows arrays arrays') (h' : Grows arrays' arrays'') :
    Grows arrays arrays'' where
  orders_subset := List.Subset.trans h.orders_subset h'.orders_subset
  done_eq := h'.done_eq.trans h.done_eq
  value_eq s := (h'.value_eq s).trans (h.value_eq s)
  registeredAs_subset access s :=
    (h.registeredAs_subset access s).trans (h'.registeredAs_subset access s)
  registered hregistered := h'.registered (h.registered hregistered)

omit [DecidableEq κ] in
theorem conflicting_subset (h : Grows arrays arrays') (access : Access) (s : κ) :
    arrays.conflicting access s ⊆ arrays'.conflicting access s := by
  cases access with
  | read => exact h.registeredAs_subset .write s
  | write =>
      exact Finset.union_subset_union (h.registeredAs_subset .write s)
        (h.registeredAs_subset .read s)

omit [DecidableEq κ] in
theorem implies (h : Grows arrays arrays') {event other : Event (ArraySignal ε)}
    (himplies : Implies arrays.runtime.orders arrays.done event other) :
    Implies arrays'.runtime.orders arrays'.done event other := by
  apply himplies.mono h.orders_subset
  rw [h.done_eq]

end Grows

omit [DecidableEq κ] in
/-- A store knows what its users must not overtake. -/
theorem Registered.implies_conflicting {arrays : Arrays κ ε} (h : arrays.Registered) (s : κ) :
    Implies arrays.runtime.orders arrays.done (effectsOf (arrays.stores s).childRwEvent)
        (arrays.conflicting .read s) ∧
      Implies arrays.runtime.orders arrays.done (arrays.stores s).precondition
        (arrays.conflicting .write s) := by
  refine ⟨h.writers s, Implies.union ?_ (h.readers s)⟩
  rw [Store.precondition_eq]
  exact (Implies.of_subset Finset.subset_union_right).trans (h.writers s)

/-! ## Tasks -/

section Tasks

variable (arrays : Arrays κ ε) (stream effects : Event (ArraySignal ε))

theorem value_toTaskArgument (store : κ) (access : Access) (s : κ) :
    ((arrays.toTaskArgument stream effects store access).2.stores s).value =
      (arrays.stores s).value := by
  rw [stores_toTaskArgument]
  by_cases hs : s = store
  · subst hs
    rw [Function.update_self]
    cases access <;> rfl
  · rw [Function.update_of_ne hs]

theorem grows_toTaskArgument (store : κ) (access : Access) :
    Grows arrays (arrays.toTaskArgument stream effects store access).2 ∧ effects ⊆
      (arrays.toTaskArgument stream effects store access).2.registeredAs access store := by
  cases access with
  | write =>
      refine ⟨⟨List.subset_append_left _ _, rfl, fun s ↦ ?_, fun access s ↦ ?_, fun h ↦ ?_⟩, ?_⟩
      · exact arrays.value_toTaskArgument stream effects store .write s
      · cases access with
        | read => exact Finset.Subset.refl _
        | write =>
            by_cases hs : s = store
            · subst hs
              simp [registeredAs, Arrays.toTaskArgument, Arrays.write]
            · simp [registeredAs, Arrays.toTaskArgument, Arrays.write, hs]
      · exact h.write ((arrays.stores store).effectsOf_childRwEvent_readyAfter stream effects)
      · simp [registeredAs, Arrays.toTaskArgument, Arrays.write]
  | read =>
      refine ⟨⟨List.Subset.refl _, rfl, fun s ↦ ?_, fun access s ↦ ?_, fun h ↦ ?_⟩, ?_⟩
      · exact arrays.value_toTaskArgument stream effects store .read s
      · cases access with
        | write => exact Finset.Subset.refl _
        | read =>
            by_cases hs : s = store
            · subst hs
              simp [registeredAs, Arrays.toTaskArgument, Arrays.read]
            · simp [registeredAs, Arrays.toTaskArgument, Arrays.read, hs]
      · exact h.read rfl ((arrays.stores store).precondition_addReader stream effects)
      · simp [registeredAs, Arrays.toTaskArgument, Arrays.read]

theorem implies_toTaskArgument {arrays : Arrays κ ε} (h : arrays.Registered)
    (stream effects : Event (ArraySignal ε)) (store : κ) (access : Access) :
    Implies arrays.runtime.orders arrays.done
      (arrays.toTaskArgument stream effects store access).1.effectsPrecondition
      (arrays.conflicting access store) := by
  cases access with
  | read => exact (h.implies_conflicting store).1
  | write => exact (h.implies_conflicting store).2

/-- Every argument is registered, and one of them waits for what the use of its
store must not overtake. -/
structure Maps (uses : List (κ × Access))
    (arguments : List (StoredArgument (ArraySignal ε) ShardedArray))
    (effects : Event (ArraySignal ε)) (arrays arrays' : Arrays κ ε) : Prop where
  grows : Grows arrays arrays'
  registers : ∀ s access, (s, access) ∈ uses → effects ⊆ arrays'.registeredAs access s
  waits : arrays.Registered → ∀ s access, (s, access) ∈ uses → ∃ argument ∈ arguments,
    Implies arrays'.runtime.orders arrays'.done argument.effectsPrecondition
      (arrays.conflicting access s)

theorem maps_storeArgs (uses : List (κ × Access)) :
    Maps uses (arrays.storeArgsAndSetPostcondition stream effects uses).1 effects arrays
      (arrays.storeArgsAndSetPostcondition stream effects uses).2 := by
  induction uses generalizing arrays with
  | nil => exact ⟨Grows.refl arrays, by simp, by simp⟩
  | cons use uses ih =>
      obtain ⟨store, access⟩ := use
      obtain ⟨hgrows, heffects⟩ := arrays.grows_toTaskArgument stream effects store access
      have hrest := ih (arrays.toTaskArgument stream effects store access).2
      rw [Arrays.storeArgsAndSetPostcondition]
      refine ⟨hgrows.trans hrest.grows, ?_, ?_⟩
      · intro s access' hs
        rcases List.mem_cons.mp hs with heq | hs
        · obtain ⟨rfl, rfl⟩ := Prod.mk.inj heq
          exact heffects.trans (hrest.grows.registeredAs_subset _ _)
        · exact hrest.registers s access' hs
      · intro hregistered s access' hs
        rcases List.mem_cons.mp hs with heq | hs
        · obtain ⟨rfl, rfl⟩ := Prod.mk.inj heq
          refine ⟨_, List.mem_cons_self, ?_⟩
          exact (hgrows.trans hrest.grows).implies
            (implies_toTaskArgument hregistered stream effects s access')
        · obtain ⟨argument, hargument, hwaits⟩ :=
            hrest.waits (hgrows.registered hregistered) s access' hs
          refine ⟨argument, List.mem_cons_of_mem _ hargument, hwaits.trans ?_⟩
          exact .of_subset (hgrows.conflicting_subset access' s)

end Tasks

end Arrays

/-! ## One command -/

/-- A use of a store by a task or a copy of a processor. -/
structure StoreUse (κ ε : Type) where
  store : κ
  access : Access
  signal : ArraySignal ε
  precondition : Event (ArraySignal ε)

/-- The uses of the stores of a processor by what it has launched. -/
inductive UsedBy (p : Processor) (position : ℕ) :
    Command κ α σ ε → Launch κ (Completion ε) → StoreUse κ (Completion ε) → Prop where
  | argument {devices : DeviceList} {call : Processor → Call κ (List ℤ → α) σ ε}
      {precondition : Event (ArraySignal (Completion ε))} {s : κ} {access : Access} :
      (s, access) ∈ (call p).uses → UsedBy p position (.across devices call) (.task precondition)
        ⟨s, access, .external (.task position), precondition⟩
  | send {src dst : κ} {state : ReshardState (Completion ε)} {copy : IssuedCall (Completion ε)} :
      copy ∈ state.sends → UsedBy p position (.reshard src dst) (.reshard src dst state)
        ⟨src, .read, copy.copy, copy.precondition⟩
  | forward {src dst : κ} {state : ReshardState (Completion ε)}
      {copy : IssuedCall (Completion ε)} :
      copy ∈ state.forwards → UsedBy p position (.reshard src dst) (.reshard src dst state)
        ⟨dst, .read, copy.copy, copy.precondition⟩
  | receive {src dst : κ} {state : ReshardState (Completion ε)}
      {copy : IssuedCall (Completion ε)} :
      copy ∈ state.receives → UsedBy p position (.reshard src dst) (.reshard src dst state)
        ⟨dst, .write, copy.copy, copy.precondition⟩

/-- What a processor has done for one command. -/
structure Launches (p : Processor) (position : ℕ) (command : Command κ α σ ε)
    (launch : Launch κ (Completion ε)) (arrays arrays' : Arrays κ (Completion ε)) : Prop where
  grows : arrays.Grows arrays'
  registers : ∀ use, UsedBy p position command launch use →
    use.signal ∈ arrays'.registeredAs use.access use.store
  waits : arrays.Registered → ∀ use, UsedBy p position command launch use →
    Implies arrays'.runtime.orders arrays'.done use.precondition
      (arrays.conflicting use.access use.store)
  feeds : arrays.Registered → ∀ src dst state, launch = .reshard src dst state →
    ∀ forward ∈ state.forwards, ∀ copy ∈ state.receives,
      Implies arrays'.runtime.orders arrays'.done forward.precondition {copy.copy}
  sides : ∀ src dst state, launch = .reshard src dst state →
    (∀ copy ∈ state.sends, copy.call.withinTarget = false) ∧
      ∀ copy ∈ state.forwards, copy.call.withinTarget = true

section Commands

variable {p : Processor} {position : ℕ} {arrays arrays' : Arrays κ (Completion ε)}

theorem launches_task {devices : DeviceList} {call : Processor → Call κ (List ℤ → α) σ ε}
    (hstream : (call p).context.streamOrdered = none)
    {precondition : Event (ArraySignal (Completion ε))}
    (h : arrays.defer (call p).context.ofTasks (call p).uses {.external (.task position)} =
      (precondition, arrays')) :
    Launches p position (.across devices call) (.task precondition) arrays arrays' := by
  obtain ⟨hprecondition, rfl⟩ := Prod.mk.inj h
  have hmaps := arrays.maps_storeArgs (getStreamOrderedEvent (call p).context.ofTasks
    {.external (.task position)}) {.external (.task position)} (call p).uses
  have hstream' : (call p).context.ofTasks.streamOrdered = none := by
    rw [DeferContext.ofTasks, hstream]
    rfl
  set mapped := arrays.storeArgsAndSetPostcondition (getStreamOrderedEvent
    (call p).context.ofTasks {.external (.task position)}) {.external (.task position)}
    (call p).uses
  have hlast : mapped.2.Grows { mapped.2 with
      runtime.orders := mapped.2.runtime.orders ++ [({.external (.task position)},
        startPrecondition (call p).context.ofTasks (mergePreconditions
          (addTaskDependencies (call p).context.ofTasks mapped.1)))] } := by
    refine ⟨List.subset_append_left _ _, rfl, fun _ ↦ rfl, fun access _ ↦ ?_, fun h ↦ ?_⟩
    · cases access <;> exact Finset.Subset.refl _
    · constructor
      · exact fun s ↦ (h.writers s).mono (List.subset_append_left _ _) (Finset.Subset.refl _)
      · exact fun s ↦ (h.readers s).mono (List.subset_append_left _ _) (Finset.Subset.refl _)
  constructor
  · exact hmaps.grows.trans hlast
  · intro use huse
    cases huse with
    | argument hs =>
        apply hlast.registeredAs_subset
        exact hmaps.registers _ _ hs (Finset.mem_singleton_self _)
  · intro hregistered use huse
    cases huse with
    | argument hs =>
        obtain ⟨argument, hargument, hwaits⟩ := hmaps.waits hregistered _ _ hs
        refine Implies.trans (.of_subset ?_) (hlast.implies hwaits)
        rw [← hprecondition]
        exact fun _ hc ↦ mem_startPrecondition hstream' hargument hc
  · intro _ src dst state hstate
    cases hstate
  · intro src dst state hstate
    cases hstate

theorem launches_reshard [RealmBuild] {answers : ManagerAnswers (Completion ε)} {src dst : κ}
    {state : ReshardState (Completion ε)}
    (h : arrays.reshard p answers src dst = .ok (state, arrays')) :
    Launches p position (.reshard src dst : Command κ α σ ε) (.reshard src dst state) arrays
      arrays' := by
  have hafter := Arrays.afterReshard h
  obtain ⟨state', hstate, h⟩ := bind_eq_ok_iff.mp h
  obtain ⟨rfl, harrays⟩ := Prod.mk.inj (Except.ok.inj h)
  have hhandover := handover_of_eq_ok hstate
  have hmem {copies' : List (IssuedCall (Completion ε))} {copy : IssuedCall (Completion ε)}
      (hcopy : copy ∈ copies') : copy.copy ∈ copies copies' :=
    List.mem_toFinset.mpr (List.mem_map_of_mem hcopy)
  have hreaders : arrays'.readers = Function.update (Function.update arrays.readers src
      (arrays.readers src ∪ copies state'.sends)) dst ((Function.update arrays.readers src
        (arrays.readers src ∪ copies state'.sends)) dst ∪ copies state'.forwards) := by
    rw [← harrays]
  have hgrows : arrays.Grows arrays' := by
    constructor
    · rw [hafter.runtime_eq]
      exact hafter.orders_subset
    · exact hafter.done_eq
    · intro s
      have hviewed (s : κ) : (arrays.viewed src s).value = (arrays.stores s).value := by
        by_cases hs : s = src
        · rw [hs, Arrays.viewed, Function.update_self]
          rfl
        · rw [Arrays.viewed, Function.update_of_ne hs]
      rw [hafter.stores_eq, ← hviewed s]
      by_cases hs : s = dst
      · rw [hs, Function.update_self]
        exact hhandover.value_eq
      · rw [Function.update_of_ne hs]
    · intro access s
      cases access with
      | read =>
          rw [Arrays.registeredAs, Arrays.registeredAs, hreaders]
          intro c hc
          by_cases hdst : s = dst <;> by_cases hsrc : s = src <;>
            simp_all [Function.update_apply]
      | write =>
          rw [Arrays.registeredAs, Arrays.registeredAs, hafter.writers_eq]
          intro c hc
          by_cases hdst : s = dst <;> simp_all [Function.update_apply]
    · exact hafter.registered
  have hdst : arrays'.stores dst = state'.dst := by
    rw [hafter.stores_eq, Function.update_self]
  have hwriters : arrays'.writers dst = arrays.writers dst ∪ copies state'.receives := by
    rw [hafter.writers_eq, Function.update_self]
  constructor
  · exact hgrows
  · intro use huse
    cases huse with
    | send hcopy =>
        have hsent := hmem hcopy
        rw [Arrays.registeredAs, hreaders]
        by_cases hs : src = dst <;> simp_all [Function.update_apply]
    | forward hcopy =>
        have hforward := hmem hcopy
        rw [Arrays.registeredAs, hreaders, Function.update_self]
        exact Finset.mem_union_right _ hforward
    | receive hcopy =>
        rw [Arrays.registeredAs, hwriters]
        exact Finset.mem_union_right _ (hmem hcopy)
  · intro hregistered use huse
    cases huse with
    | send hcopy =>
        rw [(hhandover.sends _ hcopy).1]
        exact hgrows.implies (hregistered.implies_conflicting src).1
    | forward hcopy =>
        rw [(hhandover.forwards _ hcopy).1, ← hdst]
        apply ((hgrows.registered hregistered).implies_conflicting dst).1.trans
        exact .of_subset (hgrows.conflicting_subset .read dst)
    | receive hcopy =>
        rw [hhandover.receives _ hcopy]
        apply Implies.trans (.of_subset (arrays.precondition_subset_viewed src dst))
        exact hgrows.implies (hregistered.implies_conflicting dst).2
  · rintro hregistered _ _ _ ⟨⟩ forward hforward copy hcopy
    rw [(hhandover.forwards _ hforward).1, ← hdst]
    apply ((hgrows.registered hregistered).writers dst).trans
    rw [hwriters]
    exact .of_subset (Finset.singleton_subset_iff.mpr (Finset.mem_union_right _ (hmem hcopy)))
  · rintro _ _ _ ⟨⟩
    exact ⟨fun copy hcopy ↦ (hhandover.sends copy hcopy).2,
      fun copy hcopy ↦ (hhandover.forwards copy hcopy).2⟩

theorem launches_of_eq_ok [RealmBuild] {answers : ManagerAnswers (Completion ε)}
    {command : Command κ α σ ε} {launch : Launch κ (Completion ε)}
    (hstream : ∀ devices call, command = .across devices call →
      (call p).context.streamOrdered = none)
    (h : command.launch p answers position arrays = .ok (launch, arrays')) :
    Launches p position command launch arrays arrays' := by
  cases command with
  | across devices call =>
      rw [Command.launch] at h
      split at h
      · obtain ⟨rfl, rfl⟩ := Prod.mk.inj (Except.ok.inj h)
        exact launches_task (hstream devices call rfl) rfl
      · obtain ⟨rfl, rfl⟩ := Prod.mk.inj (Except.ok.inj h)
        refine ⟨Arrays.Grows.refl arrays, ?_, ?_, ?_, ?_⟩
        · rintro use ⟨⟩
        · rintro - use ⟨⟩
        · rintro - _ _ _ ⟨⟩
        · rintro _ _ _ ⟨⟩
  | reshard src dst =>
      obtain ⟨⟨state, next⟩, hreshard, hnext⟩ := bind_eq_ok_iff.mp h
      obtain ⟨rfl, rfl⟩ := Prod.mk.inj (Except.ok.inj hnext)
      exact launches_reshard hreshard

end Commands

/-! ## All commands -/

/-- The tasks are not ordered by streams. -/
def ReplicatedProgram.StreamFree (program : ReplicatedProgram κ α σ ε) : Prop :=
  ∀ devices call, .across devices call ∈ program.commands →
    ∀ p, (call p).context.streamOrdered = none

namespace ReplicatedRun

variable [RealmBuild] {program : ReplicatedProgram κ α σ ε} (run : ReplicatedRun program)
  (hstream : program.StreamFree) {id : ℕ} (hid : id < program.machine.numProcessors)

include hstream hid

theorem launches {i : ℕ} {command : Command κ α σ ε} (hi : program.commands[i]? = some command) :
    Launches (program.machine.processor id) i command (run.launch id i) (run.arrays id i)
      (run.arrays id (i + 1)) := by
  apply launches_of_eq_ok _ (run.step id hid i command hi)
  rintro devices call rfl
  exact hstream devices call (List.mem_of_getElem? hi) _

theorem grows {i j : ℕ} (hij : i ≤ j) (hj : j ≤ program.commands.length) :
    (run.arrays id i).Grows (run.arrays id j) := by
  induction j, hij using Nat.le_induction with
  | base => exact Arrays.Grows.refl _
  | succ j _ ih =>
      have hcommand := List.getElem?_eq_getElem (Nat.lt_of_succ_le hj)
      exact (ih (Nat.le_of_succ_le hj)).trans (run.launches hstream hid hcommand).grows

theorem registered {i : ℕ} (hi : i ≤ program.commands.length) :
    (run.arrays id i).Registered := by
  apply (run.grows hstream hid (Nat.zero_le i) hi).registered
  rw [run.start id hid]
  exact Arrays.Registered.init _ _

theorem done_eq {i : ℕ} (hi : i ≤ program.commands.length) : (run.arrays id i).done = ∅ := by
  rw [(run.grows hstream hid (Nat.zero_le i) hi).done_eq, run.start id hid]
  rfl

theorem value_eq {i : ℕ} (hi : i ≤ program.commands.length) (s : κ) :
    ((run.arrays id i).stores s).value = some (program.array s) := by
  rw [(run.grows hstream hid (Nat.zero_le i) hi).value_eq, run.start id hid, Arrays.init]
  simp only
  split <;> rfl

/-- What the arrays of a processor imply holds of the completions that can have
triggered together. -/
theorem subset_of_implies {i : ℕ} (hi : i ≤ program.commands.length)
    {event other : Event (ArraySignal (Completion ε))}
    (h : Implies (run.arrays id i).runtime.orders (run.arrays id i).done event other)
    {triggered : Set (GlobalSignal ε)} (hpossible : run.Possible triggered)
    (hevent : GlobalSignal.ofLocal id '' event ⊆ triggered) :
    GlobalSignal.ofLocal id '' other ⊆ triggered := by
  have himplies := (run.grows hstream hid hi le_rfl).implies h
  have hdone := run.done_eq hstream hid (le_refl program.commands.length)
  rintro _ ⟨a, ha, rfl⟩
  apply (himplies a ha).mem_world (hpossible id hid)
  · simp [hdone]
  · exact fun b hb ↦ hevent ⟨b, hb, rfl⟩

/-- A use waits for the earlier ones that it must not overtake. -/
theorem ordered {i j : ℕ} (hij : i < j) {command command' : Command κ α σ ε}
    (hi : program.commands[i]? = some command) (hj : program.commands[j]? = some command')
    {use use' : StoreUse κ (Completion ε)}
    (huse : UsedBy (program.machine.processor id) i command (run.launch id i) use)
    (huse' : UsedBy (program.machine.processor id) j command' (run.launch id j) use')
    (hstore : use.store = use'.store) (hwrite : use.access = .write ∨ use'.access = .write)
    {triggered : Set (GlobalSignal ε)} (hpossible : run.Possible triggered)
    (hwaits : GlobalSignal.ofLocal id '' use'.precondition ⊆ triggered) :
    GlobalSignal.ofLocal id use.signal ∈ triggered := by
  have hlt : j < program.commands.length := (List.getElem?_eq_some_iff.mp hj).1
  have hregistered := (run.launches hstream hid hi).registers use huse
  have hconflict : use.signal ∈ (run.arrays id j).conflicting use'.access use'.store := by
    rw [← hstore]
    apply Arrays.registeredAs_subset_conflicting _ hwrite
    exact (run.grows hstream hid hij hlt.le).registeredAs_subset _ _ hregistered
  have himplies := (run.launches hstream hid hj).waits (run.registered hstream hid hlt.le)
    use' huse'
  exact run.subset_of_implies hstream hid hlt himplies hpossible hwaits
    ⟨use.signal, hconflict, rfl⟩

/-- A copy inside a broadcast tree waits for the copies into its source. -/
theorem fed {i : ℕ} {src dst : κ} {state : ReshardState (Completion ε)}
    (hi : program.commands[i]? = some (.reshard src dst))
    (hlaunch : run.launch id i = .reshard src dst state) {forward copy : IssuedCall (Completion ε)}
    (hforward : forward ∈ state.forwards) (hcopy : copy ∈ state.receives)
    {triggered : Set (GlobalSignal ε)} (hpossible : run.Possible triggered)
    (hwaits : GlobalSignal.ofLocal id '' forward.precondition ⊆ triggered) :
    GlobalSignal.ofLocal id copy.copy ∈ triggered := by
  have hlt : i < program.commands.length := (List.getElem?_eq_some_iff.mp hi).1
  have himplies := (run.launches hstream hid hi).feeds (run.registered hstream hid hlt.le) src dst
    state hlaunch forward hforward copy hcopy
  exact run.subset_of_implies hstream hid hlt himplies hpossible hwaits
    ⟨copy.copy, by simp, rfl⟩

end ReplicatedRun

end Zuku
