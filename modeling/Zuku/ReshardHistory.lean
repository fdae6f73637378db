import Zuku.ReshardHazards
import Zuku.Library.StepRuns

/-!
# Resharding after any history of the stores

Every writer that was registered on a store is implied by the event that its
readers wait for, and every reader by the one that its writers wait for.  All
operations on stores keep this, and so resharding finds it.
-/

namespace Zuku

open Event EventPrecondition EventImplication Checked

variable {κ ε : Type} [DecidableEq κ] [DecidableEq ε]

namespace Arrays

/-- In every state of the completions, when the first event has triggered the
other one has. -/
def ComesAfter (arrays : Arrays κ ε) (event other : Event (ArraySignal ε)) : Prop :=
  ∀ triggered, Respects arrays.runtime.orders triggered → arrays.done ⊆ triggered →
    event ⊆ triggered → other ⊆ triggered

/-- What readers and writers of a store wait for. -/
structure Registered (arrays : Arrays κ ε) : Prop where
  writers : ∀ s, Implies arrays.runtime.orders arrays.done
    (effectsOf (arrays.stores s).childRwEvent) (arrays.writers s)
  readers : ∀ s, Implies arrays.runtime.orders arrays.done
    (arrays.stores s).precondition (arrays.readers s)

omit [DecidableEq κ] [DecidableEq ε] in
theorem comesAfter_of_implies {arrays : Arrays κ ε} {event other : Event (ArraySignal ε)}
    (h : Implies arrays.runtime.orders arrays.done event other) :
    arrays.ComesAfter event other :=
  fun _ hrespects hdone hevent ↦ h.sound hrespects hdone hevent

/-! ## The other operations -/

/-- Only the store of one place has changed. -/
structure ChangedAt (store : κ) (arrays arrays' : Arrays κ ε) : Prop where
  orders_subset : arrays.runtime.orders ⊆ arrays'.runtime.orders
  done_subset : arrays.done ⊆ arrays'.done
  stores_eq : ∀ s, s ≠ store → arrays'.stores s = arrays.stores s
  writers_eq : ∀ s, s ≠ store → arrays'.writers s = arrays.writers s
  readers_eq : ∀ s, s ≠ store → arrays'.readers s = arrays.readers s

namespace Registered

variable {arrays arrays' : Arrays κ ε} {store : κ} {store' : ArrayStore ε}
  {ev : Event (ArraySignal ε)}

omit [DecidableEq κ] in
theorem init (array : κ → ShardedArray) (createEvent : κ → Option (Event (ArraySignal ε))) :
    (Arrays.init array createEvent : Arrays κ ε).Registered where
  writers s := by
    apply Implies.of_subset
    cases hev : createEvent s with
    | none => simp [Arrays.init, hev]
    | some ev => simp [Arrays.init, hev, Store.deferredCreate]
  readers _ := .of_subset (Finset.empty_subset _)

omit [DecidableEq κ] in
/-- More user events change nothing. -/
theorem createUserEvent (h : arrays.Registered) :
    ({ arrays with runtime := arrays.runtime.createUserEvent.2 } : Arrays κ ε).Registered :=
  ⟨h.writers, h.readers⟩

/-- It is enough to look at the place that has changed. -/
theorem of_changedAt (h : arrays.Registered) (hchanged : ChangedAt store arrays arrays')
    (hwriters : Implies arrays'.runtime.orders arrays'.done
      (effectsOf (arrays'.stores store).childRwEvent) (arrays'.writers store))
    (hreaders : Implies arrays'.runtime.orders arrays'.done
      (arrays'.stores store).precondition (arrays'.readers store)) : arrays'.Registered := by
  constructor
  · intro s
    by_cases hs : s = store
    · rwa [hs]
    · rw [hchanged.stores_eq s hs, hchanged.writers_eq s hs]
      exact (h.writers s).mono hchanged.orders_subset hchanged.done_subset
  · intro s
    by_cases hs : s = store
    · rwa [hs]
    · rw [hchanged.stores_eq s hs, hchanged.readers_eq s hs]
      exact (h.readers s).mono hchanged.orders_subset hchanged.done_subset

/-- A writer comes after everything that the store had to wait for. -/
theorem write (h : arrays.Registered)
    (hrw : effectsOf store'.childRwEvent = ev ∪ effectsOf (arrays.stores store).childRwEvent) :
    (arrays.write store store' ev).Registered := by
  have hchanged : ChangedAt store arrays (arrays.write store store' ev) :=
    ⟨List.subset_append_left _ _, Finset.Subset.refl _, fun s hs ↦ Function.update_of_ne hs _ _,
      fun s hs ↦ Function.update_of_ne hs _ _, fun _ _ ↦ rfl⟩
  have hstore : (arrays.write store store' ev).stores store = store' := Function.update_self _ _ _
  have hev : ev ⊆ store'.precondition := by
    rw [Store.precondition_eq, hrw]
    exact Finset.subset_union_left.trans Finset.subset_union_right
  have hwriter : Implies (arrays.write store store' ev).runtime.orders arrays.done ev
      (arrays.stores store).precondition :=
    .of_mem (List.mem_append_right _ (List.mem_singleton_self _))
  apply h.of_changedAt hchanged
  · have hold := (h.writers store).mono hchanged.orders_subset hchanged.done_subset
    have hnew : (arrays.write store store' ev).writers store = arrays.writers store ∪ ev :=
      Function.update_self _ _ _
    rw [hstore, hnew, hrw]
    exact ((Implies.of_subset Finset.subset_union_right).trans hold).union
      (.of_subset Finset.subset_union_left)
  · rw [hstore]
    have hold := (h.readers store).mono hchanged.orders_subset hchanged.done_subset
    exact ((Implies.of_subset hev).trans hwriter).trans hold

/-- A reader leaves the writers alone. -/
theorem read (h : arrays.Registered)
    (hrw : store'.childRwEvent = (arrays.stores store).childRwEvent)
    (hpre : store'.precondition = (arrays.stores store).precondition ∪ ev) :
    (arrays.read store store' ev).Registered := by
  have hchanged : ChangedAt store arrays (arrays.read store store' ev) :=
    ⟨List.Subset.refl _, Finset.Subset.refl _, fun s hs ↦ Function.update_of_ne hs _ _,
      fun _ _ ↦ rfl, fun s hs ↦ Function.update_of_ne hs _ _⟩
  have hstore : (arrays.read store store' ev).stores store = store' := Function.update_self _ _ _
  apply h.of_changedAt hchanged
  · rw [hstore, hrw]
    exact h.writers store
  · have hnew : (arrays.read store store' ev).readers store = arrays.readers store ∪ ev :=
      Function.update_self _ _ _
    rw [hstore, hnew, hpre]
    exact ((Implies.of_subset Finset.subset_union_left).trans (h.readers store)).union
      (.of_subset Finset.subset_union_right)

/-- A child takes over the readers and writers of its parent. -/
theorem putChild {before : Arrays κ ε} {child : κ} {newChild : ArrayStore ε}
    (h : arrays.Registered) (hbefore : before.Registered)
    (horders : before.runtime.orders ⊆ arrays.runtime.orders) (hdone : before.done ⊆ arrays.done)
    (hrw : newChild.childRwEvent = (before.stores store).childRwEvent)
    (hpre : newChild.precondition = (before.stores store).precondition) :
    (arrays.putChild before store child newChild).Registered := by
  have hchanged : ChangedAt child arrays (arrays.putChild before store child newChild) :=
    ⟨List.Subset.refl _, Finset.Subset.refl _, fun s hs ↦ Function.update_of_ne hs _ _,
      fun s hs ↦ Function.update_of_ne hs _ _, fun s hs ↦ Function.update_of_ne hs _ _⟩
  apply h.of_changedAt hchanged
  · simp only [Arrays.putChild, Function.update_self]
    rw [hrw]
    exact (hbefore.writers store).mono horders hdone
  · simp only [Arrays.putChild, Function.update_self]
    rw [hpre]
    exact (hbefore.readers store).mono horders hdone

/-- What has been waited for is done. -/
theorem wait (h : arrays.Registered) (store : κ) :
    ({ arrays with
        stores := Function.update arrays.stores store (arrays.stores store).wait
        done := arrays.done ∪ (arrays.stores store).waitEvent } : Arrays κ ε).Registered := by
  have hdone : arrays.done ⊆ arrays.done ∪ (arrays.stores store).waitEvent :=
    Finset.subset_union_left
  have hwaited {event : Event (ArraySignal ε)} (event' : Event (ArraySignal ε))
      (hevent : event ⊆ (arrays.stores store).waitEvent) :
      Implies arrays.runtime.orders (arrays.done ∪ (arrays.stores store).waitEvent) event' event :=
    fun _ ha ↦ .done (Finset.mem_union_right _ (hevent ha))
  refine h.of_changedAt
    ⟨List.Subset.refl _, hdone, fun s hs ↦ Function.update_of_ne hs _ _, fun _ _ ↦ rfl,
      fun _ _ ↦ rfl⟩ ?_ ?_
  · have hrw : effectsOf (arrays.stores store).childRwEvent ⊆ (arrays.stores store).waitEvent :=
      Finset.subset_union_left
    exact (hwaited _ hrw).trans ((h.writers store).mono (List.Subset.refl _) hdone)
  · have hpre : (arrays.stores store).precondition ⊆ (arrays.stores store).waitEvent := by
      rw [Store.precondition_eq, Finset.union_comm]
      exact Finset.Subset.refl _
    exact (hwaited _ hpre).trans ((h.readers store).mono (List.Subset.refl _) hdone)

end Registered

/-! ## Resharding -/

/-- The stores once the source has given out a view under a reader event. -/
def viewed (arrays : Arrays κ ε) (src : κ) : κ → ArrayStore ε :=
  let reader := arrays.runtime.createUserEvent.1
  Function.update arrays.stores src ((arrays.stores src).addReader {reader} {reader})

section Viewed

variable (arrays : Arrays κ ε) (src s : κ)

theorem childRwEvent_viewed :
    (arrays.viewed src s).childRwEvent = (arrays.stores s).childRwEvent := by
  by_cases hs : s = src
  · rw [viewed, hs, Function.update_self, Store.childRwEvent_addReader]
  · rw [viewed, Function.update_of_ne hs]

theorem precondition_subset_viewed :
    (arrays.stores s).precondition ⊆ (arrays.viewed src s).precondition := by
  by_cases hs : s = src
  · rw [viewed, hs, Function.update_self, Store.precondition_addReader]
    exact Finset.subset_union_left
  · rw [viewed, Function.update_of_ne hs]

/-- Every writer waits for the reader event of the view. -/
theorem reader_subset_viewed (streamOrdered : Bool) :
    {arrays.runtime.createUserEvent.1} ⊆ (arrays.viewed src src).waitsFor streamOrdered .write := by
  rw [viewed, Function.update_self, waitsFor_addReader_write]
  exact Finset.subset_union_right

end Viewed

/-- What `Reshard` has done to all stores. -/
structure AfterReshard (arrays : Arrays κ ε) (src dst : κ) (state : ReshardState ε)
    (arrays' : Arrays κ ε) : Prop where
  done_eq : arrays'.done = arrays.done
  runtime_eq : arrays'.runtime = state.runtime
  orders_subset : arrays.runtime.orders ⊆ state.runtime.orders
  stores_eq : arrays'.stores = Function.update (arrays.viewed src) dst state.dst
  writers_eq : arrays'.writers =
    Function.update arrays.writers dst (arrays.writers dst ∪ copies state.receives)
  readers_subset : ∀ s, arrays'.readers s ⊆ arrays.readers s ∪
    ((if s = src then copies state.sends else ∅) ∪ if s = dst then copies state.forwards else ∅)
  send_waits : ∀ copy ∈ state.sends, Implies state.runtime.orders ∅ {copy.copy}
    (effectsOf (arrays.stores src).childRwEvent)
  send_read : ∀ copy ∈ state.sends,
    Implies state.runtime.orders ∅ {arrays.runtime.createUserEvent.1} {copy.copy}
  target : Target (arrays.viewed src dst) state

theorem afterReshard [RealmBuild] {p : Processor} {answers : ManagerAnswers ε}
    {arrays arrays' : Arrays κ ε} {src dst : κ} {state : ReshardState ε}
    (h : arrays.reshard p answers src dst = .ok (state, arrays')) :
    AfterReshard arrays src dst state arrays' := by
  obtain ⟨state', hstate, h⟩ := bind_eq_ok_iff.mp h
  obtain ⟨rfl, rfl⟩ := Prod.mk.inj (Except.ok.inj h)
  have hresharded := resharded_of_eq_ok hstate
  constructor
  · rfl
  · rfl
  · exact hresharded.orders_subset
  · rfl
  · rfl
  · intro s c hc
    simp only [Function.update_apply] at hc
    split_ifs at hc ⊢ <;> simp_all
  · exact hresharded.send_waits
  · exact hresharded.send_read _ rfl
  · exact hresharded.target

namespace AfterReshard

variable {arrays arrays' : Arrays κ ε} {src dst : κ} {state : ReshardState ε}

/-- The readers of a store afterwards wait for what its readers had to wait for. -/
theorem childRwEvent_subset (h : AfterReshard arrays src dst state arrays') (s : κ) :
    effectsOf (arrays.stores s).childRwEvent ⊆ effectsOf (arrays'.stores s).childRwEvent := by
  rw [h.stores_eq, ← arrays.childRwEvent_viewed src s]
  by_cases hs : s = dst
  · rw [hs, Function.update_self]
    exact h.target.writers
  · rw [Function.update_of_ne hs]

/-- So do the writers, in the order of a stream as well. -/
theorem implies_viewed (h : AfterReshard arrays src dst state arrays') (s : κ)
    (streamOrdered : Bool) {event : Event (ArraySignal ε)}
    (hevent : event ⊆ (arrays.viewed src s).precondition)
    (hwaits : event ⊆ (arrays.viewed src s).waitsFor streamOrdered .write) :
    Implies state.runtime.orders ∅ ((arrays'.stores s).waitsFor streamOrdered .write) event := by
  rw [h.stores_eq]
  by_cases hs : s = dst
  · subst hs
    rw [Function.update_self]
    exact h.target.covered streamOrdered event hevent hwaits
  · rw [Function.update_of_ne hs]
    exact .of_subset hwaits

/-- A copy out of the source is a reader. -/
theorem writer_waits_send (h : AfterReshard arrays src dst state arrays') (streamOrdered : Bool)
    {copy : IssuedCall ε} (hcopy : copy ∈ state.sends) :
    Implies state.runtime.orders ∅ ((arrays'.stores src).waitsFor streamOrdered .write)
      {copy.copy} := by
  have hevent := arrays.reader_subset_viewed src false
  rw [waitsFor_false_write] at hevent
  exact (h.implies_viewed src streamOrdered hevent
    (arrays.reader_subset_viewed src streamOrdered)).trans (h.send_read copy hcopy)

/-- Copies into the destination are writers. -/
theorem use_waits_receive (h : AfterReshard arrays src dst state arrays') (streamOrdered : Bool)
    (access : Access) {copy : IssuedCall ε} (hcopy : copy ∈ state.receives) :
    Implies state.runtime.orders ∅ ((arrays'.stores dst).waitsFor streamOrdered access)
      {copy.copy} := by
  rw [h.stores_eq, Function.update_self]
  have hwritten := h.target.receive_written copy hcopy streamOrdered
  cases access with
  | read => exact hwritten
  | write => exact (Implies.of_subset waitsFor_subset_write).trans hwritten

/-- Copies out of the destination are readers. -/
theorem writer_waits_forward (h : AfterReshard arrays src dst state arrays')
    (streamOrdered : Bool) {copy : IssuedCall ε} (hcopy : copy ∈ state.forwards) :
    Implies state.runtime.orders ∅ ((arrays'.stores dst).waitsFor streamOrdered .write)
      {copy.copy} := by
  rw [h.stores_eq, Function.update_self]
  exact h.target.forward_read copy hcopy streamOrdered

theorem implies_copies {orders : List (Event (ArraySignal ε) × Event (ArraySignal ε))}
    {done event : Event (ArraySignal ε)} {issued : List (IssuedCall ε)}
    (h : ∀ copy ∈ issued, Implies orders done event {copy.copy}) :
    Implies orders done event (copies issued) := by
  intro c hc
  obtain ⟨copy, hcopy, rfl⟩ := List.mem_map.mp (List.mem_toFinset.mp hc)
  exact h copy hcopy _ (Finset.mem_singleton_self _)

/-- Resharding registers its copies like other readers and writers. -/
theorem registered (h : AfterReshard arrays src dst state arrays') (hold : arrays.Registered) :
    arrays'.Registered := by
  have hmono {event other : Event (ArraySignal ε)}
      (himplies : Implies state.runtime.orders ∅ event other) :
      Implies arrays'.runtime.orders arrays'.done event other := by
    rw [h.runtime_eq]
    exact himplies.mono (List.Subset.refl _) (Finset.empty_subset _)
  have hkept {event other : Event (ArraySignal ε)}
      (himplies : Implies arrays.runtime.orders arrays.done event other) :
      Implies arrays'.runtime.orders arrays'.done event other := by
    rw [h.runtime_eq, h.done_eq]
    exact himplies.mono h.orders_subset (Finset.Subset.refl _)
  constructor
  · intro s
    have hwriters := (Implies.of_subset (h.childRwEvent_subset s)).trans (hkept (hold.writers s))
    rw [h.writers_eq]
    by_cases hs : s = dst
    · subst hs
      rw [Function.update_self]
      refine hwriters.union (hmono (implies_copies fun copy hcopy ↦ ?_))
      have hwaits := h.use_waits_receive false .read hcopy
      rwa [waitsFor_false_read] at hwaits
    · rwa [Function.update_of_ne hs]
  · intro s
    rw [← waitsFor_false_write]
    have hviewed : (arrays.stores s).precondition ⊆
        (arrays.viewed src s).waitsFor false .write := by
      rw [waitsFor_false_write]
      exact arrays.precondition_subset_viewed src s
    have hreaders := (hmono (h.implies_viewed s false
      (arrays.precondition_subset_viewed src s) hviewed)).trans (hkept (hold.readers s))
    apply Implies.trans _ (.of_subset (h.readers_subset s))
    refine hreaders.union (Implies.union ?_ ?_)
    · split
      · rename_i hs
        subst hs
        exact hmono (implies_copies fun _ hcopy ↦ h.writer_waits_send false hcopy)
      · exact .of_subset (Finset.empty_subset _)
    · split
      · rename_i hs
        subst hs
        exact hmono (implies_copies fun _ hcopy ↦ h.writer_waits_forward false hcopy)
      · exact .of_subset (Finset.empty_subset _)

end AfterReshard

/-! ## Histories -/

theorem Registered.step [RealmBuild] {answers : ManagerAnswers ε} {action : ArrayAction κ ε}
    {arrays arrays' : Arrays κ ε} (h : arrays.Registered)
    (hstep : arrays.step answers action = .ok arrays') : arrays'.Registered := by
  cases action with
  | childAfter store stream effects =>
      obtain rfl := Except.ok.inj hstep
      exact h.write ((arrays.stores store).effectsOf_childRwEvent_readyAfter stream effects)
  | child store child =>
      obtain rfl := Except.ok.inj hstep
      have hrw := (arrays.stores store).effectsOf_childRwEvent_readyAfter
        {arrays.runtime.createUserEvent.1} {arrays.runtime.createUserEvent.1}
      exact (h.createUserEvent.write hrw).putChild h (List.subset_append_left _ _)
        (Finset.Subset.refl _) rfl rfl
  | readyAfter store stream effects =>
      obtain rfl := Except.ok.inj hstep
      exact h.write ((arrays.stores store).effectsOf_childRwEvent_readyAfter stream effects)
  | viewAfter store stream effects =>
      obtain rfl := Except.ok.inj hstep
      exact h.read rfl ((arrays.stores store).precondition_addReader stream effects)
  | view store =>
      obtain rfl := Except.ok.inj hstep
      exact h.createUserEvent.read rfl ((arrays.stores store).precondition_addReader _ _)
  | wait store =>
      obtain rfl := Except.ok.inj hstep
      exact h.wait store
  | reshard p src dst =>
      obtain ⟨⟨state, next⟩, hreshard, hnext⟩ := bind_eq_ok_iff.mp hstep
      obtain rfl := Except.ok.inj hnext
      exact (afterReshard hreshard).registered h

theorem Registered.run [RealmBuild] {answers : ManagerAnswers ε} {actions : List (ArrayAction κ ε)}
    {arrays arrays' : Arrays κ ε} (h : arrays.Registered)
    (hrun : arrays.run answers actions = .ok arrays') : arrays'.Registered :=
  StepRuns.run_invariant (fun arrays action arrays' ↦ arrays.step answers action = .ok arrays')
    (fun arrays actions arrays' ↦ arrays.run answers actions = .ok arrays')
    (fun _ _ ↦ Except.ok.inj) (fun _ _ _ _ ↦ bind_eq_ok_iff.mp)
    (fun _ _ _ h hstep ↦ h.step hstep) h hrun

/-- What a task waits for that gets a child of the store. -/
def nextWriter (arrays : Arrays κ ε) (store : κ) : Event (ArraySignal ε) :=
  ((arrays.stores store).newChild none).effectsPrecondition

/-- What a task waits for that gets a view of the store. -/
def nextReader (arrays : Arrays κ ε) (store : κ) : Event (ArraySignal ε) :=
  (arrays.stores store).unsafeView.effectsPrecondition

/-- The hazards of a reshard: its copies come after the readers and writers
that were registered before, and the readers and writers that follow come after
its copies. -/
structure RespectsHazards (before : Arrays κ ε) (src dst : κ) (state : ReshardState ε)
    (after : Arrays κ ε) : Prop where
  send_after_writers : ∀ copy ∈ state.sends, after.ComesAfter {copy.copy} (before.writers src)
  receive_after_readers : ∀ copy ∈ state.receives,
    after.ComesAfter {copy.copy} (before.readers dst)
  receive_after_writers : ∀ copy ∈ state.receives,
    after.ComesAfter {copy.copy} (before.writers dst)
  forward_after_receives : ∀ forward ∈ state.forwards, ∀ copy ∈ state.receives,
    after.ComesAfter {forward.copy} {copy.copy}
  writer_after_sends : ∀ copy ∈ state.sends, after.ComesAfter (after.nextWriter src) {copy.copy}
  reader_after_receives : ∀ copy ∈ state.receives,
    after.ComesAfter (after.nextReader dst) {copy.copy}
  writer_after_receives : ∀ copy ∈ state.receives,
    after.ComesAfter (after.nextWriter dst) {copy.copy}
  writer_after_forwards : ∀ copy ∈ state.forwards,
    after.ComesAfter (after.nextWriter dst) {copy.copy}

namespace AfterReshard

variable {arrays arrays' : Arrays κ ε} {src dst : κ} {state : ReshardState ε}

/-- What is known after the reshard alone. -/
theorem comesAfter (h : AfterReshard arrays src dst state arrays')
    {event other : Event (ArraySignal ε)} (himplies : Implies state.runtime.orders ∅ event other) :
    arrays'.ComesAfter event other := by
  apply comesAfter_of_implies
  rw [h.runtime_eq]
  exact himplies.mono (List.Subset.refl _) (Finset.empty_subset _)

/-- With what was registered before. -/
theorem comesAfter_registered (h : AfterReshard arrays src dst state arrays')
    {event middle other : Event (ArraySignal ε)}
    (himplies : Implies state.runtime.orders ∅ event middle)
    (hregistered : Implies arrays.runtime.orders arrays.done middle other) :
    arrays'.ComesAfter event other := by
  apply comesAfter_of_implies
  rw [h.runtime_eq, h.done_eq]
  have hevent := himplies.mono (List.Subset.refl _) (Finset.empty_subset arrays.done)
  exact hevent.trans (hregistered.mono h.orders_subset (Finset.Subset.refl _))

theorem respectsHazards (h : AfterReshard arrays src dst state arrays')
    (hregistered : arrays.Registered) : RespectsHazards arrays src dst state arrays' := by
  have hreceive : ∀ copy ∈ state.receives,
      Implies state.runtime.orders ∅ {copy.copy} (arrays.stores dst).precondition :=
    fun copy hcopy ↦ (h.target.receive_waits copy hcopy).trans
      (.of_subset (arrays.precondition_subset_viewed src dst))
  have hwriters : Implies arrays.runtime.orders arrays.done (arrays.stores dst).precondition
      (arrays.writers dst) := by
    rw [Store.precondition_eq]
    exact (Implies.of_subset Finset.subset_union_right).trans (hregistered.writers dst)
  have hnext (store : κ) : (arrays'.stores store).waitsFor false .write =
      arrays'.nextWriter store := waitsFor_false_write _
  constructor
  · exact fun copy hcopy ↦
      h.comesAfter_registered (h.send_waits copy hcopy) (hregistered.writers src)
  · exact fun copy hcopy ↦
      h.comesAfter_registered (hreceive copy hcopy) (hregistered.readers dst)
  · exact fun copy hcopy ↦ h.comesAfter_registered (hreceive copy hcopy) hwriters
  · exact fun forward hforward copy hcopy ↦
      h.comesAfter (h.target.forward_waits forward hforward copy hcopy)
  · intro copy hcopy
    rw [← hnext]
    exact h.comesAfter (h.writer_waits_send false hcopy)
  · intro copy hcopy
    have hwaits := h.use_waits_receive false .read hcopy
    rw [waitsFor_false_read] at hwaits
    exact h.comesAfter hwaits
  · intro copy hcopy
    rw [← hnext]
    exact h.comesAfter (h.use_waits_receive false .write hcopy)
  · intro copy hcopy
    rw [← hnext]
    exact h.comesAfter (h.writer_waits_forward false hcopy)

end AfterReshard

/-- The tasks that follow wait for the copies in the order of a stream as well. -/
theorem reshard_orders_streams [RealmBuild] {p : Processor} {answers : ManagerAnswers ε}
    {arrays arrays' : Arrays κ ε} {src dst : κ} {state : ReshardState ε}
    (h : arrays.reshard p answers src dst = .ok (state, arrays')) (streamOrdered : Bool)
    (stream effects : Event (ArraySignal ε)) :
    let waits (store : κ) (access : Access) :=
      (toTaskArgument (arrays'.stores store) stream effects access).1.dependency streamOrdered
    (∀ copy ∈ state.sends, arrays'.ComesAfter (waits src .write) {copy.copy}) ∧
      (∀ copy ∈ state.receives, ∀ access, arrays'.ComesAfter (waits dst access) {copy.copy}) ∧
      ∀ copy ∈ state.forwards, arrays'.ComesAfter (waits dst .write) {copy.copy} := by
  have hafter := afterReshard h
  simp only [dependency_toTaskArgument]
  refine ⟨?_, ?_, ?_⟩
  · exact fun copy hcopy ↦ hafter.comesAfter (hafter.writer_waits_send streamOrdered hcopy)
  · exact fun copy hcopy access ↦
      hafter.comesAfter (hafter.use_waits_receive streamOrdered access hcopy)
  · exact fun copy hcopy ↦ hafter.comesAfter (hafter.writer_waits_forward streamOrdered hcopy)

/-- A source that is replicated over two devices, and destinations over five. -/
def replicatedArrays (store : ℕ) : ShardedArray :=
  if store = 0 then ⟨⟨[⟨8, 1, 0⟩, ⟨1, 2, 1⟩], ⟨0, 2⟩⟩, by decide, by rfl⟩
  else ⟨⟨[⟨8, 1, 0⟩, ⟨1, 5, 1⟩], ⟨0, 5⟩⟩, by decide, by rfl⟩

/-- The source has a writer, and the destination a child and readers; one
reshard has been done before. -/
def broadcastHistory : List (ArrayAction ℕ ℕ) :=
  [.childAfter 0 ∅ {.external 1}, .child 1 2, .view 1, .reshard ⟨.cpu, 0, 0⟩ 0 1,
    .viewAfter 1 ∅ {.external 2}, .wait 0]

/-- Every copy has an event of its own. -/
def copyAnswers : ManagerAnswers ℕ := ⟨id, fun n ↦ {.copy n}⟩

end Arrays

end Zuku
