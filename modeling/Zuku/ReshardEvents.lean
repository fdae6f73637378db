import Zuku.Store
import Zuku.ReshardCalls
import Zuku.ShardedArrayCreate
import Zuku.Library.EventImplication

/-!
# The events of resharding

The five patterns of resharding on the stores of one processor: which
precondition they hand to the reshard manager with every call, and where the
events go that the manager returns.  Of the manager it is only known that a copy
waits for the precondition, and that the returned event waits for the copy.
-/

namespace Zuku

open Event Checked

/-- The completions that the stores of arrays deal with. -/
inductive ArraySignal (ε : Type) where
  | copy (id : ℕ)
  | userEvent (id : ℕ)
  | external (e : ε)
  deriving DecidableEq, Repr

/-- An array whose sharding has passed the check of `ShardedArray::Create`. -/
structure ShardedArray where
  sharding : Sharding
  sharding_pos : ∀ dim ∈ sharding.dims, 1 ≤ dim.sharding
  checked : ShardedArray.checkTotalSharding sharding = .ok ()

abbrev ArrayView (ε : Type) := View (ArraySignal ε) ShardedArray

abbrev ArrayStore (ε : Type) := Store (ArraySignal ε) ShardedArray

/-- What the manager makes of its `n`-th call: the copy and the event that it
returns. -/
structure ManagerAnswers (ε : Type) where
  copy : ℕ → ℕ
  postcondition : ℕ → Event (ArraySignal ε)

/-- A call of the manager with the precondition handed to it. -/
structure IssuedCall (ε : Type) where
  call : ReshardCall
  precondition : Event (ArraySignal ε)
  copy : ArraySignal ε
  postcondition : Event (ArraySignal ε)

/-- The user events and the calls so far; `orders` lists events that do not
trigger before others. -/
structure ReshardRuntime (ε : Type) where
  numUserEvents : ℕ := 0
  numCalls : ℕ := 0
  orders : List (Event (ArraySignal ε) × Event (ArraySignal ε)) := []

namespace ReshardRuntime

variable {ε : Type} (rt : ReshardRuntime ε)

def createUserEvent : ArraySignal ε × ReshardRuntime ε :=
  (.userEvent rt.numUserEvents, { rt with numUserEvents := rt.numUserEvents + 1 })

/-- A call of the manager.  The copy waits for the precondition, and the
returned event for the copy. -/
def issue (answers : ManagerAnswers ε) (call : ReshardCall)
    (precondition : Event (ArraySignal ε)) : IssuedCall ε × ReshardRuntime ε :=
  let copy : ArraySignal ε := .copy (answers.copy rt.numCalls)
  let postcondition := answers.postcondition rt.numCalls
  (⟨call, precondition, copy, postcondition⟩,
    { rt with
      numCalls := rt.numCalls + 1
      orders := rt.orders ++ [({copy}, precondition), (postcondition, {copy})] })

/-- A loop of calls with the same view or store. -/
def issueAll (answers : ManagerAnswers ε) (precondition : Event (ArraySignal ε)) :
    ReshardRuntime ε → List ReshardCall → List (IssuedCall ε) × ReshardRuntime ε
  | rt, [] => ([], rt)
  | rt, call :: calls =>
      let (issued, rt) := rt.issue answers call precondition
      let (rest, rt) := issueAll answers precondition rt calls
      (issued :: rest, rt)

/-- `~View` of a view. -/
def destroyView [DecidableEq ε] (view : ArrayView ε) : ReshardRuntime ε :=
  { rt with
    orders := rt.orders ++ view.destroy.toList.map fun released ↦ ({released.1}, released.2) }

end ReshardRuntime

/-- The merged event of the calls. -/
def postcondition {ε : Type} [DecidableEq ε] (issued : List (IssuedCall ε)) :
    Event (ArraySignal ε) :=
  mergeAll (issued.map IssuedCall.postcondition)

/-- The copies of the calls. -/
def copies {ε : Type} [DecidableEq ε] (issued : List (IssuedCall ε)) : Event (ArraySignal ε) :=
  (issued.map IssuedCall.copy).toFinset

/-- The destination and the calls out of the source tile, into the destination
tile, and out of the destination tile to the leaves of a broadcast tree. -/
structure ReshardState (ε : Type) where
  dst : ArrayStore ε
  runtime : ReshardRuntime ε
  sends : List (IssuedCall ε) := []
  receives : List (IssuedCall ε) := []
  forwards : List (IssuedCall ε) := []

namespace ReshardState

variable {ε : Type} [DecidableEq ε] (answers : ManagerAnswers ε)

/-- Copies out of the source tile; the view is done after them. -/
def send (state : ReshardState ε) (view : ArrayView ε) (calls : List ReshardCall) :
    ArrayView ε × ReshardState ε :=
  let (issued, rt) := state.runtime.issueAll answers view.effectsPrecondition calls
  (view.doneAfter (postcondition issued),
    { state with runtime := rt, sends := state.sends ++ issued })

/-- Copies into the destination tile; the destination is ready after them. -/
def receive (state : ReshardState ε) (calls : List ReshardCall) : ReshardState ε :=
  let (issued, rt) := state.runtime.issueAll answers state.dst.precondition calls
  { state with
    dst := state.dst.readyAfter (postcondition issued) (postcondition issued)
    runtime := rt
    receives := state.receives ++ issued }

/-- Copies to the leaves of a broadcast tree, from a view of the destination. -/
def forward (state : ReshardState ε) (calls : List ReshardCall) : ReshardState ε :=
  if calls = [] then state
  else
    let (reader, rt) := state.runtime.createUserEvent
    let (bcastView, dst) := state.dst.view reader
    let (issued, rt) := rt.issueAll answers bcastView.effectsPrecondition calls
    let bcastView := issued.foldl (fun view copy ↦ view.doneAfter copy.postcondition) bcastView
    { state with
      dst := dst
      runtime := rt.destroyView bcastView
      forwards := state.forwards ++ issued }

def destroyView (state : ReshardState ε) (view : ArrayView ε) : ReshardState ε :=
  { state with runtime := state.runtime.destroyView view }

/-- The calls without their events. -/
def calls (state : ReshardState ε) : ReshardCalls :=
  ⟨(state.forwards ++ state.sends).map IssuedCall.call, state.receives.map IssuedCall.call⟩

end ReshardState

/-! ## The patterns -/

namespace ReshardEvents

variable {ε : Type} [DecidableEq ε] [RealmBuild] (p : Processor) (answers : ManagerAnswers ε)
  (src dst : Sharding)

def reshardPointToPoint (view : ArrayView ε) (state : ReshardState ε) :
    Exec (ReshardState ε) := do
  let calls ← Zuku.reshardPointToPoint p src dst
  let state := if hasTile p dst then state.receive answers calls.receives else state
  if hasTile p src then
    let (view, state) := state.send answers view.moved calls.sends
    pure (state.destroyView view)
  else pure (state.destroyView view)

omit [RealmBuild] in
/-- The slices are sent from a view of the view. -/
def reshardScatterGatherFromLocalSource (calls : List ReshardCall) (view : ArrayView ε)
    (state : ReshardState ε) : ArrayView ε × ReshardState ε :=
  let (release, rt) := state.runtime.createUserEvent
  let (subview, view) := view.subview release
  let (subview, state) := { state with runtime := rt }.send answers subview calls
  (view, state.destroyView subview)

omit [RealmBuild] in
def reshardScatterGather (config : ScatterGatherConfig) (view : ArrayView ε)
    (state : ReshardState ε) : ReshardState ε :=
  let calls := Zuku.reshardScatterGather p config src dst
  let (view, state) :=
    if hasTile p src then reshardScatterGatherFromLocalSource answers calls.sends view state
    else (view, state)
  let state := if hasTile p dst then state.receive answers calls.receives else state
  state.destroyView view

/-- The source before the destination, as `ReshardGatherShards` and
`ReshardScatterShards` have it. -/
def sendAndReceive (calls : ReshardCalls) (view : ArrayView ε) (state : ReshardState ε) :
    ReshardState ε :=
  let (view, state) :=
    if hasTile p src then state.send answers view calls.sends else (view, state)
  let state := if hasTile p dst then state.receive answers calls.receives else state
  state.destroyView view

def reshardGatherShards (config : GatherShardsConfig) (view : ArrayView ε)
    (state : ReshardState ε) : Exec (ReshardState ε) := do
  let calls ← Zuku.reshardGatherShards p config src dst
  pure (sendAndReceive p answers src dst calls view state)

def reshardScatterShards (view : ArrayView ε) (state : ReshardState ε) :
    Exec (ReshardState ε) := do
  let calls ← Zuku.reshardScatterShards p src dst
  pure (sendAndReceive p answers src dst calls view state)

def reshardBroadcastToLocalTarget (config : BroadcastConfig) (state : ReshardState ε) :
    Exec (ReshardState ε) := do
  let target ← Zuku.reshardBroadcastToLocalTarget p config dst
  pure ((state.receive answers target.receives).forward answers target.sends)

def reshardBroadcastFromLocalSource (config : BroadcastConfig) (view : ArrayView ε)
    (state : ReshardState ε) : Exec (ReshardState ε) := do
  let sends ← Zuku.reshardBroadcastFromLocalSource p config src
  let (view, state) := state.send answers view sends
  pure (state.destroyView view)

def reshardBroadcast (config : BroadcastConfig) (view : ArrayView ε)
    (state : ReshardState ε) : Exec (ReshardState ε) := do
  let state ←
    (if hasTile p dst then reshardBroadcastToLocalTarget p answers dst config state
      else pure state)
  if hasTile p src then reshardBroadcastFromLocalSource p answers src config view.moved state
  else pure (state.destroyView view)

/-- `Reshard` of a view into a store. -/
def reshard (view : ArrayView ε) (state : ReshardState ε) : Exec (ReshardState ε) := do
  let srcArray ← optionalValue view.value
  let dstArray ← optionalValue state.dst.value
  let src := srcArray.sharding
  let dst := dstArray.sharding
  match ← determineShardingConfig p src dst with
  | .pointToPoint => reshardPointToPoint p answers src dst view.moved state
  | .scatterGather config => pure (reshardScatterGather p answers src dst config view.moved state)
  | .broadcast config => reshardBroadcast p answers src dst config view.moved state
  | .noOp => pure (state.destroyView view)
  | .scatterShards _ => reshardScatterShards p answers src dst view.moved state
  | .gatherShards config => reshardGatherShards p answers src dst config view.moved state
  | .unsupported => throw (.runtimeError "unsupported resharding pattern requested")

end ReshardEvents

/-! ## The calls that the patterns make -/

theorem ReshardRuntime.map_call_issueAll {ε : Type} (rt : ReshardRuntime ε)
    (answers : ManagerAnswers ε) (precondition : Event (ArraySignal ε)) (calls : List ReshardCall) :
    (rt.issueAll answers precondition calls).1.map IssuedCall.call = calls := by
  induction calls generalizing rt with
  | nil => rfl
  | cons call calls ih => exact congrArg (call :: ·) (ih _)

namespace ReshardState

variable {ε : Type} [DecidableEq ε] (answers : ManagerAnswers ε) (state : ReshardState ε)

theorem calls_send (view : ArrayView ε) (calls : List ReshardCall) :
    (state.send answers view calls).2.calls =
      ⟨state.calls.sends ++ calls, state.calls.receives⟩ := by
  simp [send, ReshardState.calls, ReshardRuntime.map_call_issueAll]

theorem calls_receive (calls : List ReshardCall) :
    (state.receive answers calls).calls =
      ⟨state.calls.sends, state.calls.receives ++ calls⟩ := by
  simp [receive, ReshardState.calls, ReshardRuntime.map_call_issueAll]

theorem calls_forward (hsends : state.sends = []) (calls : List ReshardCall) :
    (state.forward answers calls).calls =
      ⟨state.calls.sends ++ calls, state.calls.receives⟩ := by
  rw [forward]
  split
  · rename_i hnil
    simp [ReshardState.calls, hnil]
  · simp [ReshardState.calls, hsends, ReshardRuntime.map_call_issueAll]

theorem calls_destroyView (view : ArrayView ε) : (state.destroyView view).calls = state.calls := rfl

end ReshardState

theorem onTile_eq_ok_iff {p : Processor} {sharding : Sharding} {calls : Exec (List ReshardCall)}
    {out : List ReshardCall} :
    onTile p sharding calls = .ok out ↔
      if hasTile p sharding then calls = .ok out else out = [] := by
  rw [onTile]
  split
  · rfl
  · exact ⟨fun h ↦ (Except.ok.inj h).symm, fun h ↦ congrArg Except.ok h.symm⟩

namespace ReshardEvents

variable {ε : Type} [DecidableEq ε] {p : Processor} {src dst : Sharding}
  (answers : ManagerAnswers ε) (view : ArrayView ε) (store : ArrayStore ε) (rt : ReshardRuntime ε)

/-- A tile that does not exist has no calls. -/
structure OnTiles (p : Processor) (src dst : Sharding) (calls : ReshardCalls) : Prop where
  sends : hasTile p src = false → calls.sends = []
  receives : hasTile p dst = false → calls.receives = []

omit [DecidableEq ε] in
@[simp] theorem calls_start : ReshardState.calls ⟨store, rt, [], [], []⟩ = ⟨[], []⟩ := rfl

theorem onTiles_of_eq_ok {sends receives : Exec (List ReshardCall)} {calls : ReshardCalls}
    (hsends : onTile p src sends = .ok calls.sends)
    (hreceives : onTile p dst receives = .ok calls.receives) : OnTiles p src dst calls := by
  constructor
  · intro hsrc
    simpa [hsrc] using onTile_eq_ok_iff.mp hsends
  · intro hdst
    simpa [hdst] using onTile_eq_ok_iff.mp hreceives

/-- The source before the destination. -/
theorem onTiles_of_bind {sends receives : Exec (List ReshardCall)} {calls : ReshardCalls}
    (h : (do
      let sends ← onTile p src sends
      let receives ← onTile p dst receives
      pure (ReshardCalls.mk sends receives)) = .ok calls) : OnTiles p src dst calls := by
  obtain ⟨sends, hsends, h⟩ := bind_eq_ok_iff.mp h
  obtain ⟨receives, hreceives, h⟩ := bind_eq_ok_iff.mp h
  obtain rfl := Except.ok.inj h
  exact onTiles_of_eq_ok hsends hreceives

theorem calls_sendAndReceive {calls : ReshardCalls} (h : OnTiles p src dst calls) :
    (sendAndReceive p answers src dst calls view ⟨store, rt, [], [], []⟩).calls = calls := by
  obtain ⟨sends, receives⟩ := calls
  have hsends := h.sends
  have hreceives := h.receives
  cases hsrc : hasTile p src <;> cases hdst : hasTile p dst <;>
    simp_all [sendAndReceive, ReshardState.calls_destroyView, ReshardState.calls_send,
      ReshardState.calls_receive]

theorem calls_scatterGather {config : ScatterGatherConfig} :
    (reshardScatterGather p answers src dst config view ⟨store, rt, [], [], []⟩).calls =
      Zuku.reshardScatterGather p config src dst := by
  cases hsrc : hasTile p src <;> cases hdst : hasTile p dst <;>
    simp [reshardScatterGather, reshardScatterGatherFromLocalSource, Zuku.reshardScatterGather,
      hsrc, hdst, ReshardState.calls_destroyView, ReshardState.calls_send,
      ReshardState.calls_receive]

variable [RealmBuild]

theorem exists_pointToPoint {calls : ReshardCalls}
    (h : Zuku.reshardPointToPoint p src dst = .ok calls) :
    ∃ state, reshardPointToPoint p answers src dst view ⟨store, rt, [], [], []⟩ = .ok state ∧
      state.calls = calls := by
  have htiles : OnTiles p src dst calls := by
    obtain ⟨receives, hreceives, h⟩ := bind_eq_ok_iff.mp h
    obtain ⟨sends, hsends, h⟩ := bind_eq_ok_iff.mp h
    obtain rfl := Except.ok.inj h
    exact onTiles_of_eq_ok hsends hreceives
  rw [reshardPointToPoint, h, ok_bind]
  obtain ⟨sends, receives⟩ := calls
  have hsends := htiles.sends
  have hreceives := htiles.receives
  cases hsrc : hasTile p src <;> cases hdst : hasTile p dst <;>
    simp_all [ReshardState.calls_destroyView, ReshardState.calls_send,
      ReshardState.calls_receive]

theorem exists_scatterShards {calls : ReshardCalls}
    (h : Zuku.reshardScatterShards p src dst = .ok calls) :
    ∃ state, reshardScatterShards p answers src dst view ⟨store, rt, [], [], []⟩ = .ok state ∧
      state.calls = calls := by
  have htiles : OnTiles p src dst calls := onTiles_of_bind h
  rw [reshardScatterShards, h, ok_bind]
  exact ⟨_, rfl, calls_sendAndReceive answers view store rt htiles⟩

omit [RealmBuild] in
theorem exists_gatherShards {config : GatherShardsConfig} {calls : ReshardCalls}
    (h : Zuku.reshardGatherShards p config src dst = .ok calls) :
    ∃ state, reshardGatherShards p answers src dst config view ⟨store, rt, [], [], []⟩ =
      .ok state ∧ state.calls = calls := by
  have htiles : OnTiles p src dst calls := onTiles_of_bind h
  rw [reshardGatherShards, h, ok_bind]
  exact ⟨_, rfl, calls_sendAndReceive answers view store rt htiles⟩

theorem exists_broadcastToLocalTarget {config : BroadcastConfig} {target : ReshardCalls}
    (h : Zuku.reshardBroadcastToLocalTarget p config dst = .ok target) :
    ∃ state, reshardBroadcastToLocalTarget p answers dst config ⟨store, rt, [], [], []⟩ =
      .ok state ∧ state.calls = target := by
  rw [reshardBroadcastToLocalTarget, h, ok_bind]
  refine ⟨_, rfl, ?_⟩
  rw [ReshardState.calls_forward answers _ rfl, ReshardState.calls_receive]
  rfl

theorem exists_broadcastFromLocalSource {config : BroadcastConfig} {sends : List ReshardCall}
    (h : onTile p src (Zuku.reshardBroadcastFromLocalSource p config src) = .ok sends)
    (state : ReshardState ε) :
    ∃ state', (if hasTile p src then
        reshardBroadcastFromLocalSource p answers src config view.moved state
        else pure (state.destroyView view)) = .ok state' ∧
      state'.calls = ⟨state.calls.sends ++ sends, state.calls.receives⟩ := by
  rw [onTile_eq_ok_iff] at h
  split at h
  · rename_i hsrc
    rw [if_pos hsrc, reshardBroadcastFromLocalSource, h, ok_bind]
    exact ⟨_, rfl, state.calls_send answers view.moved sends⟩
  · rename_i hsrc
    rw [if_neg hsrc, h, List.append_nil]
    exact ⟨_, rfl, state.calls_destroyView view⟩

theorem exists_broadcast {config : BroadcastConfig} {calls : ReshardCalls}
    (h : Zuku.reshardBroadcast p config src dst = .ok calls) :
    ∃ state, reshardBroadcast p answers src dst config view ⟨store, rt, [], [], []⟩ =
      .ok state ∧ state.calls = calls := by
  rw [Zuku.reshardBroadcast] at h
  rw [reshardBroadcast]
  split at h
  · rename_i hdst
    obtain ⟨target, htarget, h⟩ := bind_eq_ok_iff.mp h
    obtain ⟨sends, hsends, h⟩ := bind_eq_ok_iff.mp h
    obtain rfl := Except.ok.inj h
    obtain ⟨state₁, hstate₁, hcalls₁⟩ := exists_broadcastToLocalTarget answers store rt htarget
    obtain ⟨state₂, hstate₂, hcalls₂⟩ :=
      exists_broadcastFromLocalSource answers view hsends state₁
    rw [if_pos hdst, hstate₁, ok_bind]
    refine ⟨state₂, hstate₂, ?_⟩
    rw [hcalls₂, hcalls₁]
  · rename_i hdst
    obtain ⟨sends, hsends, h⟩ := bind_eq_ok_iff.mp h
    obtain rfl := Except.ok.inj h
    rw [if_neg hdst]
    exact exists_broadcastFromLocalSource answers view hsends ⟨store, rt, [], [], []⟩

/-- The calls of `Reshard` are those of the plan, with their events. -/
theorem exists_reshard {srcArray dstArray : ShardedArray} {calls : ReshardCalls}
    (hsrc : view.value = some srcArray) (hdst : store.value = some dstArray)
    (h : Zuku.reshard p srcArray.sharding dstArray.sharding = .ok calls) :
    ∃ state, reshard p answers view ⟨store, rt, [], [], []⟩ = .ok state ∧
      state.calls = calls := by
  obtain ⟨plan, hplan, h⟩ := bind_eq_ok_iff.mp h
  rw [reshard]
  simp only [hsrc, hdst, optionalValue, ok_bind, hplan]
  cases plan with
  | unsupported => cases h
  | pointToPoint => exact exists_pointToPoint answers view.moved store rt h
  | scatterGather config =>
      obtain rfl := Except.ok.inj h
      exact ⟨_, rfl, calls_scatterGather answers view.moved store rt⟩
  | broadcast config => exact exists_broadcast answers view.moved store rt h
  | gatherShards config => exact exists_gatherShards answers view.moved store rt h
  | scatterShards config => exact exists_scatterShards answers view.moved store rt h
  | noOp =>
      obtain rfl := Except.ok.inj h
      exact ⟨_, rfl, rfl⟩

end ReshardEvents
/-! ## Histories of stores -/

/-- The stores of a processor, with the writers and readers that were
registered on each of them. -/
structure Arrays (κ ε : Type) where
  stores : κ → ArrayStore ε
  runtime : ReshardRuntime ε := {}
  done : Event (ArraySignal ε) := ∅
  writers : κ → Event (ArraySignal ε)
  readers : κ → Event (ArraySignal ε)

/-- What can be done with a store.  A child is given to a task that starts after
the precondition of the child, and an open-ended child is used like any other
store.  Whoever calls `ReadyAfter` has given the precondition of the store to
the operation behind the event, as `MoveToMemory` does. -/
inductive ArrayAction (κ ε : Type) where
  | childAfter (store : κ) (stream effects : Event (ArraySignal ε))
  | child (store child : κ)
  | readyAfter (store : κ) (stream effects : Event (ArraySignal ε))
  | viewAfter (store : κ) (stream effects : Event (ArraySignal ε))
  | view (store : κ)
  | wait (store : κ)
  | reshard (p : Processor) (src dst : κ)

namespace Arrays

variable {κ ε : Type} [DecidableEq κ] [DecidableEq ε]

/-- Stores made by `Create`, or by `DeferredCreate` with an event. -/
def init (array : κ → ShardedArray) (createEvent : κ → Option (Event (ArraySignal ε))) :
    Arrays κ ε where
  stores s :=
    match createEvent s with
    | none => Store.create (array s)
    | some ev => Store.deferredCreate ev (array s)
  writers s := (createEvent s).getD ∅
  readers _ := ∅

/-- Register a writer, which comes after the precondition of the store. -/
def write (arrays : Arrays κ ε) (store : κ) (store' : ArrayStore ε)
    (ev : Event (ArraySignal ε)) : Arrays κ ε :=
  { arrays with
    stores := Function.update arrays.stores store store'
    runtime.orders := arrays.runtime.orders ++ [(ev, (arrays.stores store).precondition)]
    writers := Function.update arrays.writers store (arrays.writers store ∪ ev) }

/-- Put the child that has been made of a store, with the readers and writers of
the store, into a place for stores. -/
def putChild (arrays : Arrays κ ε) (before : Arrays κ ε) (store child : κ)
    (newChild : ArrayStore ε) : Arrays κ ε :=
  { arrays with
    stores := Function.update arrays.stores child newChild
    writers := Function.update arrays.writers child (before.writers store)
    readers := Function.update arrays.readers child (before.readers store) }

/-- Register a reader. -/
def read (arrays : Arrays κ ε) (store : κ) (store' : ArrayStore ε)
    (ev : Event (ArraySignal ε)) : Arrays κ ε :=
  { arrays with
    stores := Function.update arrays.stores store store'
    readers := Function.update arrays.readers store (arrays.readers store ∪ ev) }

/-- `Reshard` of two stores, which may be the same one. -/
def reshard [RealmBuild] (p : Processor) (answers : ManagerAnswers ε) (arrays : Arrays κ ε)
    (src dst : κ) : Exec (ReshardState ε × Arrays κ ε) := do
  let (reader, rt) := arrays.runtime.createUserEvent
  let (view, srcStore) := (arrays.stores src).view reader
  let stores := Function.update arrays.stores src srcStore
  let state ← ReshardEvents.reshard p answers view ⟨stores dst, rt, [], [], []⟩
  let readers := Function.update arrays.readers src (arrays.readers src ∪ copies state.sends)
  pure (state,
    { arrays with
      stores := Function.update stores dst state.dst
      runtime := state.runtime
      writers :=
        Function.update arrays.writers dst (arrays.writers dst ∪ copies state.receives)
      readers := Function.update readers dst (readers dst ∪ copies state.forwards) })

def step [RealmBuild] (answers : ManagerAnswers ε) (arrays : Arrays κ ε) :
    ArrayAction κ ε → Exec (Arrays κ ε)
  | .childAfter store stream effects =>
      pure (arrays.write store ((arrays.stores store).childAfter stream effects).2 effects)
  | .child store child =>
      let (childEvent, rt) := arrays.runtime.createUserEvent
      let (newChild, parent) := (arrays.stores store).child childEvent
      let written := { arrays with runtime := rt }.write store parent {childEvent}
      pure (written.putChild arrays store child newChild)
  | .readyAfter store stream effects =>
      pure (arrays.write store ((arrays.stores store).readyAfter stream effects) effects)
  | .viewAfter store stream effects =>
      pure (arrays.read store ((arrays.stores store).viewAfter stream effects).2 effects)
  | .view store =>
      let (reader, rt) := arrays.runtime.createUserEvent
      pure ({ arrays with runtime := rt }.read store ((arrays.stores store).view reader).2
        {reader})
  | .wait store =>
      pure { arrays with
        stores := Function.update arrays.stores store (arrays.stores store).wait
        done := arrays.done ∪ (arrays.stores store).waitEvent }
  | .reshard p src dst => do
      let (_, arrays) ← arrays.reshard p answers src dst
      pure arrays

def run [RealmBuild] (answers : ManagerAnswers ε) :
    Arrays κ ε → List (ArrayAction κ ε) → Exec (Arrays κ ε)
  | arrays, [] => pure arrays
  | arrays, action :: actions => do
      let arrays ← arrays.step answers action
      run answers arrays actions

end Arrays

end Zuku
