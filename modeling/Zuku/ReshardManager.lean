import Zuku.Shape
import Zuku.Event

/-!
# The rendezvous of the reshard manager

The functions of `reshard_manager.cc`.  Every address space has one entry for
a reshard key.  A source operation and a target operation of the key meet in
an entry: in the common one when both shards are in one address space, and
otherwise in the entry of the source, to which the target sends the name of
its instance.
-/

namespace Zuku

open Checked Event

/-- The completions that the operations of one key wait for and bring about. -/
inductive Signal (ε : Type) where
  | external (e : ε)
  | copyDone (copy : ℕ)
  | userEvent (id : ℕ)
  | generation (barrier : ℕ) (gen : ℕ)
  deriving DecidableEq, Repr

/-- A barrier with one arrival for each generation. -/
structure Barrier where
  id : ℕ
  gen : ℕ
  deriving DecidableEq, Repr

def Barrier.advance (barrier : Barrier) : Barrier := ⟨barrier.id, barrier.gen + 1⟩

/-- A barrier used as an event is its present generation. -/
def Barrier.event {ε : Type} (barrier : Barrier) : Event (Signal ε) :=
  {.generation barrier.id barrier.gen}

structure PendingOp (ε ι : Type) where
  precondition : Event (Signal ε)
  postconditionToTrigger : Option ℕ := none
  partnerInstance : Option ι := none

structure PointToPointReshard (ε ι : Type) where
  targetReadyBarrier : Option Barrier := none
  ackDoneBarrier : Option Barrier := none
  shape : RealmShape := .unset
  fieldSize : ℕ := 0
  pendingSourceReshards : List (PendingOp ε ι) := []
  pendingDestReshards : List (PendingOp ε ι) := []
  exists' : Bool := false
  name : Option String := none

structure Copy (ε ι : Type) where
  shape : RealmShape
  fieldSize : ℕ
  srcInstance : Option ι
  dstInstance : Option ι
  precondition : Event (Signal ε)

/-- The arguments of a spawned name-exchange task, and where it runs. -/
structure NameMessage (ι : Type) where
  target : ℕ
  barrier : Option Barrier
  regionInstance : Option ι

/-- What has been asked of the runtime for a key. -/
structure Runtime (ε ι : Type) where
  numBarriers : ℕ := 0
  numUserEvents : ℕ := 0
  copies : List (Copy ε ι) := []
  arrivals : List (Barrier × Event (Signal ε)) := []
  triggers : List (ℕ × Event (Signal ε)) := []
  messages : List (NameMessage ι) := []

namespace Runtime

variable {ε ι : Type}

def createBarrier (rt : Runtime ε ι) : Barrier × Runtime ε ι :=
  (⟨rt.numBarriers, 0⟩, { rt with numBarriers := rt.numBarriers + 1 })

def createUserEvent (rt : Runtime ε ι) : ℕ × Runtime ε ι :=
  (rt.numUserEvents, { rt with numUserEvents := rt.numUserEvents + 1 })

def issueCopy (rt : Runtime ε ι) (copy : Copy ε ι) : Event (Signal ε) × Runtime ε ι :=
  ({.copyDone rt.copies.length}, { rt with copies := rt.copies ++ [copy] })

def arrive (rt : Runtime ε ι) (barrier : Barrier) (precondition : Event (Signal ε)) :
    Runtime ε ι :=
  { rt with arrivals := rt.arrivals ++ [(barrier, precondition)] }

/-- Triggering an event that does not exist is not defined. -/
def trigger (rt : Runtime ε ι) (event : Option ℕ) (postcondition : Event (Signal ε)) :
    Exec (Runtime ε ι) := do
  let id ← optionalValue event
  pure { rt with triggers := rt.triggers ++ [(id, postcondition)] }

def spawn (rt : Runtime ε ι) (message : NameMessage ι) : Runtime ε ι :=
  { rt with messages := rt.messages ++ [message] }

end Runtime

inductive Protocol where
  | rendezvous | eager
  deriving DecidableEq, Repr

def kEagerCutoffBytes : ℕ := 0

def getProtocol (byteSize : ℕ) : Protocol :=
  if byteSize < kEagerCutoffBytes then .eager else .rendezvous

/-- What the name of a reshard is made of. -/
structure NamedArray where
  name : Option String := none
  sharding : Sharding
  shardId : ℤ
  tileByteSize : Option ℕ

/-- The arguments of a call of the manager and what it reads of the local
tile.  The instance of a tile exists. -/
structure ReshardOp (ε ι : Type) where
  shape : RealmShape
  type : SupportedType
  byteSize : ℕ
  precondition : Event (Signal ε)
  regionInstance : ι
  src : NamedArray
  dst : NamedArray
  hasTile : (src.tileByteSize.or dst.tileByteSize).isSome = true

variable {ε ι : Type} [DecidableEq ε]

def remoteCopyNextPendingToTarget (reshard : PointToPointReshard ε ι) (rt : Runtime ε ι)
    (srcInstance dstInstance : Option ι) (readyBarrier srcPrecondition : Event (Signal ε)) :
    Exec (Event (Signal ε) × PointToPointReshard ε ι × Runtime ε ι) := do
  let precondition := mergeEvents readyBarrier srcPrecondition
  let (postcondition, rt) :=
    rt.issueCopy ⟨reshard.shape, reshard.fieldSize, srcInstance, dstInstance, precondition⟩
  assertThat reshard.ackDoneBarrier.isSome
  let barrier ← optionalValue reshard.ackDoneBarrier
  let rt := rt.arrive barrier postcondition
  pure (postcondition, { reshard with ackDoneBarrier := some barrier.advance }, rt)

/-- Give every pending operation of the target a generation of the barrier. -/
def clearPendingDest : List (PendingOp ε ι) → Barrier → Runtime ε ι →
    Exec (Barrier × Runtime ε ι)
  | [], barrier, rt => pure (barrier, rt)
  | op :: pending, barrier, rt => do
      assertThat op.postconditionToTrigger.isSome
      let rt ← rt.trigger op.postconditionToTrigger barrier.event
      clearPendingDest pending barrier.advance rt

def receivePointToPointNames (reshard : PointToPointReshard ε ι) (rt : Runtime ε ι)
    (barrier : Option Barrier) (regionInstance : Option ι) :
    Exec (PointToPointReshard ε ι × Runtime ε ι) := do
  assertThat barrier.isSome
  let ready ← optionalValue barrier
  if regionInstance.isSome then
    match reshard.pendingSourceReshards with
    | op :: pending => do
        let (postcondition, reshard, rt) ← remoteCopyNextPendingToTarget reshard rt
          op.partnerInstance regionInstance ready.event op.precondition
        let rt ← rt.trigger op.postconditionToTrigger postcondition
        pure ({ reshard with pendingSourceReshards := pending }, rt)
    | [] =>
        pure ({ reshard with
          pendingDestReshards :=
            reshard.pendingDestReshards ++ [⟨ready.event, none, regionInstance⟩] }, rt)
  else do
    let (next, rt) ← clearPendingDest reshard.pendingDestReshards ready rt
    pure ({ reshard with ackDoneBarrier := some next, pendingDestReshards := [] }, rt)

/-- The shard and the size of the tile that the name of a reshard mentions. -/
def namedTile (src dst : NamedArray) : Exec (ℤ × ℕ) :=
  match src.tileByteSize with
  | some byteSize => pure (src.shardId, byteSize)
  | none => do
      let byteSize ← optionalValue dst.tileByteSize
      pure (dst.shardId, byteSize)

/-- The name of the source is read if the target has one. -/
def reshardName (src dst : NamedArray) : Exec String := do
  let (shardId, byteSize) ← namedTile src dst
  let srcDevice := src.sharding.devices.start + shardId
  let dstDevice := dst.sharding.devices.start + shardId
  let name ← if dst.name.isSome then optionalValue src.name else pure ""
  let sizes := dst.sharding.dims.map fun dim ↦ toString dim.size
  let factors := dst.sharding.dims.map fun dim ↦ toString dim.sharding
  pure ("reshard " ++ name ++ " [" ++ ",".intercalate sizes ++ "]%[" ++ ",".intercalate factors ++
    "]: " ++ toString byteSize ++ " bytes " ++ toString srcDevice ++ "->" ++ toString dstDevice)

/-- The first operation of an entry records the shape of all its copies, and
their name. -/
def recordShape (reshard : PointToPointReshard ε ι) (op : ReshardOp ε ι) :
    Exec (PointToPointReshard ε ι) :=
  if reshard.exists' then pure reshard
  else do
    let name ← reshardName op.src op.dst
    pure { reshard with
      fieldSize := supportedTypeSizeOf op.type
      shape := op.shape
      name := some name
      exists' := true }

/-- Create the barrier for the acknowledgements and tell the target about it,
unless it exists. -/
def ensureAckBarrier (reshard : PointToPointReshard ε ι) (rt : Runtime ε ι)
    (localSpace targetSpace : ℕ) : PointToPointReshard ε ι × Runtime ε ι :=
  if localSpace ≠ targetSpace ∧ reshard.ackDoneBarrier = none then
    let (barrier, rt) := rt.createBarrier
    ({ reshard with ackDoneBarrier := some barrier }, rt.spawn ⟨targetSpace, some barrier, none⟩)
  else (reshard, rt)

def rendezvousReshardFromLocalSource (reshard : PointToPointReshard ε ι) (rt : Runtime ε ι)
    (localSpace targetSpace : ℕ) (op : ReshardOp ε ι) :
    Exec (Event (Signal ε) × PointToPointReshard ε ι × Runtime ε ι) := do
  let reshard ← recordShape reshard op
  let (reshard, rt) := ensureAckBarrier reshard rt localSpace targetSpace
  match reshard.pendingDestReshards with
  | [] =>
      let (id, rt) := rt.createUserEvent
      pure ({.userEvent id},
        { reshard with
          pendingSourceReshards :=
            reshard.pendingSourceReshards ++
              [⟨op.precondition, some id, some op.regionInstance⟩] }, rt)
  | dest :: pending =>
      if localSpace ≠ targetSpace then do
        let (postcondition, reshard, rt) ← remoteCopyNextPendingToTarget reshard rt
          (some op.regionInstance) dest.partnerInstance dest.precondition op.precondition
        pure (postcondition, { reshard with pendingDestReshards := pending }, rt)
      else do
        let precondition := mergeEvents dest.precondition op.precondition
        let (postcondition, rt) := rt.issueCopy ⟨reshard.shape, reshard.fieldSize,
          some op.regionInstance, dest.partnerInstance, precondition⟩
        assertThat (reshard.ackDoneBarrier = none)
        let rt ← rt.trigger dest.postconditionToTrigger postcondition
        pure (postcondition, { reshard with pendingDestReshards := pending }, rt)

/-- Send the name of the instance together with the generation of the barrier
that tells when it is ready. -/
def sendTargetName (reshard : PointToPointReshard ε ι) (rt : Runtime ε ι)
    (localSpace targetSpace : ℕ) (op : ReshardOp ε ι) : PointToPointReshard ε ι × Runtime ε ι :=
  if targetSpace ≠ localSpace then
    let (ready, rt) :=
      match reshard.targetReadyBarrier with
      | some ready => (ready, rt)
      | none => rt.createBarrier
    let rt := rt.spawn ⟨targetSpace, some ready, some op.regionInstance⟩
    ({ reshard with targetReadyBarrier := some ready.advance }, rt.arrive ready op.precondition)
  else (reshard, rt)

def rendezvousReshardToLocalTarget (reshard : PointToPointReshard ε ι) (rt : Runtime ε ι)
    (localSpace targetSpace : ℕ) (op : ReshardOp ε ι) :
    Exec (Event (Signal ε) × PointToPointReshard ε ι × Runtime ε ι) := do
  let reshard ← recordShape reshard op
  match reshard.pendingSourceReshards with
  | source :: pending => do
      let precondition := mergeEvents source.precondition op.precondition
      let (postcondition, rt) := rt.issueCopy ⟨reshard.shape, reshard.fieldSize,
        source.partnerInstance, some op.regionInstance, precondition⟩
      assertThat source.postconditionToTrigger.isSome
      let rt ← rt.trigger source.postconditionToTrigger postcondition
      pure (postcondition, { reshard with pendingSourceReshards := pending }, rt)
  | [] =>
      let (reshard, rt) := sendTargetName reshard rt localSpace targetSpace op
      match reshard.ackDoneBarrier with
      | none =>
          let (id, rt) := rt.createUserEvent
          pure ({.userEvent id},
            { reshard with
              pendingDestReshards :=
                reshard.pendingDestReshards ++
                  [⟨op.precondition, some id, some op.regionInstance⟩] }, rt)
      | some ack =>
          pure (ack.event, { reshard with ackDoneBarrier := some ack.advance }, rt)

def reshardFromLocalSource (reshard : PointToPointReshard ε ι) (rt : Runtime ε ι)
    (localSpace targetSpace : ℕ) (op : ReshardOp ε ι) :
    Exec (Event (Signal ε) × PointToPointReshard ε ι × Runtime ε ι) :=
  match getProtocol op.byteSize with
  | .eager => throw (.runtimeError
      "ReshardManager::EagerReshardFromLocalSource: not implemented")
  | .rendezvous => rendezvousReshardFromLocalSource reshard rt localSpace targetSpace op

def reshardToLocalTarget (reshard : PointToPointReshard ε ι) (rt : Runtime ε ι)
    (localSpace targetSpace : ℕ) (op : ReshardOp ε ι) :
    Exec (Event (Signal ε) × PointToPointReshard ε ι × Runtime ε ι) :=
  match getProtocol op.byteSize with
  | .eager => throw (.runtimeError
      "ReshardManager::EagerReshardToLocalTarget: not implemented")
  | .rendezvous => rendezvousReshardToLocalTarget reshard rt localSpace targetSpace op

/-! ## One key across its address spaces -/

/-- The address spaces of the two shards of a key. -/
structure KeySpaces where
  source : ℕ
  target : ℕ
  deriving DecidableEq, Repr

/-- The entries of all address spaces, the runtime, and what has happened: the
operations with the events they were given, and the messages delivered. -/
structure KeyState (ε ι : Type) where
  entries : ℕ → PointToPointReshard ε ι := fun _ ↦ {}
  runtime : Runtime ε ι := {}
  sourceOps : List (ReshardOp ε ι × Event (Signal ε)) := []
  targetOps : List (ReshardOp ε ι × Event (Signal ε)) := []
  delivered : List (NameMessage ι) := []

inductive KeyAction (ε ι : Type) where
  | source (op : ReshardOp ε ι)
  | target (op : ReshardOp ε ι)
  | deliver (message : ℕ)

namespace KeyState

def step (spaces : KeySpaces) (state : KeyState ε ι) : KeyAction ε ι → Exec (KeyState ε ι)
  | .source op => do
      let (event, entry, rt) ← reshardFromLocalSource (state.entries spaces.source) state.runtime
        spaces.source spaces.target op
      pure { state with
        entries := Function.update state.entries spaces.source entry
        runtime := rt
        sourceOps := state.sourceOps ++ [(op, event)] }
  | .target op => do
      let (event, entry, rt) ← reshardToLocalTarget (state.entries spaces.target) state.runtime
        spaces.target spaces.source op
      pure { state with
        entries := Function.update state.entries spaces.target entry
        runtime := rt
        targetOps := state.targetOps ++ [(op, event)] }
  | .deliver i =>
      match state.runtime.messages[i]? with
      | none => pure state
      | some message => do
          let (entry, rt) ← receivePointToPointNames (state.entries message.target)
            { state.runtime with messages := state.runtime.messages.eraseIdx i }
            message.barrier message.regionInstance
          pure { state with
            entries := Function.update state.entries message.target entry
            runtime := rt
            delivered := state.delivered ++ [message] }

def run (spaces : KeySpaces) : KeyState ε ι → List (KeyAction ε ι) → Exec (KeyState ε ι)
  | state, [] => pure state
  | state, action :: actions => do
      let state ← state.step spaces action
      run spaces state actions

end KeyState

/-! ## All keys -/

/-- The reshards of all keys.  A key that has not been used has empty entries. -/
abbrev PointToPointReshards (κ ε ι : Type) := κ → KeyState ε ι

namespace PointToPointReshards

variable {κ : Type} [DecidableEq κ]

def step (spaces : κ → KeySpaces) (reshards : PointToPointReshards κ ε ι) (key : κ)
    (action : KeyAction ε ι) : Exec (PointToPointReshards κ ε ι) := do
  let state ← (reshards key).step (spaces key) action
  pure (Function.update reshards key state)

def run (spaces : κ → KeySpaces) : PointToPointReshards κ ε ι → List (κ × KeyAction ε ι) →
    Exec (PointToPointReshards κ ε ι)
  | reshards, [] => pure reshards
  | reshards, (key, action) :: actions => do
      let reshards ← reshards.step spaces key action
      run spaces reshards actions

end PointToPointReshards

end Zuku
