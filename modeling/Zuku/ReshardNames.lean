import Zuku.ReshardManager

/-!
# Names of reshards, and the logs of a key

The first operation of an entry builds a name for the profiler.  It reads the
name of the source when the target has one, and stops at a source that has
none.  A run of a key therefore needs a named source, or an unnamed target, at
the first operation of each entry.  The logs of a run are those of its actions,
whatever the entries do.
-/

namespace Zuku

open Checked Event

variable {ε ι : Type}

/-! ## The name of a reshard -/

/-- The source has a name if the target has one. -/
def ReshardOp.Nameable (op : ReshardOp ε ι) : Prop :=
  op.dst.name.isSome = true → op.src.name.isSome = true

instance (op : ReshardOp ε ι) : Decidable op.Nameable :=
  inferInstanceAs (Decidable (_ → _))

theorem exists_namedTile (op : ReshardOp ε ι) : ∃ tile, namedTile op.src op.dst = .ok tile := by
  have htile := op.hasTile
  unfold namedTile
  cases hsrc : op.src.tileByteSize with
  | some byteSize => exact ⟨_, rfl⟩
  | none =>
      rw [hsrc, Option.none_or] at htile
      obtain ⟨byteSize, hdst⟩ := Option.isSome_iff_exists.mp htile
      exact ⟨(op.dst.shardId, byteSize), by rw [hdst]; rfl⟩

theorem exists_reshardName {op : ReshardOp ε ι} (h : op.Nameable) :
    ∃ name, reshardName op.src op.dst = .ok name := by
  obtain ⟨tile, htile⟩ := exists_namedTile op
  rw [reshardName, htile, ok_bind]
  by_cases hdst : op.dst.name.isSome
  · obtain ⟨name, hsrc⟩ := Option.isSome_iff_exists.mp (h hdst)
    simp only [if_pos hdst, hsrc, optionalValue_some, ok_bind]
    exact ⟨_, rfl⟩
  · simp only [if_neg hdst, pure_eq_ok, ok_bind]
    exact ⟨_, rfl⟩

theorem reshardName_of_not_nameable {op : ReshardOp ε ι} (h : ¬op.Nameable) :
    reshardName op.src op.dst = .error .badOptionalAccess := by
  obtain ⟨tile, htile⟩ := exists_namedTile op
  rw [ReshardOp.Nameable, Classical.not_imp] at h
  have hsrc : op.src.name = none := Option.not_isSome_iff_eq_none.mp h.2
  rw [reshardName, htile, ok_bind]
  simp only [if_pos h.1, hsrc, optionalValue_none]
  rfl

/-- The entry after an operation whose reshard has a name. -/
def recordedShape (entry : PointToPointReshard ε ι) (op : ReshardOp ε ι) :
    PointToPointReshard ε ι :=
  if entry.exists' then entry
  else { entry with
    fieldSize := supportedTypeSizeOf op.type
    shape := op.shape
    name := (reshardName op.src op.dst).toOption
    exists' := true }

theorem recordShape_eq_ok_iff {entry entry' : PointToPointReshard ε ι} {op : ReshardOp ε ι} :
    recordShape entry op = .ok entry' ↔
      (entry.exists' = false → op.Nameable) ∧ recordedShape entry op = entry' := by
  cases hexists : entry.exists' with
  | true => simp [recordShape, recordedShape, hexists]
  | false =>
      simp only [recordShape, recordedShape, hexists, if_neg Bool.false_ne_true, true_implies]
      by_cases h : op.Nameable
      · obtain ⟨name, hname⟩ := exists_reshardName h
        rw [hname, ok_bind, pure_eq_ok, Except.ok.injEq]
        exact (and_iff_right h).symm
      · rw [reshardName_of_not_nameable h, error_bind]
        exact iff_of_false (fun herror ↦ by cases herror) fun hboth ↦ h hboth.1

theorem recordShape_eq_ok {entry : PointToPointReshard ε ι} {op : ReshardOp ε ι}
    (h : entry.exists' = false → op.Nameable) :
    recordShape entry op = .ok (recordedShape entry op) :=
  recordShape_eq_ok_iff.mpr ⟨h, rfl⟩

/-! ## The flag of an entry -/

@[simp] theorem exists_recordedShape (entry : PointToPointReshard ε ι) (op : ReshardOp ε ι) :
    (recordedShape entry op).exists' = true := by
  unfold recordedShape
  split
  case isTrue h => exact h
  case isFalse => rfl

theorem exists_ensureAckBarrier (reshard : PointToPointReshard ε ι) (rt : Runtime ε ι)
    (localSpace targetSpace : ℕ) :
    (ensureAckBarrier reshard rt localSpace targetSpace).1.exists' = reshard.exists' := by
  unfold ensureAckBarrier
  split <;> rfl

variable [DecidableEq ε]

theorem exists_remoteCopy {reshard reshard' : PointToPointReshard ε ι} {rt rt' : Runtime ε ι}
    {src dst : Option ι} {ready pre event : Event (Signal ε)}
    (h : remoteCopyNextPendingToTarget reshard rt src dst ready pre = .ok (event, reshard', rt')) :
    reshard'.exists' = reshard.exists' := by
  unfold remoteCopyNextPendingToTarget at h
  obtain ⟨-, -, h⟩ := bind_eq_ok_iff.mp h
  obtain ⟨barrier, -, h⟩ := bind_eq_ok_iff.mp h
  cases h
  rfl

theorem exists_receivePointToPointNames {reshard reshard' : PointToPointReshard ε ι}
    {rt rt' : Runtime ε ι} {barrier : Option Barrier} {regionInstance : Option ι}
    (h : receivePointToPointNames reshard rt barrier regionInstance = .ok (reshard', rt')) :
    reshard'.exists' = reshard.exists' := by
  unfold receivePointToPointNames at h
  obtain ⟨-, -, h⟩ := bind_eq_ok_iff.mp h
  obtain ⟨ready, -, h⟩ := bind_eq_ok_iff.mp h
  split at h
  · split at h
    · obtain ⟨⟨event, copied, rt''⟩, hcopy, h⟩ := bind_eq_ok_iff.mp h
      obtain ⟨triggered, -, h⟩ := bind_eq_ok_iff.mp h
      cases h
      exact (exists_remoteCopy hcopy :)
    · cases h
      rfl
  · obtain ⟨⟨next, rt''⟩, -, h⟩ := bind_eq_ok_iff.mp h
    cases h
    rfl

/-- An operation of the source side can name its reshard, and leaves an entry
that exists. -/
theorem named_of_reshardFromLocalSource {reshard reshard' : PointToPointReshard ε ι}
    {rt rt' : Runtime ε ι} {localSpace targetSpace : ℕ} {op : ReshardOp ε ι}
    {event : Event (Signal ε)}
    (h : reshardFromLocalSource reshard rt localSpace targetSpace op =
      .ok (event, reshard', rt')) :
    (reshard.exists' = false → op.Nameable) ∧ reshard'.exists' = true := by
  obtain ⟨shaped, hrecord, h⟩ := bind_eq_ok_iff.mp h
  obtain ⟨hnamed, rfl⟩ := recordShape_eq_ok_iff.mp hrecord
  refine ⟨hnamed, ?_⟩
  have hexists := exists_ensureAckBarrier (recordedShape reshard op) rt localSpace targetSpace
  rw [exists_recordedShape] at hexists
  generalize ensureAckBarrier (recordedShape reshard op) rt localSpace targetSpace = ensured
    at h hexists
  obtain ⟨shaped, rt''⟩ := ensured
  dsimp only at h hexists
  split at h
  · cases h
    exact hexists
  · split at h
    · obtain ⟨⟨event', copied, rt'''⟩, hcopy, h⟩ := bind_eq_ok_iff.mp h
      cases h
      exact (exists_remoteCopy hcopy).trans hexists
    · obtain ⟨-, -, h⟩ := bind_eq_ok_iff.mp h
      obtain ⟨triggered, -, h⟩ := bind_eq_ok_iff.mp h
      cases h
      exact hexists

omit [DecidableEq ε] in
theorem exists_sendTargetName (reshard : PointToPointReshard ε ι) (rt : Runtime ε ι)
    (localSpace targetSpace : ℕ) (op : ReshardOp ε ι) :
    (sendTargetName reshard rt localSpace targetSpace op).1.exists' = reshard.exists' := by
  unfold sendTargetName
  split <;> rfl

/-- The same of the target side. -/
theorem named_of_reshardToLocalTarget {reshard reshard' : PointToPointReshard ε ι}
    {rt rt' : Runtime ε ι} {localSpace targetSpace : ℕ} {op : ReshardOp ε ι}
    {event : Event (Signal ε)}
    (h : reshardToLocalTarget reshard rt localSpace targetSpace op = .ok (event, reshard', rt')) :
    (reshard.exists' = false → op.Nameable) ∧ reshard'.exists' = true := by
  obtain ⟨shaped, hrecord, h⟩ := bind_eq_ok_iff.mp h
  obtain ⟨hnamed, rfl⟩ := recordShape_eq_ok_iff.mp hrecord
  refine ⟨hnamed, ?_⟩
  have hexists := exists_recordedShape reshard op
  generalize recordedShape reshard op = shaped at h hexists
  split at h
  · obtain ⟨-, -, h⟩ := bind_eq_ok_iff.mp h
    obtain ⟨triggered, -, h⟩ := bind_eq_ok_iff.mp h
    cases h
    exact hexists
  · have hsend := exists_sendTargetName shaped rt localSpace targetSpace op
    rw [hexists] at hsend
    generalize sendTargetName shaped rt localSpace targetSpace op = sent at h hsend
    obtain ⟨shaped', rt''⟩ := sent
    dsimp only at h hsend
    split at h
    · cases h
      exact hsend
    · cases h
      exact hsend

/-! ## The steps of a key -/

namespace KeyState

/-- What a step that succeeds has done. -/
inductive Stepped (spaces : KeySpaces) (state : KeyState ε ι) :
    KeyAction ε ι → KeyState ε ι → Prop where
  | source {op : ReshardOp ε ι} {event : Event (Signal ε)} {entry : PointToPointReshard ε ι}
      {rt : Runtime ε ι} :
      reshardFromLocalSource (state.entries spaces.source) state.runtime spaces.source
        spaces.target op = .ok (event, entry, rt) →
      Stepped spaces state (.source op) { state with
        entries := Function.update state.entries spaces.source entry
        runtime := rt
        sourceOps := state.sourceOps ++ [(op, event)] }
  | target {op : ReshardOp ε ι} {event : Event (Signal ε)} {entry : PointToPointReshard ε ι}
      {rt : Runtime ε ι} :
      reshardToLocalTarget (state.entries spaces.target) state.runtime spaces.target
        spaces.source op = .ok (event, entry, rt) →
      Stepped spaces state (.target op) { state with
        entries := Function.update state.entries spaces.target entry
        runtime := rt
        targetOps := state.targetOps ++ [(op, event)] }
  | idle {i : ℕ} : state.runtime.messages[i]? = none → Stepped spaces state (.deliver i) state
  | deliver {i : ℕ} {message : NameMessage ι} {entry : PointToPointReshard ε ι}
      {rt : Runtime ε ι} :
      state.runtime.messages[i]? = some message →
      receivePointToPointNames (state.entries message.target)
        { state.runtime with messages := state.runtime.messages.eraseIdx i }
        message.barrier message.regionInstance = .ok (entry, rt) →
      Stepped spaces state (.deliver i) { state with
        entries := Function.update state.entries message.target entry
        runtime := rt
        delivered := state.delivered ++ [message] }

variable {spaces : KeySpaces} {state state' : KeyState ε ι} {action : KeyAction ε ι}

theorem stepped_of_step (h : state.step spaces action = .ok state') :
    Stepped spaces state action state' := by
  cases action with
  | source op =>
      obtain ⟨⟨event, entry, rt⟩, hrun, h⟩ := bind_eq_ok_iff.mp h
      cases h
      exact .source hrun
  | target op =>
      obtain ⟨⟨event, entry, rt⟩, hrun, h⟩ := bind_eq_ok_iff.mp h
      cases h
      exact .target hrun
  | deliver i =>
      rw [step] at h
      split at h
      case h_1 hnone =>
        cases h
        exact .idle hnone
      case h_2 message hmessage =>
        obtain ⟨⟨entry, rt⟩, hrun, h⟩ := bind_eq_ok_iff.mp h
        cases h
        exact .deliver hmessage hrun

end KeyState

/-! ## The first operation of an entry -/

/-- The entry that an action operates on, and the operation. -/
def KeyAction.use (spaces : KeySpaces) : KeyAction ε ι → Option (ℕ × ReshardOp ε ι)
  | .source op => some (spaces.source, op)
  | .target op => some (spaces.target, op)
  | .deliver _ => none

/-- The operations of a run at the entry of an address space. -/
def opsAt (spaces : KeySpaces) (space : ℕ) (actions : List (KeyAction ε ι)) :
    List (ReshardOp ε ι) :=
  ((actions.filterMap (KeyAction.use spaces)).filter fun use ↦ decide (use.1 = space)).map
    Prod.snd

/-- The first operation of each entry can name its reshard. -/
def FirstNamed (spaces : KeySpaces) (actions : List (KeyAction ε ι)) : Prop :=
  ∀ space ∈ [spaces.source, spaces.target], ∀ op ∈ (opsAt spaces space actions).head?, op.Nameable

instance (spaces : KeySpaces) (actions : List (KeyAction ε ι)) :
    Decidable (FirstNamed spaces actions) :=
  inferInstanceAs (Decidable (∀ space ∈ [spaces.source, spaces.target], _))

/-- The same from a state on, whose entries may exist. -/
def NamedFrom (spaces : KeySpaces) (state : KeyState ε ι) (actions : List (KeyAction ε ι)) : Prop :=
  ∀ space ∈ [spaces.source, spaces.target], (state.entries space).exists' = false →
    ∀ op ∈ (opsAt spaces space actions).head?, op.Nameable

/-- An action that uses an entry for the first time can name its reshard. -/
def NamesStep (spaces : KeySpaces) (state : KeyState ε ι) (action : KeyAction ε ι) : Prop :=
  ∀ use ∈ action.use spaces, (state.entries use.1).exists' = false → use.2.Nameable

section Named

variable {spaces : KeySpaces} {state state' : KeyState ε ι} {action : KeyAction ε ι}
  {actions : List (KeyAction ε ι)}

omit [DecidableEq ε] in
theorem namedFrom_init : NamedFrom spaces {} actions ↔ FirstNamed spaces actions := by
  constructor
  · intro h space hspace
    exact h space hspace rfl
  · intro h space hspace _
    exact h space hspace

omit [DecidableEq ε] in
theorem opsAt_cons_of_use {space : ℕ} {op : ReshardOp ε ι}
    (huse : action.use spaces = some (space, op)) :
    opsAt spaces space (action :: actions) = op :: opsAt spaces space actions := by
  rw [opsAt, List.filterMap_cons_some huse, List.filter_cons_of_pos (by simp)]
  rfl

omit [DecidableEq ε] in
theorem opsAt_cons_of_not_use {space : ℕ}
    (huse : ∀ op, action.use spaces ≠ some (space, op)) :
    opsAt spaces space (action :: actions) = opsAt spaces space actions := by
  cases hnone : action.use spaces with
  | none => rw [opsAt, List.filterMap_cons_none hnone]; rfl
  | some used =>
      have hne : ¬used.1 = space := by
        rintro rfl
        exact huse used.2 hnone
      rw [opsAt, List.filterMap_cons_some hnone, List.filter_cons_of_neg (by simpa using hne)]
      rfl

theorem namesStep_of_stepped (h : state.Stepped spaces action state') :
    NamesStep spaces state action := by
  intro use huse
  cases h with
  | source hrun =>
      obtain rfl := Option.some.inj huse
      exact (named_of_reshardFromLocalSource hrun).1
  | target hrun =>
      obtain rfl := Option.some.inj huse
      exact (named_of_reshardToLocalTarget hrun).1
  | idle => cases huse
  | deliver => cases huse

omit [DecidableEq ε] in
theorem exists_update_of_use {entries : ℕ → PointToPointReshard ε ι} {used : ℕ}
    {op : ReshardOp ε ι} {entry : PointToPointReshard ε ι}
    (huse : action.use spaces = some (used, op)) (hentry : entry.exists' = true) (space : ℕ) :
    (Function.update entries used entry space).exists' = true ↔
      (entries space).exists' = true ∨ ∃ op, action.use spaces = some (space, op) := by
  by_cases heq : space = used
  · subst heq
    rw [Function.update_self]
    exact iff_of_true hentry (Or.inr ⟨op, huse⟩)
  · rw [Function.update_of_ne heq, huse]
    exact (or_iff_left fun ⟨_, hused⟩ ↦ heq (congrArg Prod.fst (Option.some.inj hused)).symm).symm

/-- Exactly the entry that an action uses exists from then on. -/
theorem exists_of_stepped (h : state.Stepped spaces action state') (space : ℕ) :
    (state'.entries space).exists' = true ↔
      (state.entries space).exists' = true ∨ ∃ op, action.use spaces = some (space, op) := by
  cases h with
  | source hrun =>
      exact exists_update_of_use rfl (named_of_reshardFromLocalSource hrun).2 space
  | target hrun =>
      exact exists_update_of_use rfl (named_of_reshardToLocalTarget hrun).2 space
  | idle => simp [KeyAction.use]
  | @deliver i message entry rt hmessage hrun =>
      dsimp only
      by_cases heq : space = message.target
      · subst heq
        rw [Function.update_self, exists_receivePointToPointNames hrun]
        simp [KeyAction.use]
      · rw [Function.update_of_ne heq]
        simp [KeyAction.use]

omit [DecidableEq ε] in
/-- The entries of a key are those of its two address spaces. -/
theorem mem_of_use {space : ℕ} {op : ReshardOp ε ι} (huse : action.use spaces = some (space, op)) :
    space ∈ [spaces.source, spaces.target] := by
  cases action with
  | source =>
      obtain rfl : spaces.source = space := congrArg Prod.fst (Option.some.inj huse)
      exact List.mem_cons_self
  | target =>
      obtain rfl : spaces.target = space := congrArg Prod.fst (Option.some.inj huse)
      exact List.mem_cons_of_mem _ List.mem_cons_self
  | deliver => cases huse

omit [DecidableEq ε] in
theorem namesStep_of_namedFrom (h : NamedFrom spaces state (action :: actions)) :
    NamesStep spaces state action := by
  rintro ⟨space, op⟩ huse hnot
  refine h space (mem_of_use huse) hnot op ?_
  rw [opsAt_cons_of_use huse]
  rfl

theorem namedFrom_cons (h : state.Stepped spaces action state') :
    NamedFrom spaces state (action :: actions) ↔
      NamesStep spaces state action ∧ NamedFrom spaces state' actions := by
  constructor
  · intro hnamed
    refine ⟨namesStep_of_stepped h, fun space hmem hnot op hop ↦ ?_⟩
    have hstepped := mt (exists_of_stepped h space).mpr (by simp [hnot])
    push Not at hstepped
    refine hnamed space hmem (by simpa using hstepped.1) op ?_
    rwa [opsAt_cons_of_not_use hstepped.2]
  · rintro ⟨hstep, hnamed⟩ space hmem hnot op hop
    by_cases huse : ∃ op, action.use spaces = some (space, op)
    · obtain ⟨used, huse⟩ := huse
      rw [opsAt_cons_of_use huse] at hop
      obtain rfl : used = op := by simpa using hop
      exact hstep _ huse hnot
    · rw [opsAt_cons_of_not_use (not_exists.mp huse)] at hop
      refine hnamed space hmem ?_ op hop
      have hstepped := mt (exists_of_stepped h space).mp (by simp [hnot, huse])
      simpa using hstepped

end Named

/-- A run that succeeds has named what it had to. -/
theorem KeyState.named_of_run {spaces : KeySpaces} {state final : KeyState ε ι}
    {actions : List (KeyAction ε ι)} (h : KeyState.run spaces state actions = .ok final) :
    NamedFrom spaces state actions := by
  induction actions generalizing state with
  | nil =>
      intro space _ _ op hop
      cases hop
  | cons action actions ih =>
      obtain ⟨state', hstep, h⟩ := bind_eq_ok_iff.mp h
      have hstepped := KeyState.stepped_of_step hstep
      exact (namedFrom_cons hstepped).mpr ⟨namesStep_of_stepped hstepped, ih h⟩

/-! ## The logs of a run -/

def KeyAction.sourceOp : KeyAction ε ι → Option (ReshardOp ε ι)
  | .source op => some op
  | _ => none

def KeyAction.targetOp : KeyAction ε ι → Option (ReshardOp ε ι)
  | .target op => some op
  | _ => none

/-- The message that an action finds in flight and delivers. -/
def KeyAction.message (state : KeyState ε ι) : KeyAction ε ι → Option (NameMessage ι)
  | .deliver i => state.runtime.messages[i]?
  | _ => none

/-- The messages that the deliveries of a run find in flight. -/
def deliveries (spaces : KeySpaces) : KeyState ε ι → List (KeyAction ε ι) → List (NameMessage ι)
  | _, [] => []
  | state, action :: actions => (action.message state).toList ++
      match state.step spaces action with
      | .ok state' => deliveries spaces state' actions
      | .error _ => []

/-- The `k`-th logged operation of a side is its `k`-th in the run, and the
messages that the deliveries found are logged as delivered. -/
structure Logged (spaces : KeySpaces) (actions : List (KeyAction ε ι)) (state : KeyState ε ι) :
    Prop where
  sourceOps : state.sourceOps.map Prod.fst = actions.filterMap KeyAction.sourceOp
  targetOps : state.targetOps.map Prod.fst = actions.filterMap KeyAction.targetOp
  delivered : state.delivered = deliveries spaces {} actions

theorem filterMap_cons_append {α β : Type} (f : α → Option β) (x : α) (xs : List α) :
    (x :: xs).filterMap f = (f x).toList ++ xs.filterMap f := by
  cases hx : f x with
  | none => rw [List.filterMap_cons_none hx]; rfl
  | some y => rw [List.filterMap_cons_some hx]; rfl

theorem deliveries_cons {spaces : KeySpaces} {state state' : KeyState ε ι}
    {action : KeyAction ε ι} (hstep : state.step spaces action = .ok state')
    (actions : List (KeyAction ε ι)) :
    deliveries spaces state (action :: actions) =
      (action.message state).toList ++ deliveries spaces state' actions := by
  rw [deliveries, hstep]

/-- A step logs its own operation or message. -/
theorem logs_of_stepped {spaces : KeySpaces} {state state' : KeyState ε ι}
    {action : KeyAction ε ι} (h : state.Stepped spaces action state') :
    state'.sourceOps.map Prod.fst = state.sourceOps.map Prod.fst ++ action.sourceOp.toList ∧
      state'.targetOps.map Prod.fst = state.targetOps.map Prod.fst ++ action.targetOp.toList ∧
      state'.delivered = state.delivered ++ (action.message state).toList := by
  cases h with
  | source => simp [KeyAction.sourceOp, KeyAction.targetOp, KeyAction.message]
  | target => simp [KeyAction.sourceOp, KeyAction.targetOp, KeyAction.message]
  | idle hi => simp [KeyAction.sourceOp, KeyAction.targetOp, KeyAction.message, hi]
  | deliver hi => simp [KeyAction.sourceOp, KeyAction.targetOp, KeyAction.message, hi]

theorem KeyState.logs_of_run {spaces : KeySpaces} {state final : KeyState ε ι}
    {actions : List (KeyAction ε ι)} (h : KeyState.run spaces state actions = .ok final) :
    final.sourceOps.map Prod.fst =
        state.sourceOps.map Prod.fst ++ actions.filterMap KeyAction.sourceOp ∧
      final.targetOps.map Prod.fst =
        state.targetOps.map Prod.fst ++ actions.filterMap KeyAction.targetOp ∧
      final.delivered = state.delivered ++ deliveries spaces state actions := by
  induction actions generalizing state with
  | nil =>
      obtain rfl : state = final := Except.ok.inj h
      simp [deliveries]
  | cons action actions ih =>
      obtain ⟨state', hstep, h⟩ := bind_eq_ok_iff.mp h
      obtain ⟨hsources, htargets, hdelivered⟩ := ih h
      obtain ⟨hsource, htarget, hmessage⟩ := logs_of_stepped (KeyState.stepped_of_step hstep)
      rw [hsources, htargets, hdelivered, hsource, htarget, hmessage, filterMap_cons_append,
        filterMap_cons_append, deliveries_cons hstep]
      simp only [List.append_assoc, and_self]

theorem KeyState.logged_of_run {spaces : KeySpaces} {final : KeyState ε ι}
    {actions : List (KeyAction ε ι)} (h : KeyState.run spaces {} actions = .ok final) :
    Logged spaces actions final := by
  obtain ⟨hsources, htargets, hdelivered⟩ := KeyState.logs_of_run h
  exact ⟨hsources, htargets, hdelivered⟩

end Zuku
