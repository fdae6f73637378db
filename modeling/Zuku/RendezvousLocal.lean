import Zuku.RendezvousLossless

/-!
# Rendezvous in one address space

When both shards of a key are in one address space, both sides meet in one
entry, and the operations are matched first in, first out, if the first of them
can name its reshard.
-/

namespace Zuku

open Checked Event FifoMatching

variable {ε ι : Type} [DecidableEq ε]

/-- What holds of the common entry and the runtime between two steps. -/
structure LocalInv (first : Option (ReshardOp ε ι)) (sources targets : List (Served ε ι))
    (entry : PointToPointReshard ε ι) (rt : Runtime ε ι) : Prop where
  recorded : Recorded entry first
  isSome_first : sources ≠ [] ∨ targets ≠ [] → first.isSome
  ackDone : entry.ackDoneBarrier = none
  matching : ∃ matched, Matching (sources.map pendingOf) (targets.map pendingOf)
      entry.pendingSourceReshards entry.pendingDestReshards matched ∧
    rt.copies = matched.map (copyOf entry.shape entry.fieldSize)
  userEvents : UserEvents copyEvent copyEvent sources targets rt.copies.length rt.copies.length
    rt.numUserEvents rt.triggers
  noMessages : rt.messages = []
  noBarriers : rt.numBarriers = 0

section Steps

variable {first : Option (ReshardOp ε ι)} {sources targets : List (Served ε ι)}
  {entry : PointToPointReshard ε ι} {rt : Runtime ε ι}

theorem LocalInv.length_copies (h : LocalInv first sources targets entry rt) :
    rt.copies.length = min sources.length targets.length := by
  obtain ⟨matched, hmatching, hcopies⟩ := h.matching
  rw [hcopies, List.length_map, hmatching.length_matched, List.length_map, List.length_map]

theorem LocalInv.recordFirst (h : LocalInv first sources targets entry rt) (op : ReshardOp ε ι) :
    LocalInv (some (first.getD op)) sources targets (recordedShape entry op) rt := by
  cases first with
  | some first => rwa [recordedShape_of_recorded h.recorded]
  | none =>
      have hnil : sources = [] ∧ targets = [] := by
        have hfirst := mt h.isSome_first (by simp)
        push Not at hfirst
        exact hfirst
      obtain ⟨rfl, rfl⟩ := hnil
      obtain ⟨matched, hmatching, hcopies⟩ := h.matching
      refine ⟨h.recorded.recordedShape op, fun _ ↦ rfl, ?_, ⟨matched, ?_, ?_⟩, h.userEvents,
        h.noMessages, h.noBarriers⟩
      · rw [recordedShape_ackDoneBarrier, h.ackDone]
      · simpa using hmatching
      · rw [hcopies, hmatching.matched_eq]
        rfl

/-- A source operation that finds no target operation waits. -/
theorem LocalInv.source_wait (h : LocalInv first sources targets entry rt) (hfirst : first.isSome)
    (op : ReshardOp ε ι) (hpending : entry.pendingDestReshards = []) :
    LocalInv first (sources ++ [(op, some rt.numUserEvents)]) targets
      { entry with
        pendingSourceReshards := entry.pendingSourceReshards ++
          [⟨op.precondition, some rt.numUserEvents, some op.regionInstance⟩] }
      { rt with numUserEvents := rt.numUserEvents + 1 } := by
  obtain ⟨matched, hmatching, hcopies⟩ := h.matching
  refine ⟨h.recorded, fun _ ↦ hfirst, h.ackDone, ⟨matched, ?_, hcopies⟩, ?_, h.noMessages,
    h.noBarriers⟩
  · rw [List.map_append, List.map_singleton, hpending]
    exact hmatching.pushLeft_wait hpending _
  · apply h.userEvents.source_wait
    rw [h.length_copies]
    exact Nat.min_le_left _ _

/-- A target operation that finds no source operation waits. -/
theorem LocalInv.target_wait (h : LocalInv first sources targets entry rt) (hfirst : first.isSome)
    (op : ReshardOp ε ι) (hpending : entry.pendingSourceReshards = []) :
    LocalInv first sources (targets ++ [(op, some rt.numUserEvents)])
      { entry with
        pendingDestReshards := entry.pendingDestReshards ++
          [⟨op.precondition, some rt.numUserEvents, some op.regionInstance⟩] }
      { rt with numUserEvents := rt.numUserEvents + 1 } := by
  obtain ⟨matched, hmatching, hcopies⟩ := h.matching
  refine ⟨h.recorded, fun _ ↦ hfirst, h.ackDone, ⟨matched, ?_, hcopies⟩, ?_, h.noMessages,
    h.noBarriers⟩
  · rw [List.map_append, List.map_singleton, hpending]
    exact hmatching.pushRight_wait hpending _
  · apply (h.userEvents.swap.source_wait _ op).swap
    rw [h.length_copies]
    exact Nat.min_le_right _ _

/-- A source operation that finds a target operation issues the copy to it. -/
theorem LocalInv.source_match (h : LocalInv first sources targets entry rt)
    (hfirst : first.isSome) (op : ReshardOp ε ι) {dest : PendingOp ε ι}
    {pending : List (PendingOp ε ι)} (hpending : entry.pendingDestReshards = dest :: pending) :
    ∃ id, dest.postconditionToTrigger = some id ∧ rt.copies.length = sources.length ∧
    LocalInv first (sources ++ [(op, none)]) targets
      { entry with pendingDestReshards := pending }
      { rt with
        copies := rt.copies ++ [⟨entry.shape, entry.fieldSize, some op.regionInstance,
          dest.partnerInstance, mergeEvents dest.precondition op.precondition⟩]
        triggers := rt.triggers ++ [(id, copyEvent rt.copies.length)] } := by
  obtain ⟨matched, hmatching, hcopies⟩ := h.matching
  have hdrop := hmatching.pendingRight_eq.symm.trans hpending
  have hempty : entry.pendingSourceReshards = [] := hmatching.pendingLeft_eq_nil hpending
  have hlength : rt.copies.length = sources.length := by
    rw [hcopies, List.length_map, hmatching.length_matched_of_left hempty, List.length_map]
  rw [List.length_map, ← hlength] at hdrop
  obtain ⟨waiting, id, hwaiting, rfl⟩ := h.userEvents.swap.exists_waiting hdrop
  refine ⟨id, rfl, hlength, h.recorded, fun _ ↦ hfirst, h.ackDone,
    ⟨matched ++ [(pendingOf (op, none), pendingOf (waiting, some id))], ?_, ?_⟩, ?_,
    h.noMessages, h.noBarriers⟩
  · rw [List.map_append, List.map_singleton, hempty]
    exact hmatching.pushLeft_match hpending (pendingOf (op, none))
  · rw [hcopies, List.map_append]
    rfl
  · rw [List.length_append, List.length_singleton]
    exact ((h.userEvents.swap.source_trigger hwaiting).swap).source_serve hlength.ge
      (Nat.lt_succ_of_le hlength.ge) op

/-- A target operation that finds a source operation issues the copy from it. -/
theorem LocalInv.target_match (h : LocalInv first sources targets entry rt)
    (hfirst : first.isSome) (op : ReshardOp ε ι) {source : PendingOp ε ι}
    {pending : List (PendingOp ε ι)} (hpending : entry.pendingSourceReshards = source :: pending) :
    ∃ id, source.postconditionToTrigger = some id ∧ rt.copies.length = targets.length ∧
    LocalInv first sources (targets ++ [(op, none)])
      { entry with pendingSourceReshards := pending }
      { rt with
        copies := rt.copies ++ [⟨entry.shape, entry.fieldSize, source.partnerInstance,
          some op.regionInstance, mergeEvents source.precondition op.precondition⟩]
        triggers := rt.triggers ++ [(id, copyEvent rt.copies.length)] } := by
  obtain ⟨matched, hmatching, hcopies⟩ := h.matching
  have hdrop := hmatching.pendingLeft_eq.symm.trans hpending
  have hempty : entry.pendingDestReshards = [] := hmatching.pendingRight_eq_nil hpending
  have hlength : rt.copies.length = targets.length := by
    rw [hcopies, List.length_map, hmatching.length_matched_of_right hempty, List.length_map]
  rw [List.length_map, ← hlength] at hdrop
  obtain ⟨waiting, id, hwaiting, rfl⟩ := h.userEvents.exists_waiting hdrop
  refine ⟨id, rfl, hlength, h.recorded, fun _ ↦ hfirst, h.ackDone,
    ⟨matched ++ [(pendingOf (waiting, some id), pendingOf (op, none))], ?_, ?_⟩, ?_,
    h.noMessages, h.noBarriers⟩
  · rw [List.map_append, List.map_singleton, hempty]
    exact hmatching.pushRight_match hpending (pendingOf (op, none))
  · rw [hcopies, List.map_append, mergeEvents_comm]
    rfl
  · rw [List.length_append, List.length_singleton]
    exact ((h.userEvents.source_trigger hwaiting).swap.source_serve hlength.ge
      (Nat.lt_succ_of_le hlength.ge) op).swap

/-- A source operation of a key in one address space. -/
theorem LocalInv.reshardFromLocalSource (h : LocalInv first sources targets entry rt) (space : ℕ)
    {op : ReshardOp ε ι} (hnamed : entry.exists' = false → op.Nameable) :
    ∃ handle entry' rt',
      reshardFromLocalSource entry rt space space op =
        .ok (returned (copyEvent sources.length) handle, entry', rt') ∧
      LocalInv (some (first.getD op)) (sources ++ [(op, handle)]) targets entry' rt' := by
  have hshaped := h.recordFirst op
  have hensure : ensureAckBarrier (recordedShape entry op) rt space space =
      (recordedShape entry op, rt) :=
    if_neg (by simp)
  simp only [Zuku.reshardFromLocalSource, getProtocol_eq, rendezvousReshardFromLocalSource,
    recordShape_eq_ok hnamed, ok_bind, hensure]
  generalize recordedShape entry op = shaped at hshaped
  cases hpending : shaped.pendingDestReshards with
  | nil =>
      have hwait := hshaped.source_wait rfl op hpending
      rw [hpending] at hwait
      exact ⟨some rt.numUserEvents, _, _, rfl, hwait⟩
  | cons dest pending =>
      obtain ⟨id, hid, hlength, hmatch⟩ := hshaped.source_match rfl op hpending
      have hack : assertThat (shaped.ackDoneBarrier = none) = .ok () :=
        assertThat_of hshaped.ackDone
      refine ⟨none, _, _, ?_, hmatch⟩
      simp only [ne_eq, not_true_eq_false, if_false, hack, ok_bind, hid, ← hlength]
      rfl

/-- A target operation of a key in one address space. -/
theorem LocalInv.reshardToLocalTarget (h : LocalInv first sources targets entry rt) (space : ℕ)
    {op : ReshardOp ε ι} (hnamed : entry.exists' = false → op.Nameable) :
    ∃ handle entry' rt',
      reshardToLocalTarget entry rt space space op =
        .ok (returned (copyEvent targets.length) handle, entry', rt') ∧
      LocalInv (some (first.getD op)) sources (targets ++ [(op, handle)]) entry' rt' := by
  have hshaped := h.recordFirst op
  have hsend (shaped : PointToPointReshard ε ι) : sendTargetName shaped rt space space op =
      (shaped, rt) := if_neg (by simp)
  simp only [Zuku.reshardToLocalTarget, getProtocol_eq, rendezvousReshardToLocalTarget,
    recordShape_eq_ok hnamed, ok_bind, hsend]
  generalize recordedShape entry op = shaped at hshaped
  cases hpending : shaped.pendingSourceReshards with
  | nil =>
      have hwait := hshaped.target_wait rfl op hpending
      rw [hpending] at hwait
      refine ⟨some rt.numUserEvents, _, _, ?_, hwait⟩
      simp only [hshaped.ackDone]
      rfl
  | cons source pending =>
      obtain ⟨id, hid, hlength, hmatch⟩ := hshaped.target_match rfl op hpending
      refine ⟨none, _, _, ?_, hmatch⟩
      simp only [hid, ← hlength]
      rfl

end Steps

/-! ## The guarantee -/

/-- The operations of a key in one address space are matched in order. -/
structure FifoMatched (space : ℕ) (state : KeyState ε ι) : Prop where
  one_queue : (state.entries space).pendingSourceReshards = [] ∨
    (state.entries space).pendingDestReshards = []
  length_copies : state.runtime.copies.length =
    min state.sourceOps.length state.targetOps.length
  copy_pairs : ∀ (k : ℕ) copy, state.runtime.copies[k]? = some copy →
    ∃ source target, state.sourceOps[k]? = some source ∧ state.targetOps[k]? = some target ∧
      copy.srcInstance = some source.1.regionInstance ∧
      copy.dstInstance = some target.1.regionInstance ∧
      copy.precondition = mergeEvents target.1.precondition source.1.precondition
  source_given : ∀ (k : ℕ) source, state.sourceOps[k]? = some source →
    GivenBy state.runtime.triggers source.2 {.copyDone k} (k < state.runtime.copies.length)
  target_given : ∀ (k : ℕ) target, state.targetOps[k]? = some target →
    GivenBy state.runtime.triggers target.2 {.copyDone k} (k < state.runtime.copies.length)
  trigger_once : (state.runtime.triggers.map Prod.fst).Nodup
  trigger_given : ∀ t ∈ state.runtime.triggers, {.userEvent t.1} ∈ eventsGiven state
  given_once : ∀ id, (eventsGiven state).count {.userEvent id} ≤ 1
  no_ack : (state.entries space).ackDoneBarrier = none ∧ state.runtime.numBarriers = 0

/-- The states of a key in one address space. -/
def LocalState (space : ℕ) (state : KeyState ε ι) : Prop :=
  ∃ first sources targets,
    state.sourceOps = answers copyEvent sources ∧
    state.targetOps = answers copyEvent targets ∧
    LocalInv first sources targets (state.entries space) state.runtime

section States

variable {space : ℕ} {state : KeyState ε ι}

theorem localState_init : LocalState space ({} : KeyState ε ι) :=
  ⟨none, [], [], rfl, rfl, rfl, by simp, rfl, ⟨[], matching_nil, rfl⟩, UserEvents.nil, rfl, rfl⟩

theorem LocalState.step (h : LocalState space state) {action : KeyAction ε ι}
    (hnamed : NamesStep ⟨space, space⟩ state action) :
    ∃ state', state.step ⟨space, space⟩ action = .ok state' ∧ LocalState space state' := by
  obtain ⟨first, sources, targets, hsources, htargets, hinv⟩ := h
  cases action with
  | source op =>
      obtain ⟨handle, entry', rt', hrun, hinv'⟩ := 
        hinv.reshardFromLocalSource space (hnamed _ rfl)
      refine ⟨_, KeyState.step_source hrun, some (first.getD op), sources ++ [(op, handle)],
        targets, ?_, htargets, ?_⟩
      · rw [answers_push]
        exact congrArg (· ++ _) hsources
      · simpa using hinv'
  | target op =>
      obtain ⟨handle, entry', rt', hrun, hinv'⟩ := 
        hinv.reshardToLocalTarget space (hnamed _ rfl)
      refine ⟨_, KeyState.step_target hrun, some (first.getD op), sources,
        targets ++ [(op, handle)], hsources, ?_, ?_⟩
      · rw [answers_push]
        exact congrArg (· ++ _) htargets
      · simpa using hinv'
  | deliver i =>
      have hnone : state.runtime.messages[i]? = none := by rw [hinv.noMessages]; rfl
      exact ⟨state, KeyState.step_deliver_none hnone, first, sources, targets, hsources, htargets,
        hinv⟩

theorem LocalInv.getElem?_copies {first : Option (ReshardOp ε ι)}
    {sources targets : List (Served ε ι)} {entry : PointToPointReshard ε ι} {rt : Runtime ε ι}
    (h : LocalInv first sources targets entry rt) {k : ℕ} {copy : Copy ε ι}
    (hcopy : rt.copies[k]? = some copy) :
    ∃ source target, sources[k]? = some source ∧ targets[k]? = some target ∧
      copy = copyOf entry.shape entry.fieldSize (pendingOf source, pendingOf target) := by
  obtain ⟨matched, hmatching, hcopies⟩ := h.matching
  rw [hcopies] at hcopy
  exact exists_copied hmatching hcopy

theorem LocalState.fifoMatched (h : LocalState space state) : FifoMatched space state := by
  obtain ⟨first, sources, targets, hsources, htargets, hinv⟩ := h
  obtain ⟨matched, hmatching, -⟩ := hinv.matching
  refine ⟨hmatching.one_side_empty, ?_, ?_, ?_, ?_, ?_, ?_, ?_, hinv.ackDone, hinv.noBarriers⟩
  · rw [hsources, htargets, length_answers, length_answers]
    exact hinv.length_copies
  · intro k copy hcopy
    obtain ⟨source, target, hsource, htarget, rfl⟩ := hinv.getElem?_copies hcopy
    exact ⟨(source.1, _), (target.1, _), hsources ▸ answers_getElem? _ hsource,
      htargets ▸ answers_getElem? _ htarget, rfl, rfl, rfl⟩
  · intro k source hsource
    rw [hsources] at hsource
    obtain ⟨op, hop, rfl⟩ := getElem?_answers hsource
    exact hinv.userEvents.givenBy_source hop
  · intro k target htarget
    rw [htargets] at htarget
    obtain ⟨op, hop, rfl⟩ := getElem?_answers htarget
    exact hinv.userEvents.swap.givenBy_source hop
  · exact hinv.userEvents.nodup_triggers
  · exact hinv.userEvents.mem_eventsGiven hsources htargets
  · exact hinv.userEvents.count_eventsGiven copyEvent_ne_userEvent copyEvent_ne_userEvent hsources
      htargets

end States

/-! ## All keys -/

/-- What holds of every key, in one address space or two. -/
def KeyInv (spaces : KeySpaces) (state : KeyState ε ι) : Prop :=
  if spaces.source = spaces.target then LocalState spaces.source state
  else ∃ inOrder, CrossState spaces inOrder state

theorem keyInv_init (spaces : KeySpaces) : KeyInv spaces ({} : KeyState ε ι) := by
  rw [KeyInv]
  split
  · exact localState_init
  · exact ⟨True, crossState_init⟩

theorem KeyInv.step {spaces : KeySpaces} {state : KeyState ε ι} (h : KeyInv spaces state)
    {action : KeyAction ε ι} (hnamed : NamesStep spaces state action) :
    ∃ state', state.step spaces action = .ok state' ∧ KeyInv spaces state' := by
  obtain ⟨space, space'⟩ := spaces
  by_cases heq : space = space'
  · subst heq
    rw [KeyInv, if_pos rfl] at h
    obtain ⟨state', hstep, h'⟩ := h.step hnamed
    exact ⟨state', hstep, by rwa [KeyInv, if_pos rfl]⟩
  · rw [KeyInv, if_neg heq] at h
    obtain ⟨inOrder, h⟩ := h
    obtain ⟨state', hstep, h'⟩ := h.step heq hnamed
    refine ⟨state', hstep, ?_⟩
    rw [KeyInv, if_neg heq]
    exact ⟨_, h'⟩

section Keys

variable {κ : Type} [DecidableEq κ] {spaces : κ → KeySpaces} {reshards : PointToPointReshards κ ε ι}

/-- The actions of one key. -/
def actionsOf (key : κ) (actions : List (κ × KeyAction ε ι)) : List (KeyAction ε ι) :=
  (actions.filter fun action ↦ decide (action.1 = key)).map Prod.snd

omit [DecidableEq ε] in
theorem actionsOf_cons_self (key : κ) (action : KeyAction ε ι)
    (actions : List (κ × KeyAction ε ι)) :
    actionsOf key ((key, action) :: actions) = action :: actionsOf key actions := by
  rw [actionsOf, List.filter_cons_of_pos (by simp)]
  rfl

omit [DecidableEq ε] in
theorem actionsOf_cons_of_ne {key other : κ} (hne : other ≠ key) (action : KeyAction ε ι)
    (actions : List (κ × KeyAction ε ι)) :
    actionsOf key ((other, action) :: actions) = actionsOf key actions := by
  rw [actionsOf, List.filter_cons_of_neg (by simpa using hne)]
  rfl

/-- A run of all keys is a run of every key. -/
theorem PointToPointReshards.run_key {actions : List (κ × KeyAction ε ι)}
    {final : PointToPointReshards κ ε ι} (hrun : reshards.run spaces actions = .ok final)
    (key : κ) :
    KeyState.run (spaces key) (reshards key) (actionsOf key actions) = .ok (final key) := by
  induction actions generalizing reshards with
  | nil =>
      obtain rfl : reshards = final := Except.ok.inj hrun
      rfl
  | cons action actions ih =>
      obtain ⟨other, action⟩ := action
      obtain ⟨reshards', hstep, hrun⟩ := bind_eq_ok_iff.mp hrun
      obtain ⟨state', hkey, hupdate⟩ := bind_eq_ok_iff.mp hstep
      obtain rfl : Function.update reshards other state' = reshards' := Except.ok.inj hupdate
      have hrest := ih hrun
      by_cases heq : other = key
      · subst heq
        rw [Function.update_self] at hrest
        rw [actionsOf_cons_self, KeyState.run, hkey, ok_bind]
        exact hrest
      · rw [Function.update_of_ne (Ne.symm heq)] at hrest
        rw [actionsOf_cons_of_ne heq]
        exact hrest

theorem PointToPointReshards.step_keyInv (h : ∀ key, KeyInv (spaces key) (reshards key))
    {key : κ} {action : KeyAction ε ι} (hnamed : NamesStep (spaces key) (reshards key) action) :
    ∃ reshards', reshards.step spaces key action = .ok reshards' ∧
      ∀ key, KeyInv (spaces key) (reshards' key) := by
  obtain ⟨state', hstep, hstate⟩ := (h key).step hnamed
  refine ⟨Function.update reshards key state', ?_, ?_⟩
  · rw [PointToPointReshards.step, hstep]
    rfl
  · intro other
    by_cases heq : other = key
    · subst heq
      rwa [Function.update_self]
    · rw [Function.update_of_ne heq]
      exact h other

theorem PointToPointReshards.run_keyInv (h : ∀ key, KeyInv (spaces key) (reshards key))
    {actions : List (κ × KeyAction ε ι)}
    (hnamed : ∀ key, NamedFrom (spaces key) (reshards key) (actionsOf key actions)) :
    ∃ reshards', reshards.run spaces actions = .ok reshards' ∧
      ∀ key, KeyInv (spaces key) (reshards' key) := by
  induction actions generalizing reshards with
  | nil => exact ⟨reshards, rfl, h⟩
  | cons action actions ih =>
      obtain ⟨key, action⟩ := action
      have hkey := hnamed key
      rw [actionsOf_cons_self] at hkey
      obtain ⟨reshards', hstep, h'⟩ :=
        PointToPointReshards.step_keyInv h (namesStep_of_namedFrom hkey)
      obtain ⟨state', hstate, hupdate⟩ := bind_eq_ok_iff.mp hstep
      obtain rfl : Function.update reshards key state' = reshards' := Except.ok.inj hupdate
      have hrest (other : κ) : NamedFrom (spaces other)
          (Function.update reshards key state' other) (actionsOf other actions) := by
        by_cases heq : other = key
        · subst heq
          rw [Function.update_self]
          exact ((namedFrom_cons (KeyState.stepped_of_step hstate)).mp hkey).2
        · rw [Function.update_of_ne heq]
          have hother := hnamed other
          rwa [actionsOf_cons_of_ne (Ne.symm heq)] at hother
      obtain ⟨final, hrun, hfinal⟩ := ih h' hrest
      exact ⟨final, by rw [PointToPointReshards.run, hstep, ok_bind, hrun], hfinal⟩

/-- An interleaving of the operations of any number of keys runs without a fault,
and matches the operations of each key in one address space first in, first out,
if and only if the first operation of every entry can name its reshard. -/
theorem run_fifoMatched (spaces : κ → KeySpaces) (actions : List (κ × KeyAction ε ι)) :
    (∃ reshards, PointToPointReshards.run spaces (fun _ ↦ {}) actions = .ok reshards ∧
      ∀ key, Logged (spaces key) (actionsOf key actions) (reshards key) ∧
        ((spaces key).source = (spaces key).target →
          FifoMatched (spaces key).source (reshards key))) ↔
      ∀ key, FirstNamed (spaces key) (actionsOf key actions) := by
  constructor
  · rintro ⟨reshards, hrun, -⟩ key
    exact namedFrom_init.mp (KeyState.named_of_run (PointToPointReshards.run_key hrun key))
  · intro hnamed
    obtain ⟨reshards, hrun, hinv⟩ :=
      PointToPointReshards.run_keyInv (fun key ↦ keyInv_init (spaces key))
        fun key ↦ namedFrom_init.mpr (hnamed key)
    refine ⟨reshards, hrun, fun key ↦ ⟨?_, fun heq ↦ ?_⟩⟩
    · exact KeyState.logged_of_run (PointToPointReshards.run_key hrun key)
    · have hstate := hinv key
      rw [KeyInv, if_pos heq] at hstate
      exact hstate.fifoMatched

end Keys

/-- One key in one address space, whose first operation reads the name of a
source that has none. -/
theorem not_fifoMatched_unnamedSource :
    ¬ ∀ (spaces : Unit → KeySpaces) (actions : List (Unit × KeyAction ℕ ℕ)),
      ∃ reshards, PointToPointReshards.run spaces (fun _ ↦ {}) actions = .ok reshards ∧
        ∀ key, Logged (spaces key) (actionsOf key actions) (reshards key) ∧
          ((spaces key).source = (spaces key).target →
            FifoMatched (spaces key).source (reshards key)) := by
  intro h
  obtain ⟨reshards, hrun, -⟩ := h (fun _ ↦ ⟨0, 0⟩) [((), .target namedTileOp)]
  cases hrun

end Zuku
