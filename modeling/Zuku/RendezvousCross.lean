import Zuku.NameMessages

/-!
# Rendezvous of two address spaces

The source and the target of a key have an entry each.  One invariant describes
both entries, the runtime and the messages between them by the operations and
the deliveries so far, and every step of the key keeps it.
-/

namespace Zuku

open Checked Event FifoMatching

variable {ε ι : Type}

/-! ## The two entries -/

/-- A name that waits at the source. -/
def pendingName (name : TargetName ι) : PendingOp ε ι :=
  ⟨name.1.event, none, some name.2⟩

/-- The copy between a source and a target that were matched. -/
def copyOf [DecidableEq ε] (shape : RealmShape) (fieldSize : ℕ)
    (pair : PendingOp ε ι × PendingOp ε ι) : Copy ε ι :=
  ⟨shape, fieldSize, pair.1.partnerInstance, pair.2.partnerInstance,
    mergeEvents pair.2.precondition pair.1.precondition⟩

def copyEvent (copy : ℕ) : Event (Signal ε) := {.copyDone copy}

def ackEvent (ack gen : ℕ) : Event (Signal ε) := (Barrier.mk ack gen).event

/-- The events that arrive on the generations of a barrier, one on each. -/
def arrivalsOf (barrier : ℕ) (events : List (Event (Signal ε))) :
    List (Barrier × Event (Signal ε)) :=
  events.mapIdx fun gen event ↦ (⟨barrier, gen⟩, event)

def copyArrivals (ack numCopies : ℕ) : List (Barrier × Event (Signal ε)) :=
  arrivalsOf ack ((List.range numCopies).map copyEvent)

def readyArrivals (ready : ℕ) (targets : List (Served ε ι)) :
    List (Barrier × Event (Signal ε)) :=
  arrivalsOf ready (targets.map fun op ↦ op.1.precondition)

theorem arrivalsOf_push (barrier : ℕ) (events : List (Event (Signal ε)))
    (event : Event (Signal ε)) :
    arrivalsOf barrier (events ++ [event]) =
      arrivalsOf barrier events ++ [(⟨barrier, events.length⟩, event)] := by
  simp [arrivalsOf, List.mapIdx_append]

theorem copyArrivals_succ (ack numCopies : ℕ) :
    (copyArrivals ack (numCopies + 1) : List (Barrier × Event (Signal ε))) =
      copyArrivals ack numCopies ++ [(⟨ack, numCopies⟩, copyEvent numCopies)] := by
  simp [copyArrivals, List.range_succ, arrivalsOf_push]

/-- The arrival of one more copy. -/
theorem perm_push_copyArrival {arrivals : List (Barrier × Event (Signal ε))} {ack ready n : ℕ}
    {targets : List (Served ε ι)}
    (h : arrivals.Perm (copyArrivals ack n ++ readyArrivals ready targets)) :
    (arrivals ++ [(Barrier.mk ack n, copyEvent n)]).Perm
      (copyArrivals ack (n + 1) ++ readyArrivals ready targets) := by
  rw [copyArrivals_succ]
  refine (h.append_right _).trans ?_
  rw [List.append_assoc, List.append_assoc]
  exact List.perm_append_comm.append_left _

theorem readyArrivals_push (ready : ℕ) (targets : List (Served ε ι)) (op : Served ε ι) :
    readyArrivals ready (targets ++ [op]) =
      readyArrivals ready targets ++ [(⟨ready, targets.length⟩, op.1.precondition)] := by
  simp [readyArrivals, arrivalsOf_push]

variable [DecidableEq ε]

/-- The `k`-th copy is between the `k`-th source and the `k`-th of its partners. -/
theorem exists_copied {γ : Type} {sources : List (Served ε ι)} {partner : γ → PendingOp ε ι}
    {partners : List γ} {pendingLeft pendingRight : List (PendingOp ε ι)}
    {matched : List (PendingOp ε ι × PendingOp ε ι)}
    (h : Matching (sources.map pendingOf) (partners.map partner) pendingLeft pendingRight matched)
    {shape : RealmShape} {fieldSize k : ℕ} {copy : Copy ε ι}
    (hcopy : (matched.map (copyOf shape fieldSize))[k]? = some copy) :
    ∃ source other, sources[k]? = some source ∧ partners[k]? = some other ∧
      copy = copyOf shape fieldSize (pendingOf source, partner other) := by
  rw [List.getElem?_map, Option.map_eq_some_iff] at hcopy
  obtain ⟨pair, hpair, rfl⟩ := hcopy
  obtain ⟨hleft, hright⟩ := h.getElem?_matched hpair
  rw [List.getElem?_map, Option.map_eq_some_iff] at hleft hright
  obtain ⟨source, hsource, hpending⟩ := hleft
  obtain ⟨other, hother, hpending'⟩ := hright
  exact ⟨source, other, hsource, hother, by rw [hpending, hpending']⟩

/-- The entry of the source after the operations and the names it has seen. -/
structure SourceSide (ack : ℕ) (first : Option (ReshardOp ε ι)) (sources : List (Served ε ι))
    (received : List (TargetName ι)) (entry : PointToPointReshard ε ι)
    (copies : List (Copy ε ι)) : Prop where
  recorded : Recorded entry first
  ackDone : entry.ackDoneBarrier = first.map fun _ ↦ ⟨ack, copies.length⟩
  isSome_first : sources ≠ [] → first.isSome
  matching : ∃ matched, Matching (sources.map pendingOf) (received.map pendingName)
      entry.pendingSourceReshards entry.pendingDestReshards matched ∧
    copies = matched.map (copyOf entry.shape entry.fieldSize)

/-- The entry of the target after the operations it has seen. -/
structure TargetSide (ack ready : ℕ) (acked : Bool) (targets : List (Served ε ι))
    (entry : PointToPointReshard ε ι) : Prop where
  noSource : entry.pendingSourceReshards = []
  pendingDest : entry.pendingDestReshards = if acked then [] else targets.map pendingOf
  ackDone : entry.ackDoneBarrier = if acked then some ⟨ack, targets.length⟩ else none
  targetReady : entry.targetReadyBarrier = targets.head?.map fun _ ↦ ⟨ready, targets.length⟩

/-- The number of targets that have got their results. -/
def numAcked (acked : Bool) (targets : List (Served ε ι)) : ℕ :=
  if acked then targets.length else 0

/-- What holds of the two entries and the runtime between two steps. -/
structure CrossInv (spaces : KeySpaces) (first : Option (ReshardOp ε ι))
    (sources targets : List (Served ε ι)) (ack ready : ℕ) (acked : Bool) (inOrder : Prop)
    (delivered : List (NameMessage ι)) (source target : PointToPointReshard ε ι)
    (rt : Runtime ε ι) : Prop where
  sourceSide : SourceSide ack first sources (names delivered) source rt.copies
  targetSide : TargetSide ack ready acked targets target
  userEvents : UserEvents copyEvent (ackEvent ack) sources targets (names delivered).length
    (numAcked acked targets) rt.numUserEvents rt.triggers
  traffic : Traffic spaces ack ready (first.isSome = true) (acked = true) inOrder targets
    rt.messages delivered
  arrivals_perm : rt.arrivals.Perm
    (copyArrivals ack rt.copies.length ++ readyArrivals ready targets)
  ack_lt : first.isSome → ack < rt.numBarriers
  ready_lt : targets ≠ [] → ready < rt.numBarriers
  ack_ne_ready : first.isSome → targets ≠ [] → ack ≠ ready

theorem SourceSide.copies_nil {ack : ℕ} {first : Option (ReshardOp ε ι)}
    {received : List (TargetName ι)} {entry : PointToPointReshard ε ι}
    {copies : List (Copy ε ι)} (h : SourceSide ack first [] received entry copies) :
    copies = [] := by
  obtain ⟨matched, hmatching, hcopies⟩ := h.matching
  rw [hcopies, hmatching.matched_eq]
  rfl

theorem SourceSide.length_copies {ack : ℕ} {first : Option (ReshardOp ε ι)}
    {sources : List (Served ε ι)} {received : List (TargetName ι)}
    {entry : PointToPointReshard ε ι} {copies : List (Copy ε ι)}
    (h : SourceSide ack first sources received entry copies) :
    copies.length = min sources.length received.length := by
  obtain ⟨matched, hmatching, hcopies⟩ := h.matching
  rw [hcopies, List.length_map, hmatching.length_matched, List.length_map, List.length_map]

/-! ## Steps -/

omit [DecidableEq ε] in
theorem recordedShape_of_recorded {entry : PointToPointReshard ε ι} {first : ReshardOp ε ι}
    (h : Recorded entry (some first)) (op : ReshardOp ε ι) : recordedShape entry op = entry := by
  rw [recordedShape, if_pos h.1]

theorem remoteCopyNextPendingToTarget_eq {reshard : PointToPointReshard ε ι} {ack : Barrier}
    (hack : reshard.ackDoneBarrier = some ack) (rt : Runtime ε ι) (src dst : Option ι)
    (ready pre : Event (Signal ε)) :
    remoteCopyNextPendingToTarget reshard rt src dst ready pre =
      .ok (copyEvent rt.copies.length, { reshard with ackDoneBarrier := some ack.advance },
        { rt with
          copies := rt.copies ++
            [⟨reshard.shape, reshard.fieldSize, src, dst, mergeEvents ready pre⟩]
          arrivals := rt.arrivals ++ [(ack, copyEvent rt.copies.length)] }) := by
  simp only [remoteCopyNextPendingToTarget, hack]
  rfl

section SourceStep

variable {spaces : KeySpaces} {first : Option (ReshardOp ε ι)} {sources targets : List (Served ε ι)}
  {ack ready : ℕ} {acked : Bool} {inOrder : Prop} {delivered : List (NameMessage ι)}
  {source target : PointToPointReshard ε ι} {rt : Runtime ε ι}

/-- Before the first operation of the source no ack barrier is delivered. -/
theorem CrossInv.acked_eq_false
    (h : CrossInv spaces none [] targets ack ready acked inOrder delivered source target rt) :
    acked = false := by
  by_contra hacked
  have hopened := h.traffic.opened_of_acked (by simpa using hacked)
  exact absurd hopened (by simp)

/-- The first operation of the source creates the ack barrier. -/
theorem CrossInv.openAck
    (h : CrossInv spaces none [] targets ack ready acked inOrder delivered source target rt)
    (hne : spaces.source ≠ spaces.target) (op : ReshardOp ε ι) :
    ∃ source' rt',
      ensureAckBarrier (recordedShape source op) rt spaces.source spaces.target = (source', rt') ∧
      acked = false ∧
      CrossInv spaces (some op) [] targets rt.numBarriers ready acked inOrder delivered
        source' target rt' := by
  obtain rfl := h.acked_eq_false
  have hcopies : rt.copies = [] := h.sourceSide.copies_nil
  have hack : (recordedShape source op).ackDoneBarrier = none := by
    rw [recordedShape_ackDoneBarrier]
    exact h.sourceSide.ackDone
  refine ⟨_, _, if_pos ⟨hne, hack⟩, rfl, ?_⟩
  constructor
  · obtain ⟨matched, hmatching, -⟩ := h.sourceSide.matching
    refine ⟨h.sourceSide.recorded.recordedShape op, ?_, fun hsources ↦ absurd rfl hsources, matched,
      ?_, ?_⟩
    · simp [Runtime.spawn, hcopies]
    · simpa using hmatching
    · rw [hmatching.matched_eq]
      exact hcopies
  · exact ⟨h.targetSide.noSource, h.targetSide.pendingDest, h.targetSide.ackDone,
      h.targetSide.targetReady⟩
  · exact ⟨h.userEvents.nodup, h.userEvents.lt, h.userEvents.source_waiting,
      h.userEvents.target_waiting, h.userEvents.triggers_perm⟩
  · exact h.traffic.openAck (by simp) (by rfl) rt.numBarriers
  · have harrivals := h.arrivals_perm
    rw [hcopies] at harrivals
    simpa [Runtime.createBarrier, Runtime.spawn, hcopies, copyArrivals, arrivalsOf] using harrivals
  · exact fun _ ↦ Nat.lt_succ_self _
  · exact fun htargets ↦ Nat.lt_succ_of_lt (h.ready_lt htargets)
  · exact fun _ htargets ↦ (h.ready_lt htargets).ne'

/-- A source operation that finds no name waits. -/
theorem CrossInv.source_wait
    (h : CrossInv spaces first sources targets ack ready acked inOrder delivered source target rt)
    (hfirst : first.isSome) (op : ReshardOp ε ι) (hpending : source.pendingDestReshards = []) :
    CrossInv spaces first (sources ++ [(op, some rt.numUserEvents)]) targets ack ready acked
      inOrder delivered
      { source with
        pendingSourceReshards := source.pendingSourceReshards ++
          [⟨op.precondition, some rt.numUserEvents, some op.regionInstance⟩] }
      target { rt with numUserEvents := rt.numUserEvents + 1 } where
  sourceSide := by
    obtain ⟨matched, hmatching, hcopies⟩ := h.sourceSide.matching
    refine ⟨h.sourceSide.recorded, h.sourceSide.ackDone, fun _ ↦ hfirst, matched, ?_, hcopies⟩
    have hpush := hmatching.pushLeft_wait hpending (pendingOf (op, some rt.numUserEvents))
    rw [List.map_append, List.map_singleton, hpending]
    exact hpush
  targetSide := h.targetSide
  userEvents := by
    obtain ⟨matched, hmatching, -⟩ := h.sourceSide.matching
    apply h.userEvents.source_wait
    simpa using hmatching.rights_le_lefts hpending
  traffic := h.traffic
  arrivals_perm := h.arrivals_perm
  ack_lt := h.ack_lt
  ready_lt := h.ready_lt
  ack_ne_ready := h.ack_ne_ready

/-- A source operation that finds a name issues the copy to it. -/
theorem CrossInv.source_match
    (h : CrossInv spaces first sources targets ack ready acked inOrder delivered source target rt)
    (hfirst : first.isSome) (op : ReshardOp ε ι) {dest : PendingOp ε ι}
    {pending : List (PendingOp ε ι)} (hpending : source.pendingDestReshards = dest :: pending) :
    rt.copies.length = sources.length ∧
    CrossInv spaces first (sources ++ [(op, none)]) targets ack ready acked inOrder delivered
      { source with
        ackDoneBarrier := some ⟨ack, rt.copies.length + 1⟩
        pendingDestReshards := pending }
      target
      { rt with
        copies := rt.copies ++ [⟨source.shape, source.fieldSize, some op.regionInstance,
          dest.partnerInstance, mergeEvents dest.precondition op.precondition⟩]
        arrivals := rt.arrivals ++
          [(⟨ack, rt.copies.length⟩, copyEvent rt.copies.length)] } := by
  obtain ⟨matched, hmatching, hcopies⟩ := h.sourceSide.matching
  have hpush := hmatching.pushLeft_match hpending (pendingOf (op, none))
  have hempty : source.pendingSourceReshards = [] := hmatching.pendingLeft_eq_nil hpending
  have hlt : sources.length < (names delivered).length := by
    have hlt := lt_length_of_drop (hmatching.pendingRight_eq.symm.trans hpending)
    simpa using hlt
  have hlength : rt.copies.length = sources.length := by
    rw [h.sourceSide.length_copies, Nat.min_eq_left hlt.le]
  refine ⟨hlength, ?_⟩
  constructor
  · refine ⟨h.sourceSide.recorded, ?_, fun _ ↦ hfirst,
      matched ++ [(pendingOf (op, none), dest)], ?_, ?_⟩
    · obtain ⟨f, rfl⟩ := Option.isSome_iff_exists.mp hfirst
      simp
    · rw [List.map_append, List.map_singleton, hempty]
      exact hpush
    · rw [hcopies, List.map_append]
      rfl
  · exact h.targetSide
  · exact h.userEvents.source_serve hlt.le hlt op
  · exact h.traffic
  · rw [List.length_append, List.length_singleton]
    exact perm_push_copyArrival h.arrivals_perm
  · exact h.ack_lt
  · exact h.ready_lt
  · exact h.ack_ne_ready

/-- A name that finds no source operation waits. -/
theorem CrossInv.name_wait
    (h : CrossInv spaces first sources targets ack ready acked inOrder delivered source target rt)
    {i : ℕ} {name : TargetName ι} (hi : rt.messages[i]? = some (nameMessage spaces.source name))
    (hpending : source.pendingSourceReshards = []) :
    CrossInv spaces first sources targets ack ready acked
      (inOrder ∧ names (rt.messages.take i) = [])
      (delivered ++ [nameMessage spaces.source name])
      { source with
        pendingDestReshards := source.pendingDestReshards ++ [pendingName name] }
      target { rt with messages := rt.messages.eraseIdx i } where
  sourceSide := by
    obtain ⟨matched, hmatching, hcopies⟩ := h.sourceSide.matching
    refine ⟨h.sourceSide.recorded, h.sourceSide.ackDone, h.sourceSide.isSome_first, matched, ?_,
      hcopies⟩
    rw [names_push_name, List.map_append, List.map_singleton, hpending]
    exact hmatching.pushRight_wait hpending (pendingName name)
  targetSide := h.targetSide
  userEvents := by
    obtain ⟨matched, hmatching, -⟩ := h.sourceSide.matching
    have hle : sources.length ≤ (names delivered).length := by
      simpa using hmatching.lefts_le_rights hpending
    rw [names_push_name, List.length_append, List.length_singleton]
    exact h.userEvents.source_extend hle (Nat.le_succ_of_le hle)
  traffic := h.traffic.deliverName hi
  arrivals_perm := h.arrivals_perm
  ack_lt := h.ack_lt
  ready_lt := h.ready_lt
  ack_ne_ready := h.ack_ne_ready

/-- A name that finds a source operation is copied to, and the user event of
the operation is triggered. -/
theorem CrossInv.name_match
    (h : CrossInv spaces first sources targets ack ready acked inOrder delivered source target rt)
    {i : ℕ} {name : TargetName ι} (hi : rt.messages[i]? = some (nameMessage spaces.source name))
    {op : PendingOp ε ι} {pending : List (PendingOp ε ι)}
    (hpending : source.pendingSourceReshards = op :: pending) :
    ∃ id, op.postconditionToTrigger = some id ∧
    source.ackDoneBarrier = some ⟨ack, rt.copies.length⟩ ∧
    CrossInv spaces first sources targets ack ready acked
      (inOrder ∧ names (rt.messages.take i) = [])
      (delivered ++ [nameMessage spaces.source name])
      { source with
        ackDoneBarrier := some ⟨ack, rt.copies.length + 1⟩
        pendingSourceReshards := pending }
      target
      { rt with
        messages := rt.messages.eraseIdx i
        copies := rt.copies ++ [⟨source.shape, source.fieldSize, op.partnerInstance,
          some name.2, mergeEvents name.1.event op.precondition⟩]
        arrivals := rt.arrivals ++ [(⟨ack, rt.copies.length⟩, copyEvent rt.copies.length)]
        triggers := rt.triggers ++ [(id, copyEvent rt.copies.length)] } := by
  obtain ⟨matched, hmatching, hcopies⟩ := h.sourceSide.matching
  have hdrop := hmatching.pendingLeft_eq.symm.trans hpending
  rw [List.length_map] at hdrop
  obtain ⟨waiting, id, hwaiting, rfl⟩ := h.userEvents.exists_waiting hdrop
  have hlt := (List.getElem?_eq_some_iff.mp hwaiting).1
  have hlength : rt.copies.length = (names delivered).length := by
    rw [h.sourceSide.length_copies, Nat.min_eq_right hlt.le]
  obtain ⟨f, rfl⟩ := Option.isSome_iff_exists.mp
    (h.sourceSide.isSome_first (List.ne_nil_of_length_pos (Nat.zero_lt_of_lt hlt)))
  have hempty : source.pendingDestReshards = [] := hmatching.pendingRight_eq_nil hpending
  refine ⟨id, rfl, h.sourceSide.ackDone, ?_⟩
  constructor
  · refine ⟨h.sourceSide.recorded, ?_, fun _ ↦ rfl,
      matched ++ [(pendingOf (waiting, some id), pendingName name)], ?_, ?_⟩
    · simp
    · rw [names_push_name, List.map_append, List.map_singleton, hempty]
      exact hmatching.pushRight_match hpending (pendingName name)
    · rw [hcopies, List.map_append]
      rfl
  · exact h.targetSide
  · rw [names_push_name, List.length_append, List.length_singleton, hlength]
    exact h.userEvents.source_trigger hwaiting
  · exact h.traffic.deliverName hi
  · rw [List.length_append, List.length_singleton]
    exact perm_push_copyArrival h.arrivals_perm
  · exact h.ack_lt
  · exact h.ready_lt
  · exact h.ack_ne_ready

omit [DecidableEq ε] in
/-- The waiting targets get the generations of the ack barrier in order. -/
theorem clearPendingDest_eq {sourceResult : ℕ → Event (Signal ε)} {m n : ℕ} {rt : Runtime ε ι}
    (h : UserEvents sourceResult (ackEvent ack) sources targets m n rt.numUserEvents rt.triggers)
    (hn : n ≤ targets.length) :
    ∃ triggers, clearPendingDest ((targets.drop n).map pendingOf) ⟨ack, n⟩ rt =
        .ok (⟨ack, targets.length⟩, { rt with triggers := triggers }) ∧
      UserEvents sourceResult (ackEvent ack) sources targets m targets.length rt.numUserEvents
        triggers := by
  generalize hrest : targets.drop n = rest
  induction rest generalizing n rt with
  | nil =>
      obtain rfl : n = targets.length := Nat.le_antisymm hn (List.drop_eq_nil_iff.mp hrest)
      exact ⟨rt.triggers, rfl, h⟩
  | cons op rest ih =>
      obtain ⟨id, hid⟩ := Option.isSome_iff_exists.mp
        (h.target_waiting op (by rw [hrest]; exact List.mem_cons_self))
      have hop : targets[n]? = some (op.1, some id) := by
        rw [← hid, ← Nat.add_zero n, ← List.getElem?_drop, hrest]
        rfl
      let rt' : Runtime ε ι := { rt with triggers := rt.triggers ++ [(id, ackEvent ack n)] }
      have hnext : UserEvents sourceResult (ackEvent ack) sources targets m (n + 1)
          rt'.numUserEvents rt'.triggers := (h.swap.source_trigger hop).swap
      obtain ⟨triggers, hclear, hevents⟩ :=
        ih hnext (lt_length_of_drop hrest) (drop_succ_of_drop hrest)
      refine ⟨triggers, ?_, hevents⟩
      have hop' : (pendingOf op).postconditionToTrigger = some id := hid
      rw [List.map_cons, clearPendingDest, hop']
      exact hclear

/-- The target gets the ack barrier. -/
theorem CrossInv.ack_deliver
    (h : CrossInv spaces first sources targets ack ready false inOrder delivered source target rt)
    {i : ℕ} (hi : rt.messages[i]? = some (ackMessage spaces.target ack)) (hfirst : first.isSome) :
    ∃ triggers,
      clearPendingDest target.pendingDestReshards ⟨ack, 0⟩
          { rt with messages := rt.messages.eraseIdx i } =
        .ok (⟨ack, targets.length⟩,
          { rt with messages := rt.messages.eraseIdx i, triggers := triggers }) ∧
      CrossInv spaces first sources targets ack ready true inOrder
        (delivered ++ [ackMessage spaces.target ack]) source
        { target with ackDoneBarrier := some ⟨ack, targets.length⟩, pendingDestReshards := [] }
        { rt with messages := rt.messages.eraseIdx i, triggers := triggers } := by
  let rt' : Runtime ε ι := { rt with messages := rt.messages.eraseIdx i }
  have hwaiting : UserEvents copyEvent (ackEvent ack) sources targets (names delivered).length 0
      rt'.numUserEvents rt'.triggers := h.userEvents
  obtain ⟨triggers, hclear, hevents⟩ := clearPendingDest_eq hwaiting (Nat.zero_le _)
  refine ⟨triggers, ?_, ?_⟩
  · rw [h.targetSide.pendingDest]
    exact hclear
  constructor
  · rw [names_push_ack]
    exact h.sourceSide
  · exact ⟨h.targetSide.noSource, rfl, rfl, h.targetSide.targetReady⟩
  · rw [names_push_ack]
    exact hevents
  · exact h.traffic.deliverAck hi hfirst (by simp) rfl
  · exact h.arrivals_perm
  · exact h.ack_lt
  · exact h.ready_lt
  · exact h.ack_ne_ready

/-- The first operation of the target creates the ready barrier. -/
theorem CrossInv.sendTargetName
    (h : CrossInv spaces first sources targets ack ready acked inOrder delivered source target rt)
    (hne : spaces.source ≠ spaces.target) (op : ReshardOp ε ι) :
    ∃ ready' numBarriers, ready' < numBarriers ∧ (first.isSome → ack ≠ ready') ∧
      sendTargetName (recordedShape target op) rt spaces.target spaces.source op =
        ({ recordedShape target op with
            targetReadyBarrier := some ⟨ready', targets.length + 1⟩ },
          { rt with
            numBarriers := numBarriers
            messages := rt.messages ++
              [nameMessage spaces.source (⟨ready', targets.length⟩, op.regionInstance)]
            arrivals := rt.arrivals ++ [(⟨ready', targets.length⟩, op.precondition)] }) ∧
      CrossInv spaces first sources targets ack ready' acked inOrder delivered source target
        { rt with numBarriers := numBarriers } := by
  have htarget := h.targetSide.targetReady
  cases targets with
  | nil =>
      refine ⟨rt.numBarriers, rt.numBarriers + 1, Nat.lt_succ_self _,
        fun hfirst ↦ (h.ack_lt hfirst).ne, ?_, ?_⟩
      · rw [Zuku.sendTargetName, if_pos hne, recordedShape_targetReadyBarrier, htarget]
        rfl
      · exact {
          sourceSide := h.sourceSide
          targetSide := ⟨h.targetSide.noSource, h.targetSide.pendingDest, h.targetSide.ackDone,
            htarget⟩
          userEvents := h.userEvents
          traffic := h.traffic.rename _
          arrivals_perm := h.arrivals_perm
          ack_lt := fun hfirst ↦ Nat.lt_succ_of_lt (h.ack_lt hfirst)
          ready_lt := fun hno ↦ absurd rfl hno
          ack_ne_ready := fun _ hno ↦ absurd rfl hno }
  | cons first targets =>
      have hcons : first :: targets ≠ [] := List.cons_ne_nil _ _
      refine ⟨ready, rt.numBarriers, h.ready_lt hcons, fun hfirst ↦ h.ack_ne_ready hfirst hcons,
        ?_, h⟩
      rw [Zuku.sendTargetName, if_pos hne, recordedShape_targetReadyBarrier, htarget]
      rfl

/-- The name of a target operation goes to the source, whether the operation
waits or is given a generation of the ack barrier. -/
theorem CrossInv.target_push
    (h : CrossInv spaces first sources targets ack ready acked inOrder delivered source target rt)
    (hready : ready < rt.numBarriers) (hack : first.isSome → ack ≠ ready) {op : Served ε ι}
    {target' : PointToPointReshard ε ι} {numUserEvents : ℕ}
    (hside : TargetSide ack ready acked (targets ++ [op]) target')
    (hevents : UserEvents copyEvent (ackEvent ack) sources (targets ++ [op])
      (names delivered).length (numAcked acked (targets ++ [op])) numUserEvents rt.triggers) :
    CrossInv spaces first sources (targets ++ [op]) ack ready acked inOrder delivered source target'
      { rt with
        numUserEvents := numUserEvents
        messages := rt.messages ++
          [nameMessage spaces.source (⟨ready, targets.length⟩, op.1.regionInstance)]
        arrivals := rt.arrivals ++ [(⟨ready, targets.length⟩, op.1.precondition)] } where
  sourceSide := h.sourceSide
  targetSide := hside
  userEvents := hevents
  traffic := h.traffic.sendName op
  arrivals_perm := by
    rw [readyArrivals_push, ← List.append_assoc]
    exact h.arrivals_perm.append_right _
  ack_lt := h.ack_lt
  ready_lt _ := hready
  ack_ne_ready hfirst _ := hack hfirst

theorem head?_map_push {α β : Type} (f : α → β) (xs : List α) (x : α) :
    ((xs ++ [x]).head?).map f = some (((xs.head?).map f).getD (f x)) := by
  cases xs <;> rfl

end SourceStep

/-! ## Whole operations -/

section Operations

variable {spaces : KeySpaces} {sources targets : List (Served ε ι)} {ack ready : ℕ}
  {acked : Bool} {inOrder : Prop} {delivered : List (NameMessage ι)}
  {source target : PointToPointReshard ε ι} {rt : Runtime ε ι}

theorem CrossInv.reshardToLocalTarget {first : Option (ReshardOp ε ι)}
    (h : CrossInv spaces first sources targets ack ready acked inOrder delivered source target rt)
    (hne : spaces.source ≠ spaces.target) {op : ReshardOp ε ι}
    (hnamed : target.exists' = false → op.Nameable) :
    ∃ ready' handle target' rt',
      reshardToLocalTarget target rt spaces.target spaces.source op =
        .ok (returned (ackEvent ack targets.length) handle, target', rt') ∧
      CrossInv spaces first sources (targets ++ [(op, handle)]) ack ready' acked inOrder delivered
        source target' rt' := by
  obtain ⟨ready', numBarriers, hlt, hack, hsend, hinv⟩ := h.sendTargetName hne op
  have hsource : (recordedShape target op).pendingSourceReshards = [] := by
    rw [recordedShape_pendingSourceReshards, h.targetSide.noSource]
  have hdest : (recordedShape target op).pendingDestReshards = target.pendingDestReshards := by simp
  have hdone : (recordedShape target op).ackDoneBarrier = target.ackDoneBarrier := by simp
  simp only [Zuku.reshardToLocalTarget, getProtocol_eq, rendezvousReshardToLocalTarget,
    recordShape_eq_ok hnamed, ok_bind]
  generalize recordedShape target op = shaped at hsend hsource hdest hdone
  have hready (op' : Served ε ι) : some (Barrier.mk ready' (targets.length + 1)) =
      (targets ++ [op']).head?.map fun _ ↦ ⟨ready', (targets ++ [op']).length⟩ := by
    rw [head?_map_push, List.length_append, List.length_singleton]
    cases targets.head? <;> rfl
  cases acked with
  | false =>
      have hside : TargetSide ack ready' false (targets ++ [(op, some rt.numUserEvents)])
          { shaped with
            targetReadyBarrier := some ⟨ready', targets.length + 1⟩
            pendingDestReshards := shaped.pendingDestReshards ++
              [⟨op.precondition, some rt.numUserEvents, some op.regionInstance⟩] } := by
        refine ⟨hsource, ?_, hdone.trans h.targetSide.ackDone, hready _⟩
        rw [hdest, h.targetSide.pendingDest, if_neg Bool.false_ne_true, if_neg Bool.false_ne_true,
          List.map_append]
        rfl
      have hevents := (hinv.userEvents.swap.source_wait (Nat.zero_le _) op).swap
      refine ⟨ready', some rt.numUserEvents, _, _, ?_, hinv.target_push hlt hack hside hevents⟩
      simp only [hsource, hsend, hdone.trans h.targetSide.ackDone]
      rfl
  | true =>
      have hside : TargetSide ack ready' true (targets ++ [(op, none)])
          { shaped with
            targetReadyBarrier := some ⟨ready', targets.length + 1⟩
            ackDoneBarrier := some ⟨ack, targets.length + 1⟩ } := by
        refine ⟨hsource, ?_, ?_, hready _⟩
        · rw [hdest, h.targetSide.pendingDest]
          rfl
        · rw [if_pos rfl, List.length_append, List.length_singleton]
      have hlength : targets.length < (targets ++ [((op, none) : Served ε ι)]).length := by
        rw [List.length_append, List.length_singleton]
        exact Nat.lt_succ_self _
      have hevents := (hinv.userEvents.swap.source_serve le_rfl hlength op).swap
      refine ⟨ready', none, _, _, ?_, hinv.target_push hlt hack hside hevents⟩
      simp only [hsource, hsend, hdone.trans h.targetSide.ackDone]
      rfl

theorem CrossInv.rendezvousReshardFromLocalSource {first : Option (ReshardOp ε ι)}
    (h : CrossInv spaces first sources targets ack ready acked inOrder delivered source target rt)
    (hfirst : first.isSome) {source₀ : PointToPointReshard ε ι} {rt₀ : Runtime ε ι}
    {op : ReshardOp ε ι} (hne : spaces.source ≠ spaces.target)
    (hnamed : source₀.exists' = false → op.Nameable)
    (hensure : ensureAckBarrier (recordedShape source₀ op) rt₀ spaces.source spaces.target =
      (source, rt)) :
    ∃ handle source' rt',
      reshardFromLocalSource source₀ rt₀ spaces.source spaces.target op =
        .ok (returned (copyEvent sources.length) handle, source', rt') ∧
      CrossInv spaces first (sources ++ [(op, handle)]) targets ack ready acked inOrder delivered
        source' target rt' := by
  simp only [reshardFromLocalSource, getProtocol_eq, Zuku.rendezvousReshardFromLocalSource,
    recordShape_eq_ok hnamed, ok_bind, hensure]
  cases hpending : source.pendingDestReshards with
  | nil =>
      have hwait := h.source_wait hfirst op hpending
      rw [hpending] at hwait
      exact ⟨some rt.numUserEvents, _, _, rfl, hwait⟩
  | cons dest pending =>
      obtain ⟨hlength, hmatch⟩ := h.source_match hfirst op hpending
      have hdone : source.ackDoneBarrier = some ⟨ack, rt.copies.length⟩ := by
        obtain ⟨f, rfl⟩ := Option.isSome_iff_exists.mp hfirst
        exact h.sourceSide.ackDone
      refine ⟨none, _, _, ?_, hmatch⟩
      simp only [if_pos hne, remoteCopyNextPendingToTarget_eq hdone, hlength]
      rfl

theorem CrossInv.reshardFromLocalSource
    (h : CrossInv spaces (sources.head?.map Prod.fst) sources targets ack ready acked inOrder
      delivered source target rt)
    (hne : spaces.source ≠ spaces.target) {op : ReshardOp ε ι}
    (hnamed : source.exists' = false → op.Nameable) :
    ∃ ack' handle source' rt',
      reshardFromLocalSource source rt spaces.source spaces.target op =
        .ok (returned (copyEvent sources.length) handle, source', rt') ∧
      answers (ackEvent ack') targets = answers (ackEvent ack) targets ∧
      CrossInv spaces ((sources ++ [(op, handle)]).head?.map Prod.fst) (sources ++ [(op, handle)])
        targets ack' ready acked inOrder delivered source' target rt' := by
  cases sources with
  | nil =>
      obtain ⟨source', rt', hensure, rfl, hinv⟩ := h.openAck hne op
      obtain ⟨handle, source'', rt'', hrun, hinv⟩ :=
        hinv.rendezvousReshardFromLocalSource rfl hne hnamed hensure
      exact ⟨_, handle, source'', rt'', hrun, answers_congr h.userEvents.target_waiting, hinv⟩
  | cons first sources =>
      have hshape : recordedShape source op = source :=
        recordedShape_of_recorded h.sourceSide.recorded op
      have hensure : ensureAckBarrier (recordedShape source op) rt spaces.source spaces.target =
          (source, rt) := by
        rw [hshape, ensureAckBarrier, h.sourceSide.ackDone]
        exact if_neg (by simp)
      obtain ⟨handle, source', rt', hrun, hinv⟩ :=
        h.rendezvousReshardFromLocalSource rfl hne hnamed hensure
      exact ⟨ack, handle, source', rt', hrun, rfl, hinv⟩

/-- A name that is delivered at the source. -/
theorem CrossInv.receiveName {first : Option (ReshardOp ε ι)}
    (h : CrossInv spaces first sources targets ack ready acked inOrder delivered source target rt)
    {i : ℕ} {name : TargetName ι} (hi : rt.messages[i]? = some (nameMessage spaces.source name)) :
    ∃ source' rt',
      receivePointToPointNames source { rt with messages := rt.messages.eraseIdx i }
          (some name.1) (some name.2) = .ok (source', rt') ∧
      CrossInv spaces first sources targets ack ready acked
        (inOrder ∧ names (rt.messages.take i) = [])
        (delivered ++ [nameMessage spaces.source name]) source' target rt' := by
  cases hpending : source.pendingSourceReshards with
  | nil =>
      refine ⟨_, _, ?_, h.name_wait hi hpending⟩
      simp only [receivePointToPointNames, hpending]
      rfl
  | cons op pending =>
      obtain ⟨id, hid, hdone, hinv⟩ := h.name_match hi hpending
      refine ⟨_, _, ?_, hinv⟩
      simp only [receivePointToPointNames, hpending, remoteCopyNextPendingToTarget_eq hdone, hid]
      rfl

/-- The ack barrier that is delivered at the target. -/
theorem CrossInv.receiveAck {first : Option (ReshardOp ε ι)}
    (h : CrossInv spaces first sources targets ack ready false inOrder delivered source target rt)
    {i : ℕ} (hi : rt.messages[i]? = some (ackMessage spaces.target ack)) (hfirst : first.isSome) :
    ∃ target' rt',
      receivePointToPointNames target { rt with messages := rt.messages.eraseIdx i }
          (some ⟨ack, 0⟩) none = .ok (target', rt') ∧
      CrossInv spaces first sources targets ack ready true inOrder
        (delivered ++ [ackMessage spaces.target ack]) source target' rt' := by
  obtain ⟨triggers, hclear, hinv⟩ := h.ack_deliver hi hfirst
  refine ⟨_, _, ?_, hinv⟩
  have hready : assertThat (some (Barrier.mk ack 0)).isSome = .ok () := assertThat_of rfl
  rw [receivePointToPointNames, hready, ok_bind, optionalValue_some, ok_bind,
    if_neg (by simp), hclear]
  rfl

end Operations

/-! ## Runs -/

/-- A delivery is in order if no name sent before a delivered name is still in
flight. -/
def DeliversInOrder (state : KeyState ε ι) : KeyAction ε ι → Prop
  | .deliver i => ∀ message ∈ state.runtime.messages[i]?, message.regionInstance = none ∨
      ∀ earlier ∈ state.runtime.messages.take i, earlier.regionInstance = none
  | _ => True

instance decidableDeliversInOrder (state : KeyState ε ι) :
    (action : KeyAction ε ι) → Decidable (DeliversInOrder state action)
  | .source _ => inferInstanceAs (Decidable True)
  | .target _ => inferInstanceAs (Decidable True)
  | .deliver i => inferInstanceAs (Decidable (∀ message ∈ state.runtime.messages[i]?,
      message.regionInstance = none ∨
        ∀ earlier ∈ state.runtime.messages.take i, earlier.regionInstance = none))

/-- Every delivery of a run is in order. -/
def RunInOrder (spaces : KeySpaces) : KeyState ε ι → List (KeyAction ε ι) → Prop
  | _, [] => True
  | state, action :: actions => DeliversInOrder state action ∧
      ∀ state' ∈ (state.step spaces action).toOption, RunInOrder spaces state' actions

instance decidableRunInOrder (spaces : KeySpaces) :
    (state : KeyState ε ι) → (actions : List (KeyAction ε ι)) →
      Decidable (RunInOrder spaces state actions)
  | _, [] => inferInstanceAs (Decidable True)
  | state, action :: actions =>
      let _ (state' : KeyState ε ι) := decidableRunInOrder spaces state' actions
      inferInstanceAs (Decidable (DeliversInOrder state action ∧
        ∀ state' ∈ (state.step spaces action).toOption, RunInOrder spaces state' actions))

/-- The states of a key in two address spaces. -/
def CrossState (spaces : KeySpaces) (inOrder : Prop) (state : KeyState ε ι) : Prop :=
  ∃ sources targets ack ready acked,
    state.sourceOps = answers copyEvent sources ∧
    state.targetOps = answers (ackEvent ack) targets ∧
    CrossInv spaces (sources.head?.map Prod.fst) sources targets ack ready acked inOrder
      state.delivered (state.entries spaces.source) (state.entries spaces.target) state.runtime

theorem CrossInv.weaken {spaces : KeySpaces} {first : Option (ReshardOp ε ι)}
    {sources targets : List (Served ε ι)} {ack ready : ℕ} {acked : Bool} {inOrder inOrder' : Prop}
    {delivered : List (NameMessage ι)} {source target : PointToPointReshard ε ι}
    {rt : Runtime ε ι}
    (h : CrossInv spaces first sources targets ack ready acked inOrder delivered source target rt)
    (hweaken : inOrder' → inOrder) :
    CrossInv spaces first sources targets ack ready acked inOrder' delivered source target rt :=
  { h with
    traffic := { h.traffic with names_eq := fun horder ↦ h.traffic.names_eq (hweaken horder) } }

section Runs

variable {spaces : KeySpaces} {inOrder : Prop} {state : KeyState ε ι}

omit [DecidableEq ε] in
theorem names_take_of_inOrder {i space : ℕ} {name : TargetName ι}
    (hi : state.runtime.messages[i]? = some (nameMessage space name))
    (horder : DeliversInOrder state (.deliver i)) :
    names (state.runtime.messages.take i) = [] := by
  apply List.filterMap_eq_nil_iff.mpr
  intro earlier hmem
  have hnone := (horder _ hi).resolve_left (Option.some_ne_none _) earlier hmem
  rw [messageName, hnone]
  cases earlier.barrier <;> rfl

theorem crossState_init : CrossState spaces True ({} : KeyState ε ι) := by
  refine ⟨[], [], 0, 0, false, rfl, rfl, ?_⟩
  constructor
  · exact ⟨rfl, rfl, fun h ↦ absurd rfl h, [], matching_nil, rfl⟩
  · exact ⟨rfl, rfl, rfl, rfl⟩
  · exact UserEvents.nil
  · constructor <;> simp [targetNames]
  · exact List.Perm.refl _
  · simp
  · simp
  · simp

theorem CrossState.source (h : CrossState spaces inOrder state)
    (hne : spaces.source ≠ spaces.target) {op : ReshardOp ε ι}
    (hnamed : NamesStep spaces state (.source op)) :
    ∃ state', state.step spaces (.source op) = .ok state' ∧ CrossState spaces inOrder state' := by
  obtain ⟨sources, targets, ack, ready, acked, hsources, htargets, hinv⟩ := h
  obtain ⟨ack', handle, source', rt', hrun, hanswers, hinv⟩ :=
    hinv.reshardFromLocalSource hne (hnamed _ rfl)
  refine ⟨_, KeyState.step_source hrun, sources ++ [(op, handle)], targets, ack', ready, acked,
    ?_, ?_, ?_⟩
  · rw [answers_push]
    exact congrArg (· ++ _) hsources
  · exact htargets.trans hanswers.symm
  · simpa [Function.update_of_ne hne.symm] using hinv

theorem CrossState.target (h : CrossState spaces inOrder state)
    (hne : spaces.source ≠ spaces.target) {op : ReshardOp ε ι}
    (hnamed : NamesStep spaces state (.target op)) :
    ∃ state', state.step spaces (.target op) = .ok state' ∧ CrossState spaces inOrder state' := by
  obtain ⟨sources, targets, ack, ready, acked, hsources, htargets, hinv⟩ := h
  obtain ⟨ready', handle, target', rt', hrun, hinv⟩ := hinv.reshardToLocalTarget hne (hnamed _ rfl)
  refine ⟨_, KeyState.step_target hrun, sources, targets ++ [(op, handle)], ack, ready', acked,
    hsources, ?_, ?_⟩
  · rw [answers_push]
    exact congrArg (· ++ _) htargets
  · simpa [Function.update_of_ne hne] using hinv

theorem CrossState.deliver (h : CrossState spaces inOrder state)
    (hne : spaces.source ≠ spaces.target) (i : ℕ) :
    ∃ state', state.step spaces (.deliver i) = .ok state' ∧
      CrossState spaces (inOrder ∧ DeliversInOrder state (.deliver i)) state' := by
  obtain ⟨sources, targets, ack, ready, acked, hsources, htargets, hinv⟩ := h
  cases hmessage : state.runtime.messages[i]? with
  | none =>
      exact ⟨state, KeyState.step_deliver_none hmessage, sources, targets, ack, ready, acked,
        hsources, htargets, hinv.weaken And.left⟩
  | some message =>
      rcases hinv.traffic.cases_of_mem (List.mem_of_getElem? hmessage) with
        ⟨name, rfl⟩ | ⟨rfl, hfirst, hacked⟩
      · obtain ⟨source', rt', hrun, hinv⟩ := hinv.receiveName hmessage
        refine ⟨_, KeyState.step_deliver hmessage hrun, sources, targets, ack, ready, acked,
          hsources, htargets, ?_⟩
        have hearlier (horder : inOrder ∧ DeliversInOrder state (.deliver i)) :
            inOrder ∧ names (state.runtime.messages.take i) = [] :=
          ⟨horder.1, names_take_of_inOrder hmessage horder.2⟩
        have hupdate := hinv.weaken hearlier
        simpa [Function.update_of_ne hne.symm, nameMessage] using hupdate
      · obtain rfl : acked = false := by simpa using hacked
        obtain ⟨target', rt', hrun, hinv⟩ := hinv.receiveAck hmessage hfirst
        refine ⟨_, KeyState.step_deliver hmessage hrun, sources, targets, ack, ready, true,
          hsources, htargets, ?_⟩
        have hleft : inOrder ∧ DeliversInOrder state (.deliver i) → inOrder := And.left
        have hupdate := hinv.weaken hleft
        simpa [Function.update_of_ne hne, ackMessage] using hupdate

theorem CrossState.step (h : CrossState spaces inOrder state)
    (hne : spaces.source ≠ spaces.target) {action : KeyAction ε ι}
    (hnamed : NamesStep spaces state action) :
    ∃ state', state.step spaces action = .ok state' ∧
      CrossState spaces (inOrder ∧ DeliversInOrder state action) state' := by
  cases action with
  | source op => simpa only [DeliversInOrder, and_true] using h.source hne hnamed
  | target op => simpa only [DeliversInOrder, and_true] using h.target hne hnamed
  | deliver i => exact h.deliver hne i

theorem CrossState.run (h : CrossState spaces inOrder state)
    (hne : spaces.source ≠ spaces.target) {actions : List (KeyAction ε ι)}
    (hnamed : NamedFrom spaces state actions) :
    ∃ state', state.run spaces actions = .ok state' ∧
      CrossState spaces (inOrder ∧ RunInOrder spaces state actions) state' := by
  induction actions generalizing inOrder state with
  | nil => exact ⟨state, rfl, by simpa only [RunInOrder, and_true] using h⟩
  | cons action actions ih =>
      obtain ⟨state', hstep, h'⟩ := h.step hne (namesStep_of_namedFrom hnamed)
      have hrest := ((namedFrom_cons (KeyState.stepped_of_step hstep)).mp hnamed).2
      obtain ⟨final, hrun, hfinal⟩ := ih h' hrest
      refine ⟨final, by rw [KeyState.run, hstep, ok_bind, hrun], ?_⟩
      obtain ⟨sources, targets, ack, ready, acked, hsources, htargets, hinv⟩ := hfinal
      refine ⟨sources, targets, ack, ready, acked, hsources, htargets, hinv.weaken ?_⟩
      rintro ⟨horder, haction, hactions⟩
      exact ⟨⟨horder, haction⟩, hactions state' (by rw [hstep]; rfl)⟩

end Runs

end Zuku
