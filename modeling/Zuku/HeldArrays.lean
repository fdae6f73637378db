import Zuku.MemoryMoves
import Zuku.Library.Placement

/-!
# The stores of a program

Every store of a program of moves is held by one variable or queued in one
cache, if it is still in use, and all tasks and copies that use a common store,
which one of them writes, wait for each other in the order in which they were
issued.
-/

namespace Zuku

open Checked Event EventPrecondition Placement

variable {κ ι α σ ε : Type}

/-! ## A move as a task -/

section CopyTile

variable [Inhabited σ]

theorem stores_copyCall (bounds : RealmShape) (src dst : ℕ)
    (precondition : Option (Event (Completion ε))) :
    (copyCall bounds src dst precondition : Call ℕ (List ℤ → α) σ ε).stores =
      if src = dst then [src] else [src, dst] := by
  rw [copyCall, Call.stores, Call.uses]
  split <;> rfl

theorem written_copyCall (bounds : RealmShape) (src dst : ℕ)
    (precondition : Option (Event (Completion ε))) :
    (copyCall bounds src dst precondition : Call ℕ (List ℤ → α) σ ε).written =
      (copyCall bounds src dst precondition : Call ℕ (List ℤ → α) σ ε).stores := by
  rw [copyCall, Call.written, Call.stores, Call.uses]
  split <;> rfl

theorem mem_stores_copyCall {bounds : RealmShape} {src dst s : ℕ}
    {precondition : Option (Event (Completion ε))} :
    s ∈ (copyCall bounds src dst precondition : Call ℕ (List ℤ → α) σ ε).stores ↔
      s = src ∨ s = dst := by
  rw [stores_copyCall]
  split
  · rename_i heq
    simp [heq]
  · simp

theorem nodup_stores_copyCall (bounds : RealmShape) (src dst : ℕ)
    (precondition : Option (Event (Completion ε))) :
    (copyCall bounds src dst precondition : Call ℕ (List ℤ → α) σ ε).stores.Nodup := by
  rw [stores_copyCall]
  split <;> simp_all

variable [DecidableEq ε]

/-- The second of two equal calls of `ReadyAfter` changes nothing. -/
theorem Store.readyAfter_readyAfter {β : Type} (store : Store ε β) (stream effects : Event ε) :
    (store.readyAfter stream effects).readyAfter stream effects =
      store.readyAfter stream effects := by
  simp only [readyAfter, merge]
  cases store.childRwEvent <;> simp [mergeEvents]

/-- A copy waits for what the two stores wait for and for the precondition of the move. -/
theorem mem_nextPrecondition_copyCall {β : Type} {deferred : Deferred ℕ ε β} {bounds : RealmShape}
    {src dst : ℕ} {precondition : Option (Event (Completion ε))} {c : Completion ε} :
    c ∈ nextPrecondition deferred
        (copyCall bounds src dst precondition : Call ℕ (List ℤ → α) σ ε) ↔
      c ∈ precondition.getD noEvent ∨ c ∈ (deferred.stores src).precondition ∨
        c ∈ (deferred.stores dst).precondition := by
  have hafter : (∃ after ∈ precondition, c ∈ after) ↔ c ∈ precondition.getD noEvent := by
    cases precondition <;> simp [noEvent]
  rw [nextPrecondition, mem_startPrecondition_iff, copyCall, Call.uses]
  simp only [hafter, Option.isSome_none]
  by_cases heq : src = dst
  · subst heq
    simp [storeArgsAndSetPostcondition, Argument.uses, dependency_toTaskArgument,
      waitsFor_false_write]
  · simp [storeArgsAndSetPostcondition, Argument.uses, dependency_toTaskArgument,
      waitsFor_false_write, heq, Function.update_of_ne (Ne.symm heq)]

/-- The copy of a move is ordered like a task that updates both stores. -/
theorem ManagedArrays.copyTile_eq_issue (arrays : ManagedArrays κ ι α σ ε) (bounds : RealmShape)
    (src dst : ℕ) (precondition : Option (Event (Completion ε))) :
    arrays.copyTile bounds src dst precondition =
      arrays.issue (copyCall bounds src dst precondition) := by
  have hstores : (arrays.copyTile bounds src dst precondition).deferred.stores =
      (arrays.issue (copyCall bounds src dst precondition)).deferred.stores := by
    by_cases heq : src = dst
    · subst heq
      simp only [copyTile, Function.update_self, Function.update_idem,
        Store.readyAfter_readyAfter]
      simp only [issue, Zuku.defer, copyCall, Call.uses, if_true]
      rfl
    · simp only [copyTile, issue, Zuku.defer, copyCall, Call.uses, if_neg heq]
      rfl
  have hprecondition : mergeAll [(arrays.deferred.stores src).precondition,
      (arrays.deferred.stores dst).precondition, precondition.getD noEvent] =
      nextPrecondition arrays.deferred
        (copyCall bounds src dst precondition : Call ℕ (List ℤ → α) σ ε) := by
    ext c
    rw [mem_nextPrecondition_copyCall, mem_mergeAll]
    simp only [List.mem_cons, List.not_mem_nil, or_false, exists_eq_or_imp, exists_eq_left]
    exact or_rotate.symm
  have hdeferred : (arrays.copyTile bounds src dst precondition).deferred =
      (arrays.issue (copyCall bounds src dst precondition)).deferred := by
    rw [issue, copyTile] at hstores ⊢
    exact congrArg₂ Deferred.mk hstores
      (congrArg (fun event ↦ arrays.deferred.preconditions ++ [event]) hprecondition)
  exact congrArg (fun deferred ↦ ({ arrays with
    deferred := deferred
    issued := arrays.issued ++ [copyCall bounds src dst precondition] } :
      ManagedArrays κ ι α σ ε)) hdeferred

end CopyTile

/-! ## What a program keeps -/

/-- The events of the stores that the calls so far do not use do not matter. -/
theorem Tracked.congr_stores {β ν : Type} {program : List (Call κ ν σ ε)}
    {deferred : Deferred κ ε β} (h : Tracked program deferred) {stores : κ → Store (Completion ε) β}
    (hsame : ∀ call ∈ program, ∀ s ∈ call.stores,
      (stores s).childRwEvent = (deferred.stores s).childRwEvent ∧
        (stores s).warPrecondition = (deferred.stores s).warPrecondition) :
    Tracked program { deferred with stores := stores } where
  length_eq := h.length_eq
  writer i call s hi hs := by
    have hstore := hsame call (List.mem_of_getElem? hi) s (Call.mem_stores_of_mem_written hs)
    rw [hstore.1]
    exact h.writer i call s hi hs
  reader i call s hi hs := by
    have hstore := hsame call (List.mem_of_getElem? hi) s hs
    rw [hstore.1, hstore.2]
    exact h.reader i call s hi hs
  ordered := h.ordered

/-- The queues of all caches, of which one has changed. -/
theorem queues_update {θ ν : Type} [DecidableEq ι] [DecidableEq θ] (caches : ι → InstanceCache θ ν)
    (cache : ι) (key : θ) (values : List ν) :
    (fun q : ι × θ ↦ (Function.update caches cache
      { values := Function.update (caches cache).values key values } q.1).values q.2) =
      Function.update (fun q ↦ (caches q.1).values q.2) (cache, key) values := by
  funext q
  obtain ⟨cache', key'⟩ := q
  by_cases hcache : cache' = cache
  · subst hcache
    by_cases hkey : key' = key <;> simp [hkey]
  · simp [hcache]

namespace ManagedArrays

variable {arrays arrays' : ManagedArrays κ ι α σ ε}

/-- What holds of the stores in use; `place` says where each of them is. -/
structure Managed (arrays : ManagedArrays κ ι α σ ε)
    (place : ℕ → Option (κ ⊕ (ι × ShardedShape))) : Prop where
  tracked : Tracked arrays.issued arrays.deferred
  placed : Placed arrays.held (fun q : ι × ShardedShape ↦ (arrays.caches q.1).values q.2) place
  placed_lt : ∀ s, place s ≠ none → s < arrays.numStores
  stores_lt : ∀ call ∈ arrays.issued, ∀ s ∈ call.stores, s < arrays.numStores
  hasValue : ∀ s < arrays.numStores, ∃ array, arrays.value s = some array

theorem managed_empty : ({} : ManagedArrays κ ι α σ ε).Managed fun _ ↦ none where
  tracked := tracked_nil _
  placed := placed_empty
  placed_lt _ hs := absurd rfl hs
  stores_lt _ hcall := absurd hcall List.not_mem_nil
  hasValue s hs := absurd hs (Nat.not_lt_zero s)

variable {place : ℕ → Option (κ ⊕ (ι × ShardedShape))} {s : ℕ}

theorem Managed.lt_of_held (h : arrays.Managed place) {var : κ} (hvar : arrays.held var = some s) :
    s < arrays.numStores :=
  h.placed_lt s (by simp [h.placed.slot var s hvar])

theorem value_adopt (made : MadeArray ε) (t : ℕ) :
    (arrays.adopt arrays.numStores made).value t =
      if t = arrays.numStores then some made.array else arrays.value t := by
  rw [adopt, if_pos rfl, value]
  by_cases heq : t = arrays.numStores
  · subst heq
    rw [if_pos rfl]
    simp only [Function.update_self, MadeArray.store]
    split <;> rfl
  · simp [heq, value]

section Assign

variable [DecidableEq κ]

theorem held_assign (var v : κ) :
    (arrays.assign var s).held v = if v = var then some s else arrays.held v :=
  Function.update_apply ..

theorem held_release (var v : κ) :
    (arrays.release var).held v = if v = var then none else arrays.held v :=
  Function.update_apply ..

theorem Managed.assign (h : arrays.Managed place) (var : κ) (hs : place s = none)
    (hlt : s < arrays.numStores) :
    (arrays.assign var s).Managed (Function.update place s (some (.inl var))) where
  tracked := h.tracked
  placed := h.placed.put var hs
  placed_lt t ht := by
    by_cases heq : t = s
    · exact heq ▸ hlt
    · exact h.placed_lt t (by simpa [heq] using ht)
  stores_lt := h.stores_lt
  hasValue := h.hasValue

theorem Managed.release (h : arrays.Managed place) {var : κ} (hvar : arrays.held var = some s) :
    (arrays.release var).Managed (Function.update place s none) where
  tracked := h.tracked
  placed := h.placed.take hvar
  placed_lt t ht := by
    by_cases heq : t = s
    · simp [heq] at ht
    · exact h.placed_lt t (by simpa [heq] using ht)
  stores_lt := h.stores_lt
  hasValue := h.hasValue

end Assign

section Caches

variable [DecidableEq ι]

theorem Managed.freeIntoCache (h : arrays.Managed place) (cache : ι) (shape : ShardedShape)
    (hs : place s = none) (hlt : s < arrays.numStores) :
    (arrays.freeIntoCache cache shape s).Managed
      (Function.update place s (some (.inr (cache, shape)))) where
  tracked := h.tracked
  placed := by
    rw [ManagedArrays.freeIntoCache, InstanceCache.free, queues_update]
    exact h.placed.push (cache, shape) hs
  placed_lt t ht := by
    by_cases heq : t = s
    · exact heq ▸ hlt
    · exact h.placed_lt t (by simpa [heq] using ht)
  stores_lt := h.stores_lt
  hasValue := h.hasValue

theorem Managed.clear (h : arrays.Managed place) (cache : ι) :
    ({ arrays with caches := Function.update arrays.caches cache (arrays.caches cache).clear } :
      ManagedArrays κ ι α σ ε).Managed place where
  tracked := h.tracked
  placed := by
    apply h.placed.sublist
    intro q
    by_cases heq : q.1 = cache
    · simp [heq, InstanceCache.clear]
    · simp [heq]
  placed_lt := h.placed_lt
  stores_lt := h.stores_lt
  hasValue := h.hasValue

/-- A store that a cache has handed out is nowhere else. -/
structure Obtained (arrays arrays' : ManagedArrays κ ι α σ ε)
    (place place' : ℕ → Option (κ ⊕ (ι × ShardedShape))) (s : ℕ) : Prop where
  managed : arrays'.Managed place'
  nowhere : place' s = none
  lt : s < arrays'.numStores
  others_nowhere : ∀ t < arrays.numStores, place t = none → t ≠ s ∧ place' t = none
  le_numStores : arrays.numStores ≤ arrays'.numStores
  held_eq : arrays'.held = arrays.held
  issued_eq : arrays'.issued = arrays.issued
  value_eq : ∀ t < arrays.numStores, arrays'.value t = arrays.value t

omit [DecidableEq ι] in
/-- The factory has made the next store. -/
theorem Managed.made (h : arrays.Managed place) (made : MadeArray ε) :
    Obtained arrays (arrays.adopt arrays.numStores made) place place arrays.numStores := by
  have hadopt : arrays.adopt arrays.numStores made = { arrays with
      deferred.stores := Function.update arrays.deferred.stores arrays.numStores made.store
      numStores := arrays.numStores + 1 } := if_pos rfl
  refine ⟨⟨?_, ?_, ?_, ?_, ?_⟩, ?_, ?_, fun t ht hplace ↦ ⟨ht.ne, hplace⟩, ?_, ?_, ?_, ?_⟩
  · rw [hadopt]
    apply h.tracked.congr_stores
    intro call hcall t ht
    have hne : t ≠ arrays.numStores := (h.stores_lt call hcall t ht).ne
    simp [hne]
  · rw [hadopt]
    exact h.placed
  · rw [hadopt]
    exact fun t ht ↦ Nat.lt_succ_of_lt (h.placed_lt t ht)
  · rw [hadopt]
    exact fun call hcall t ht ↦ Nat.lt_succ_of_lt (h.stores_lt call hcall t ht)
  · intro t ht
    rw [value_adopt]
    split
    · exact ⟨_, rfl⟩
    · rename_i hne
      rw [hadopt] at ht
      exact h.hasValue t (lt_of_le_of_ne (Nat.le_of_lt_succ ht) hne)
  · by_contra hplace
    exact absurd (h.placed_lt _ hplace) (lt_irrefl _)
  · rw [hadopt]
    exact Nat.lt_succ_self _
  · rw [hadopt]
    exact Nat.le_succ _
  · rw [hadopt]
  · rw [hadopt]
  · intro t ht
    rw [value_adopt, if_neg ht.ne]

theorem Managed.getFromCache (h : arrays.Managed place) {cache : ι}
    {shape : ShardedShape} {minCacheSize : Option ℕ} {made : MadeArray ε}
    (hget : arrays.getFromCache cache shape minCacheSize made = .ok (s, arrays')) :
    ∃ place', Obtained arrays arrays' place place' s := by
  obtain ⟨⟨store, cache'⟩, hfound, hget⟩ := bind_eq_ok_iff.mp hget
  obtain ⟨rfl, rfl⟩ := Prod.mk.inj (Except.ok.inj hget)
  have hgot := InstanceCache.gotBy (arrays.caches cache) shape minCacheSize arrays.numStores
  rw [hfound] at hgot
  cases hgot with
  | made hlt =>
      rw [Function.update_eq_self]
      exact ⟨place, h.made made⟩
  | @taken _ rest hvalues hle =>
      have hplace : place store = some (.inr (cache, shape)) :=
        h.placed.queued (cache, shape) store (hvalues ▸ List.mem_cons_self)
      have hlt : store < arrays.numStores := h.placed_lt store (by simp [hplace])
      rw [adopt, if_neg hlt.ne]
      refine ⟨Function.update place store none, ⟨h.tracked, ?_, ?_, h.stores_lt, h.hasValue⟩,
        Function.update_self .., hlt, ?_, le_rfl, rfl, rfl, fun _ _ ↦ rfl⟩
      · rw [queues_update]
        exact h.placed.pop hvalues
      · intro t ht
        by_cases heq : t = store
        · simp [heq] at ht
        · exact h.placed_lt t (by simpa [heq] using ht)
      · intro t _ ht
        have hne : t ≠ store := by
          rintro rfl
          simp [hplace] at ht
        exact ⟨hne, by simpa [hne] using ht⟩

end Caches

/-! ## Tasks and copies -/

section Issue

variable [DecidableEq ε]

theorem value_storeArgs {β κ : Type} [DecidableEq κ] (stream effects : Event ε)
    (stores : κ → Store ε β) (uses : List (κ × Access)) (t : κ) :
    ((storeArgsAndSetPostcondition stream effects stores uses).2 t).value = (stores t).value := by
  induction uses generalizing stores with
  | nil => rfl
  | cons use uses ih =>
      rw [storeArgsAndSetPostcondition]
      apply (ih _).trans
      by_cases heq : t = use.1
      · rw [heq, Function.update_self]
        cases use.2 <;> rfl
      · rw [Function.update_of_ne heq]

theorem value_issue (call : Call ℕ (List ℤ → α) σ ε) (t : ℕ) :
    (arrays.issue call).value t = arrays.value t :=
  value_storeArgs _ _ arrays.deferred.stores call.uses t

theorem Managed.issue (h : arrays.Managed place) {call : Call ℕ (List ℤ → α) σ ε}
    (hnodup : call.stores.Nodup) (hstream : call.context.streamOrdered = none)
    (hlt : ∀ t ∈ call.stores, t < arrays.numStores) : (arrays.issue call).Managed place where
  tracked := h.tracked.defer hnodup hstream
  placed := h.placed
  placed_lt := h.placed_lt
  stores_lt other hother := by
    rcases List.mem_append.mp hother with hold | hnew
    · exact h.stores_lt other hold
    · rw [List.mem_singleton.mp hnew]
      exact hlt
  hasValue t ht := by
    rw [value_issue]
    exact h.hasValue t ht

omit [DecidableEq ε] in
theorem value_reassignId (id : UInt64) (t : ℕ) :
    (arrays.reassignId s id).value t =
      if t = s then (arrays.value s).map fun array ↦ { array with meshUniqueId := id }
      else arrays.value t := by
  by_cases heq : t = s
  · simp [heq, reassignId, value]
  · simp [heq, reassignId, value]

omit [DecidableEq ε] in
theorem Managed.reassignId (h : arrays.Managed place) (id : UInt64) :
    (arrays.reassignId s id).Managed place where
  tracked := by
    apply h.tracked.congr_stores
    intro call _ t _
    by_cases heq : t = s
    · simp [heq]
    · simp [heq]
  placed := h.placed
  placed_lt := h.placed_lt
  stores_lt := h.stores_lt
  hasValue t ht := by
    rw [value_reassignId]
    split
    · rename_i heq
      obtain ⟨array, harray⟩ := h.hasValue t ht
      exact ⟨_, by rw [← heq, harray]; rfl⟩
    · exact h.hasValue t ht

variable [Inhabited σ] {src dst : ℕ} {precondition : Option (Event (Completion ε))}

/-- A move issues a copy if the source has a tile, and then passes the id on. -/
inductive MovedBy (arrays : ManagedArrays κ ι α σ ε) (src dst : ℕ)
    (precondition : Option (Event (Completion ε))) (srcArray dstArray : CreatedArray) :
    ManagedArrays κ ι α σ ε → Prop where
  | noTile : srcArray.array = none →
      MovedBy arrays src dst precondition srcArray dstArray
        (arrays.reassignId dst srcArray.meshUniqueId)
  | copied {srcTile dstTile : ArrayTile} : srcArray.array = some srcTile →
      dstArray.array = some dstTile → srcTile.fits dstTile = true →
      MovedBy arrays src dst precondition srcArray dstArray
        ((arrays.issue (copyCall srcTile.shape.bounds src dst precondition)).reassignId dst
          srcArray.meshUniqueId)

theorem movedBy_of_moveToMemory
    (h : arrays.moveToMemory src dst precondition = .ok arrays') :
    ∃ srcArray dstArray, arrays.value src = some srcArray ∧ arrays.value dst = some dstArray ∧
      MovedBy arrays src dst precondition srcArray dstArray arrays' := by
  rw [moveToMemory] at h
  cases hsrc : arrays.value src with
  | none => simp [hsrc] at h
  | some srcArray =>
      cases hdst : arrays.value dst with
      | none => simp [hsrc, hdst] at h
      | some dstArray =>
          refine ⟨srcArray, dstArray, rfl, rfl, ?_⟩
          simp only [hsrc, hdst, optionalValue_some, ok_bind] at h
          cases htile : srcArray.array with
          | none =>
              simp only [htile, whenSome_none, ok_bind, pure_eq_ok] at h
              exact Except.ok.inj h ▸ .noTile htile
          | some srcTile =>
              simp only [htile, whenSome_some] at h
              obtain ⟨copied, hcopied, h⟩ := bind_eq_ok_iff.mp h
              obtain ⟨dstTile, hdstTile, hcopied⟩ := bind_eq_ok_iff.mp hcopied
              split at hcopied
              · rename_i hfits
                obtain rfl := Except.ok.inj hcopied
                obtain rfl := Except.ok.inj h
                rw [copyTile_eq_issue]
                cases hdstArray : dstArray.array with
                | none => simp [hdstArray] at hdstTile
                | some tile =>
                    rw [hdstArray, optionalValue_some] at hdstTile
                    obtain rfl := Except.ok.inj hdstTile
                    exact .copied htile hdstArray hfits
              · cases hcopied

theorem Managed.moveToMemory (h : arrays.Managed place) (hsrc : src < arrays.numStores)
    (hdst : dst < arrays.numStores) {srcArray dstArray : CreatedArray}
    (hmoved : MovedBy arrays src dst precondition srcArray dstArray arrays') :
    arrays'.Managed place := by
  cases hmoved with
  | noTile _ => exact h.reassignId _
  | copied _ _ _ =>
      apply Managed.reassignId
      apply h.issue (nodup_stores_copyCall _ _ _ _) rfl
      intro t ht
      rcases mem_stores_copyCall.mp ht with rfl | rfl
      · exact hsrc
      · exact hdst

end Issue

end ManagedArrays

end Zuku
