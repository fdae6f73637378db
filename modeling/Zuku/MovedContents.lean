import Zuku.HeldArrays

/-!
# Moves between memories keep the contents

A program of moves computes what the same program computes on the values of its
variables, where a move hands on the id of an array and the elements of its
tile.  This holds although tasks and copies run late and in any order that
respects what they wait for, and although arrays that were freed are handed out
again while copies out of them are still to come.
-/

namespace Zuku

open Checked Event DeferredJobs Placement

variable {κ ι α σ ε : Type}

/-! ## Programs on values -/

/-- What a move hands on of an array besides its elements, and the bounds of its tile. -/
structure LogicalArray where
  id : UInt64
  tile : Option RealmShape
  deriving DecidableEq

def CreatedArray.logical (array : CreatedArray) : LogicalArray where
  id := array.meshUniqueId
  tile := array.array.map fun tile ↦ tile.shape.bounds

namespace LogicalArray

/-- The elements of the tile, and those that were there outside of it. -/
def copyInto (array : LogicalArray) (src dst : List ℤ → α) : List ℤ → α :=
  array.tile.elim dst fun bounds ↦ copyElements bounds src dst

/-- There is room for the tile in another one. -/
def FitsInto (array : LogicalArray) (tile : Option RealmShape) : Prop :=
  ∀ bounds ∈ array.tile, ∃ room ∈ tile, bounds.within room = true

end LogicalArray

/-- The arrays and the elements of the variables. -/
structure LogicalState (κ α : Type) where
  arrays : κ → Option LogicalArray := fun _ ↦ none
  elements : κ → List ℤ → α

namespace LogicalState

variable [DecidableEq κ]

def put (state : LogicalState κ α) (var : κ) (array : LogicalArray) (elements : List ℤ → α) :
    LogicalState κ α where
  arrays := Function.update state.arrays var (some array)
  elements := Function.update state.elements var elements

def remove (state : LogicalState κ α) (var : κ) : LogicalState κ α :=
  { state with arrays := Function.update state.arrays var none }

variable (state : LogicalState κ α) (var v : κ)

theorem arrays_put (array : LogicalArray) (elements : List ℤ → α) :
    (state.put var array elements).arrays v = if v = var then some array else state.arrays v :=
  Function.update_apply ..

theorem elements_put (array : LogicalArray) (elements : List ℤ → α) :
    (state.put var array elements).elements v = if v = var then elements else state.elements v :=
  Function.update_apply ..

theorem arrays_remove :
    (state.remove var).arrays v = if v = var then none else state.arrays v :=
  Function.update_apply ..

end LogicalState

/-- What a command does to the values.  Nothing is known of an array that a cache
hands out, except that after a move it has the id and the elements of the source. -/
inductive LogicalStep [DecidableEq κ] :
    LogicalState κ α → ArrayCommand κ ι α σ ε → LogicalState κ α → Prop where
  | get {state : LogicalState κ α} {var : κ} {cache : ι} {shape : ShardedShape}
      {minCacheSize : Option ℕ} {made : MadeArray ε} (array : LogicalArray)
      (elements : List ℤ → α) :
      LogicalStep state (.get var cache shape minCacheSize made) (state.put var array elements)
  | defer {state : LogicalState κ α} {call : Call κ (List ℤ → α) σ ε} :
      (∀ var ∈ call.stores, (state.arrays var).isSome) →
      LogicalStep state (.defer call)
        { state with elements := (call.toJob.after state.elements call.body.length).2 }
  | move {state : LogicalState κ α} {src dst : κ} {precondition : Option (Event (Completion ε))}
      {array room : LogicalArray} : state.arrays src = some array →
      state.arrays dst = some room → array.FitsInto room.tile →
      LogicalStep state (.move src dst precondition)
        (state.put dst ⟨array.id, room.tile⟩
          (array.copyInto (state.elements src) (state.elements dst)))
  | moveToCache {state : LogicalState κ α} {src dst : κ} {cache : ι}
      {precondition : Option (Event (Completion ε))} {made : MadeArray ε} {array : LogicalArray}
      (tile : Option RealmShape) (elements : List ℤ → α) : state.arrays src = some array →
      array.FitsInto tile →
      LogicalStep state (.moveToCache src dst cache precondition made)
        (state.put dst ⟨array.id, tile⟩ (array.copyInto (state.elements src) elements))
  | moveBetweenCaches {state : LogicalState κ α} {src dst : κ} {saveCache newCache : ι}
      {precondition : Option (Event (Completion ε))} {made : MadeArray ε} {array : LogicalArray}
      (tile : Option RealmShape) (elements : List ℤ → α) : state.arrays src = some array →
      array.FitsInto tile →
      LogicalStep state (.moveBetweenCaches src dst saveCache newCache precondition made)
        ((state.remove src).put dst ⟨array.id, tile⟩
          (array.copyInto (state.elements src) elements))
  | free {state : LogicalState κ α} {var : κ} {cache : ι} {shape : ShardedShape} :
      (state.arrays var).isSome →
      LogicalStep state (.free var cache shape) (state.remove var)
  | clear {state : LogicalState κ α} {cache : ι} : LogicalStep state (.clear cache) state

inductive LogicalRun [DecidableEq κ] :
    LogicalState κ α → List (ArrayCommand κ ι α σ ε) → LogicalState κ α → Prop where
  | nil {state : LogicalState κ α} : LogicalRun state [] state
  | cons {state next last : LogicalState κ α} {command : ArrayCommand κ ι α σ ε}
      {commands : List (ArrayCommand κ ι α σ ε)} : LogicalStep state command next →
      LogicalRun next commands last → LogicalRun state (command :: commands) last

/-! ## The values of the stores -/

section Values

open ManagedArrays

variable [Inhabited σ]

/-- The contents of the stores when everything issued so far runs one by one. -/
def ManagedArrays.contents (arrays : ManagedArrays κ ι α σ ε) (memory : ℕ → List ℤ → α) :
    ℕ → List ℤ → α :=
  valuesBefore arrays.issued memory arrays.issued.length

variable {arrays : ManagedArrays κ ι α σ ε} {memory : ℕ → List ℤ → α}

theorem contents_issue [DecidableEq ε] (call : Call ℕ (List ℤ → α) σ ε) :
    (arrays.issue call).contents memory =
      (call.toJob.after (arrays.contents memory) call.body.length).2 := by
  have hcall : (arrays.issued ++ [call])[arrays.issued.length]? = some call := by simp
  have hbefore : memoryBefore (programJobs (arrays.issued ++ [call])) memory
      arrays.issued.length = arrays.contents memory := by
    apply memoryBefore_congr
    intro k hk
    rw [programJobs, programJobs, List.getElem?_append_left hk]
  have hlength : (call.toJob).steps.length = call.body.length := by simp [Call.toJob]
  rw [ManagedArrays.contents, valuesBefore, ManagedArrays.issue]
  simp only [List.length_append, List.length_singleton]
  rw [memoryBefore, hbefore, programJobs_of_getElem? hcall, hlength]

/-- The copy of a move changes the destination only. -/
theorem after_copyCall (bounds : RealmShape) (src dst : ℕ)
    (precondition : Option (Event (Completion ε))) (contents : ℕ → List ℤ → α) :
    ((copyCall bounds src dst precondition : Call ℕ (List ℤ → α) σ ε).toJob.after contents 1).2 =
      Function.update contents dst (copyElements bounds (contents src) (contents dst)) := by
  set call : Call ℕ (List ℤ → α) σ ε := copyCall bounds src dst precondition with hcall
  have hsrc : src ∈ call.stores := mem_stores_copyCall.mpr (Or.inl rfl)
  have hdst : dst ∈ call.stores := mem_stores_copyCall.mpr (Or.inr rfl)
  have hwritten : dst ∈ call.written := by rwa [hcall, written_copyCall]
  have hstep : call.toJob.steps[0]? = some (call.runStep (copyStep bounds src dst)) := rfl
  rw [Job.after_succ _ _ hstep]
  funext t
  by_cases heq : t = dst
  · simp [Call.runStep, copyStep, heq, hwritten, hsrc, hdst]
  · simp [Call.runStep, copyStep, heq]

/-- What a move makes of the arrays and the contents. -/
structure Transferred [DecidableEq ε] (arrays arrays' : ManagedArrays κ ι α σ ε) (src dst : ℕ)
    (srcArray dstArray : CreatedArray) (memory : ℕ → List ℤ → α) : Prop where
  held_eq : arrays'.held = arrays.held
  numStores_eq : arrays'.numStores = arrays.numStores
  value_eq : ∀ t, arrays'.value t =
    if t = dst then some { dstArray with meshUniqueId := srcArray.meshUniqueId }
    else arrays.value t
  contents_eq : arrays'.contents memory = Function.update (arrays.contents memory) dst
    (srcArray.logical.copyInto (arrays.contents memory src) (arrays.contents memory dst))
  fitsInto : srcArray.logical.FitsInto dstArray.logical.tile

theorem ManagedArrays.MovedBy.transferred [DecidableEq ε] {arrays' : ManagedArrays κ ι α σ ε}
    {src dst : ℕ} {precondition : Option (Event (Completion ε))} {srcArray dstArray : CreatedArray}
    (h : MovedBy arrays src dst precondition srcArray dstArray arrays')
    (hdst : arrays.value dst = some dstArray) (memory : ℕ → List ℤ → α) :
    Transferred arrays arrays' src dst srcArray dstArray memory := by
  cases h with
  | noTile htile =>
      refine ⟨rfl, rfl, fun t ↦ ?_, ?_, ?_⟩
      · rw [value_reassignId, hdst]
        rfl
      · have hcopy : srcArray.logical.copyInto (arrays.contents memory src)
            (arrays.contents memory dst) = arrays.contents memory dst := by
          simp [LogicalArray.copyInto, CreatedArray.logical, htile]
        rw [hcopy, Function.update_eq_self]
        rfl
      · intro bounds hbounds
        simp [CreatedArray.logical, htile] at hbounds
  | @copied srcTile dstTile htile hdstTile hfits =>
      refine ⟨rfl, rfl, fun t ↦ ?_, ?_, ?_⟩
      · rw [value_reassignId, value_issue, value_issue, hdst]
        rfl
      · have hcopy : srcArray.logical.copyInto (arrays.contents memory src)
            (arrays.contents memory dst) = copyElements srcTile.shape.bounds
              (arrays.contents memory src) (arrays.contents memory dst) := by
          simp [LogicalArray.copyInto, CreatedArray.logical, htile]
        rw [hcopy]
        exact (contents_issue _).trans (after_copyCall _ src dst precondition _)
      · intro bounds hbounds
        obtain rfl : srcTile.shape.bounds = bounds := by
          simpa [CreatedArray.logical, htile] using hbounds
        refine ⟨dstTile.shape.bounds, by simp [CreatedArray.logical, hdstTile], ?_⟩
        rw [ArrayTile.fits, Bool.and_eq_true] at hfits
        exact hfits.2

end Values

/-! ## The variables and their stores -/

/-- The values of the variables are those of the stores that they hold. -/
structure Represents [Inhabited σ] (arrays : ManagedArrays κ ι α σ ε)
    (memory : ℕ → List ℤ → α) (state : LogicalState κ α) : Prop where
  arrays_eq : ∀ var, state.arrays var =
    (arrays.held var).bind fun s ↦ (arrays.value s).map CreatedArray.logical
  elements_eq : ∀ var s, arrays.held var = some s → arrays.contents memory s = state.elements var

section Represents

open ManagedArrays

variable [Inhabited σ] {arrays arrays' : ManagedArrays κ ι α σ ε} {memory : ℕ → List ℤ → α}
  {state : LogicalState κ α} {place place' : ℕ → Option (κ ⊕ (ι × ShardedShape))}
  {var : κ} {s : ℕ}

theorem Represents.arrays_of_held (h : Represents arrays memory state)
    (hvar : arrays.held var = some s) :
    state.arrays var = (arrays.value s).map CreatedArray.logical := by
  rw [h.arrays_eq, hvar, Option.bind_some]

theorem Represents.held_of_isSome (h : Represents arrays memory state)
    (hvar : arrays.held var = some s) (hmanaged : arrays.Managed place) :
    (state.arrays var).isSome := by
  obtain ⟨array, harray⟩ := hmanaged.hasValue s (hmanaged.lt_of_held hvar)
  rw [h.arrays_of_held hvar, harray]
  rfl

theorem Represents.obtained (h : Represents arrays memory state) (hmanaged : arrays.Managed place)
    (hobtained : Obtained arrays arrays' place place' s) : Represents arrays' memory state := by
  constructor
  · intro v
    rw [hobtained.held_eq, h.arrays_eq]
    refine Option.bind_congr fun t ht ↦ ?_
    rw [hobtained.value_eq t (hmanaged.lt_of_held ht)]
  · intro v t ht
    rw [hobtained.held_eq] at ht
    rw [contents, hobtained.issued_eq]
    exact h.elements_eq v t ht

/-- What is done to a store that no variable holds. -/
theorem Represents.transferred_nowhere [DecidableEq ε] (h : Represents arrays memory state)
    {src dst : ℕ} {srcArray dstArray : CreatedArray}
    (hmoved : Transferred arrays arrays' src dst srcArray dstArray memory)
    (hdst : ∀ v, arrays.held v ≠ some dst) : Represents arrays' memory state := by
  constructor
  · intro v
    rw [hmoved.held_eq, h.arrays_eq]
    refine Option.bind_congr fun t ht ↦ ?_
    have hne : t ≠ dst := by
      rintro rfl
      exact hdst v ht
    rw [hmoved.value_eq, if_neg hne]
  · intro v t ht
    rw [hmoved.held_eq] at ht
    have hne : t ≠ dst := by
      rintro rfl
      exact hdst v ht
    rw [hmoved.contents_eq, Function.update_of_ne hne]
    exact h.elements_eq v t ht

variable [DecidableEq κ]

theorem Represents.assign (h : Represents arrays memory state) (var : κ) {array : CreatedArray}
    (hvalue : arrays.value s = some array) :
    Represents (arrays.assign var s) memory
      (state.put var array.logical (arrays.contents memory s)) := by
  constructor
  · intro v
    rw [LogicalState.arrays_put, held_assign]
    split
    · rw [Option.bind_some]
      exact (congrArg (Option.map CreatedArray.logical) hvalue).symm
    · exact h.arrays_eq v
  · intro v t ht
    rw [LogicalState.elements_put]
    rw [held_assign] at ht
    split_ifs at ht ⊢
    · obtain rfl := Option.some.inj ht
      rfl
    · exact h.elements_eq v t ht

theorem Represents.release (h : Represents arrays memory state) (var : κ) :
    Represents (arrays.release var) memory (state.remove var) := by
  constructor
  · intro v
    rw [LogicalState.arrays_remove, held_release]
    split
    · rfl
    · exact h.arrays_eq v
  · intro v t ht
    rw [held_release] at ht
    split_ifs at ht
    exact h.elements_eq v t ht

/-- A move into the store of another variable. -/
theorem Represents.transferred [DecidableEq ε] (h : Represents arrays memory state)
    (hmanaged : arrays.Managed place) {src dst : κ} {srcStore dstStore : ℕ}
    (hsrc : arrays.held src = some srcStore) (hdst : arrays.held dst = some dstStore)
    {srcArray dstArray : CreatedArray}
    (hmoved : Transferred arrays arrays' srcStore dstStore srcArray dstArray memory) :
    Represents arrays' memory (state.put dst ⟨srcArray.logical.id, dstArray.logical.tile⟩
      (srcArray.logical.copyInto (state.elements src) (state.elements dst))) := by
  have hother {v : κ} (hv : v ≠ dst) {t : ℕ} (ht : arrays.held v = some t) : t ≠ dstStore := by
    rintro rfl
    exact hv (hmanaged.placed.slot_injective ht hdst)
  constructor
  · intro v
    rw [hmoved.held_eq, LogicalState.arrays_put]
    by_cases heq : v = dst
    · rw [if_pos heq, heq, hdst, Option.bind_some, hmoved.value_eq, if_pos rfl]
      rfl
    · rw [if_neg heq, h.arrays_eq]
      refine Option.bind_congr fun t ht ↦ ?_
      rw [hmoved.value_eq, if_neg (hother heq ht)]
  · intro v t ht
    rw [hmoved.held_eq] at ht
    rw [hmoved.contents_eq, LogicalState.elements_put]
    by_cases heq : v = dst
    · subst heq
      obtain rfl : dstStore = t := Option.some.inj (hdst.symm.trans ht)
      rw [Function.update_self, if_pos rfl, h.elements_eq src srcStore hsrc,
        h.elements_eq v dstStore hdst]
    · rw [Function.update_of_ne (hother heq ht), if_neg heq]
      exact h.elements_eq v t ht

end Represents

/-! ## Steps -/

/-- A task is given different variables, and is not stream-ordered. -/
def ArrayCommand.Plain : ArrayCommand κ ι α σ ε → Prop
  | .defer call => call.stores.Nodup ∧ call.context.streamOrdered = none
  | _ => True

section Steps

open ManagedArrays

variable [DecidableEq κ] [DecidableEq ι] [DecidableEq ε] [Inhabited σ]
  {arrays arrays' : ManagedArrays κ ι α σ ε} {memory : ℕ → List ℤ → α}
  {state : LogicalState κ α} {place place' : ℕ → Option (κ ⊕ (ι × ShardedShape))} {s : ℕ}

/-- The array that a move with a cache has made, which is nowhere yet. -/
structure NewArray (arrays arrays' : ManagedArrays κ ι α σ ε)
    (place place' : ℕ → Option (κ ⊕ (ι × ShardedShape))) (src s : ℕ)
    (srcArray newArray : CreatedArray) (memory : ℕ → List ℤ → α) : Prop where
  managed : arrays'.Managed place'
  nowhere : place' s = none
  lt : s < arrays'.numStores
  others_nowhere : ∀ t < arrays.numStores, place t = none → t ≠ s ∧ place' t = none
  le_numStores : arrays.numStores ≤ arrays'.numStores
  src_value : arrays.value src = some srcArray
  value_eq : arrays'.value s = some newArray
  logical_eq : newArray.logical = ⟨srcArray.logical.id, newArray.logical.tile⟩
  fitsInto : srcArray.logical.FitsInto newArray.logical.tile
  contents_eq : ∃ elements, arrays'.contents memory s =
    srcArray.logical.copyInto (arrays.contents memory src) elements
  represents : ∀ state, Represents arrays memory state → Represents arrays' memory state

omit [DecidableEq κ] in
theorem exists_newArray (memory : ℕ → List ℤ → α) (hmanaged : arrays.Managed place) {src : ℕ}
    (hsrc : src < arrays.numStores) {cache : ι} {precondition : Option (Event (Completion ε))}
    {made : MadeArray ε}
    (hmove : arrays.moveToCache src cache precondition made = .ok (s, arrays')) :
    ∃ place' srcArray newArray,
      NewArray arrays arrays' place place' src s srcArray newArray memory := by
  obtain ⟨srcArray, hvalue, hmove⟩ := bind_eq_ok_iff.mp hmove
  obtain ⟨⟨store, got⟩, hget, hmove⟩ := bind_eq_ok_iff.mp hmove
  obtain ⟨moved, hmoved, hmove⟩ := bind_eq_ok_iff.mp hmove
  obtain ⟨rfl, rfl⟩ := Prod.mk.inj (Except.ok.inj hmove)
  obtain ⟨place', hobtained⟩ := hmanaged.getFromCache hget
  obtain ⟨srcArray', dstArray, hsrcValue, hdstValue, hby⟩ := movedBy_of_moveToMemory hmoved
  have hold : arrays.value src = some srcArray' := by
    rw [← hobtained.value_eq src hsrc, hsrcValue]
  have htransferred := hby.transferred hdstValue memory
  have hcontents : got.contents memory = arrays.contents memory := by
    rw [contents, contents, hobtained.issued_eq]
  have hnothing (v : κ) : got.held v ≠ some store := by
    intro hv
    have hplace := hobtained.managed.placed.slot v store hv
    simp [hobtained.nowhere] at hplace
  refine ⟨place', srcArray', { dstArray with meshUniqueId := srcArray'.meshUniqueId },
    ⟨?_, hobtained.nowhere, ?_, hobtained.others_nowhere, ?_, hold, ?_, rfl,
      htransferred.fitsInto, ⟨got.contents memory store, ?_⟩, ?_⟩⟩
  · exact hobtained.managed.moveToMemory (hsrc.trans_le hobtained.le_numStores) hobtained.lt hby
  · rw [htransferred.numStores_eq]
    exact hobtained.lt
  · rw [htransferred.numStores_eq]
    exact hobtained.le_numStores
  · rw [htransferred.value_eq, if_pos rfl]
  · rw [htransferred.contents_eq, Function.update_self, hcontents]
  · intro state hstate
    exact (hstate.obtained hmanaged hobtained).transferred_nowhere htransferred hnothing

/-- A step of a program is a step on the values of its variables. -/
def Simulated (arrays' : ManagedArrays κ ι α σ ε) (memory : ℕ → List ℤ → α)
    (state : LogicalState κ α) (command : ArrayCommand κ ι α σ ε) : Prop :=
  ∃ place' state', arrays'.Managed place' ∧ LogicalStep state command state' ∧
    Represents arrays' memory state'

theorem heldStore_of_ok {x : Option ℕ} {store : ℕ} (h : optionalValue x = .ok store) :
    x = some store := by
  cases x with
  | none => cases h
  | some t => exact congrArg some (Except.ok.inj h)

theorem simulated_get (hmanaged : arrays.Managed place) (h : Represents arrays memory state)
    {var : κ} {cache : ι} {shape : ShardedShape} {minCacheSize : Option ℕ} {made : MadeArray ε}
    (hstep : arrays.step (.get var cache shape minCacheSize made) = .ok arrays') :
    Simulated arrays' memory state (.get var cache shape minCacheSize made) := by
  obtain ⟨⟨store, got⟩, hget, hstep⟩ := bind_eq_ok_iff.mp hstep
  obtain rfl := Except.ok.inj hstep
  obtain ⟨place', hobtained⟩ := hmanaged.getFromCache hget
  obtain ⟨array, harray⟩ := hobtained.managed.hasValue store hobtained.lt
  exact ⟨_, _, hobtained.managed.assign var hobtained.nowhere hobtained.lt, .get _ _,
    (h.obtained hmanaged hobtained).assign var harray⟩

theorem simulated_move (hmanaged : arrays.Managed place) (h : Represents arrays memory state)
    {src dst : κ} {precondition : Option (Event (Completion ε))}
    (hstep : arrays.step (.move src dst precondition) = .ok arrays') :
    Simulated arrays' memory state (.move src dst precondition) := by
  obtain ⟨srcStore, hsrc, hstep⟩ := bind_eq_ok_iff.mp hstep
  obtain ⟨dstStore, hdst, hstep⟩ := bind_eq_ok_iff.mp hstep
  have hsrc := heldStore_of_ok hsrc
  have hdst := heldStore_of_ok hdst
  obtain ⟨srcArray, dstArray, hsrcValue, hdstValue, hby⟩ := movedBy_of_moveToMemory hstep
  have htransferred := hby.transferred hdstValue memory
  refine ⟨place, _, hmanaged.moveToMemory (hmanaged.lt_of_held hsrc) (hmanaged.lt_of_held hdst)
    hby, .move ?_ ?_ htransferred.fitsInto, h.transferred hmanaged hsrc hdst htransferred⟩
  · rw [h.arrays_of_held hsrc, hsrcValue]
    rfl
  · rw [h.arrays_of_held hdst, hdstValue]
    rfl

theorem simulated_moveToCache (hmanaged : arrays.Managed place)
    (h : Represents arrays memory state) {src dst : κ} {cache : ι}
    {precondition : Option (Event (Completion ε))} {made : MadeArray ε}
    (hstep : arrays.step (.moveToCache src dst cache precondition made) = .ok arrays') :
    Simulated arrays' memory state (.moveToCache src dst cache precondition made) := by
  obtain ⟨srcStore, hsrc, hstep⟩ := bind_eq_ok_iff.mp hstep
  obtain ⟨⟨newStore, moved⟩, hmove, hstep⟩ := bind_eq_ok_iff.mp hstep
  obtain rfl := Except.ok.inj hstep
  have hsrc := heldStore_of_ok hsrc
  obtain ⟨place', srcArray, newArray, hnew⟩ :=
    exists_newArray memory hmanaged (hmanaged.lt_of_held hsrc) hmove
  obtain ⟨elements, hcontents⟩ := hnew.contents_eq
  have hassigned := (hnew.represents state h).assign dst hnew.value_eq
  rw [hcontents, h.elements_eq src srcStore hsrc, hnew.logical_eq] at hassigned
  refine ⟨_, _, hnew.managed.assign dst hnew.nowhere hnew.lt, .moveToCache _ elements ?_
    hnew.fitsInto, hassigned⟩
  rw [h.arrays_of_held hsrc, hnew.src_value]
  rfl

theorem simulated_moveBetweenCaches (hmanaged : arrays.Managed place)
    (h : Represents arrays memory state) {src dst : κ} {saveCache newCache : ι}
    {precondition : Option (Event (Completion ε))} {made : MadeArray ε}
    (hstep : arrays.step (.moveBetweenCaches src dst saveCache newCache precondition made) =
      .ok arrays') :
    Simulated arrays' memory state
      (.moveBetweenCaches src dst saveCache newCache precondition made) := by
  obtain ⟨srcStore, hsrc, hstep⟩ := bind_eq_ok_iff.mp hstep
  obtain ⟨⟨newStore, freed⟩, hmove, hstep⟩ := bind_eq_ok_iff.mp hstep
  obtain rfl := Except.ok.inj hstep
  obtain ⟨⟨newStore', moved⟩, hnewArray, hfree⟩ := bind_eq_ok_iff.mp hmove
  obtain ⟨srcArray', -, hfree⟩ := bind_eq_ok_iff.mp hfree
  obtain ⟨rfl, rfl⟩ := Prod.mk.inj (Except.ok.inj hfree)
  have hsrc := heldStore_of_ok hsrc
  have hlt := hmanaged.lt_of_held hsrc
  have hreleased := hmanaged.release hsrc
  obtain ⟨place', srcArray, newArray, hnew⟩ := exists_newArray memory hreleased hlt hnewArray
  obtain ⟨elements, hcontents⟩ := hnew.contents_eq
  -- the source is nowhere while its contents are copied
  obtain ⟨hne, hnowhere⟩ := hnew.others_nowhere srcStore hlt (Function.update_self ..)
  have hfreed := hnew.managed.freeIntoCache saveCache srcArray'.shape hnowhere
    (lt_of_lt_of_le hlt hnew.le_numStores)
  have hnew' : Function.update place' srcStore (some (.inr (saveCache, srcArray'.shape)))
      newStore' = none := by
    rw [Function.update_of_ne hne.symm]
    exact hnew.nowhere
  have hassigned := (hnew.represents _ (h.release src)).assign dst hnew.value_eq
  have hsrcContents : (arrays.release src).contents memory srcStore = state.elements src :=
    h.elements_eq src srcStore hsrc
  rw [hcontents, hsrcContents, hnew.logical_eq] at hassigned
  refine ⟨_, _, hfreed.assign dst hnew' hnew.lt, .moveBetweenCaches _ elements ?_ hnew.fitsInto,
    ⟨hassigned.arrays_eq, hassigned.elements_eq⟩⟩
  rw [h.arrays_of_held hsrc]
  exact congrArg (Option.map CreatedArray.logical) hnew.src_value

theorem simulated_free (hmanaged : arrays.Managed place) (h : Represents arrays memory state)
    {var : κ} {cache : ι} {shape : ShardedShape}
    (hstep : arrays.step (.free var cache shape) = .ok arrays') :
    Simulated arrays' memory state (.free var cache shape) := by
  obtain ⟨store, hvar, hstep⟩ := bind_eq_ok_iff.mp hstep
  obtain rfl := Except.ok.inj hstep
  have hvar := heldStore_of_ok hvar
  have hreleased := h.release var
  exact ⟨_, _, (hmanaged.release hvar).freeIntoCache cache shape (Function.update_self ..)
    (hmanaged.lt_of_held hvar), .free (h.held_of_isSome hvar hmanaged),
    ⟨hreleased.arrays_eq, hreleased.elements_eq⟩⟩

theorem simulated_clear (hmanaged : arrays.Managed place) (h : Represents arrays memory state)
    {cache : ι} (hstep : arrays.step (.clear cache) = .ok arrays') :
    Simulated arrays' memory state (.clear cache) := by
  obtain rfl := Except.ok.inj hstep
  exact ⟨_, _, hmanaged.clear cache, .clear, ⟨h.arrays_eq, h.elements_eq⟩⟩

/-- A task on the stores of its variables does to them what it does to the values
of the variables. -/
theorem simulated_defer (hmanaged : arrays.Managed place) (h : Represents arrays memory state)
    {call : Call κ (List ℤ → α) σ ε} (hnodup : call.stores.Nodup)
    (hstream : call.context.streamOrdered = none)
    (hstep : arrays.step (.defer call) = .ok arrays') :
    Simulated arrays' memory state (.defer call) := by
  rw [step] at hstep
  split at hstep
  case isFalse => cases hstep
  rename_i hall
  obtain rfl := Except.ok.inj hstep
  set f : κ → ℕ := fun var ↦ (arrays.held var).getD 0 with hf
  have hheld {var : κ} (hvar : var ∈ call.stores) : arrays.held var = some (f var) := by
    obtain ⟨s, hs⟩ := Option.isSome_iff_exists.mp (List.all_eq_true.mp hall var hvar)
    rw [hf]
    simp only [hs, Option.getD_some]
  have hseparates : call.Separates f := by
    intro v hv w hw heq
    have hw := hheld hw
    rw [← heq] at hw
    exact hmanaged.placed.slot_injective (hheld hv) hw
  have hbody : (call.rename f).body.length = call.body.length := List.length_map _
  have hafter (var : κ) (hvar : var ∈ call.stores) :
      ((call.rename f).toJob.after (arrays.contents memory) call.body.length).2 (f var) =
        (call.toJob.after state.elements call.body.length).2 var :=
    (hseparates.after_rename (fun var hvar ↦ h.elements_eq var _ (hheld hvar)) _).2 var hvar
  refine ⟨place, _, hmanaged.issue ?_ hstream ?_, .defer ?_, ?_, ?_⟩
  · rw [Call.stores_rename]
    exact hnodup.map_on fun v hv w hw ↦ hseparates hv hw
  · intro t ht
    rw [Call.stores_rename] at ht
    obtain ⟨var, hvar, rfl⟩ := List.mem_map.mp ht
    exact hmanaged.lt_of_held (hheld hvar)
  · exact fun var hvar ↦ h.held_of_isSome (hheld hvar) hmanaged
  · intro var
    rw [h.arrays_eq]
    refine Option.bind_congr fun t _ ↦ ?_
    rw [value_issue]
  · intro var t ht
    have hold : arrays.held var = some t := ht
    rw [contents_issue, hbody]
    by_cases hvar : var ∈ call.stores
    · obtain rfl : f var = t := Option.some.inj ((hheld hvar).symm.trans hold)
      exact hafter var hvar
    · have hnotWritten : t ∉ (call.rename f).written := by
        intro hwritten
        rw [Call.written_rename] at hwritten
        obtain ⟨other, hother, rfl⟩ := List.mem_map.mp hwritten
        have hother := Call.mem_stores_of_mem_written hother
        rw [hmanaged.placed.slot_injective hold (hheld hother)] at hvar
        exact hvar hother
      rw [Job.after_of_not_mem _ _ _ hnotWritten, h.elements_eq var t hold]
      exact (Job.after_of_not_mem _ _ _ fun hwritten ↦
        hvar (Call.mem_stores_of_mem_written hwritten)).symm

theorem simulated_step (hmanaged : arrays.Managed place) (h : Represents arrays memory state)
    {command : ArrayCommand κ ι α σ ε} (hplain : command.Plain)
    (hstep : arrays.step command = .ok arrays') : Simulated arrays' memory state command := by
  cases command with
  | get var cache shape minCacheSize made => exact simulated_get hmanaged h hstep
  | defer call => exact simulated_defer hmanaged h hplain.1 hplain.2 hstep
  | move src dst precondition => exact simulated_move hmanaged h hstep
  | moveToCache src dst cache precondition made => exact simulated_moveToCache hmanaged h hstep
  | moveBetweenCaches src dst saveCache newCache precondition made =>
      exact simulated_moveBetweenCaches hmanaged h hstep
  | free var cache shape => exact simulated_free hmanaged h hstep
  | clear cache => exact simulated_clear hmanaged h hstep

theorem simulated_run (hmanaged : arrays.Managed place) (h : Represents arrays memory state)
    {commands : List (ArrayCommand κ ι α σ ε)} (hplain : ∀ command ∈ commands, command.Plain)
    (hrun : arrays.run commands = .ok arrays') : ∃ place' state', arrays'.Managed place' ∧
      LogicalRun state commands state' ∧ Represents arrays' memory state' := by
  induction commands generalizing arrays place state with
  | nil =>
      obtain rfl := Except.ok.inj hrun
      exact ⟨place, state, hmanaged, .nil, h⟩
  | cons command commands ih =>
      obtain ⟨next, hstep, hrun⟩ := bind_eq_ok_iff.mp hrun
      rw [List.forall_mem_cons] at hplain
      obtain ⟨place₁, state₁, hmanaged₁, hlogical, h₁⟩ :=
        simulated_step hmanaged h hplain.1 hstep
      obtain ⟨place', state', hmanaged', hlogicalRun, h'⟩ := ih hmanaged₁ h₁ hplain.2 hrun
      exact ⟨place', state', hmanaged', .cons hlogical hlogicalRun, h'⟩

end Steps

/-! ## Schedules -/

section Schedules

open ManagedArrays

variable [DecidableEq ε] [Inhabited σ] {arrays : ManagedArrays κ ι α σ ε}
  {place : ℕ → Option (κ ⊕ (ι × ShardedShape))}

/-- A store whose events have triggered holds what it holds when everything runs
one by one, whatever else has run. -/
theorem memory_eq_contents (hmanaged : arrays.Managed place) {memory : ℕ → List ℤ → α}
    {actions : List (Action ε)} {world : World ℕ (List ℤ → α) σ ε}
    (hrun : World.run arrays.issued arrays.deferred.preconditions { memory := memory } actions =
      some world) {s : ℕ}
    (hready : (arrays.deferred.stores s).waitEvent ⊆ world.triggered) :
    world.memory s = arrays.contents memory s := by
  have htracked := hmanaged.tracked
  have horder (i j : ℕ) (hij : i < j)
      (hconflict : Conflict (programJobs arrays.issued i) (programJobs arrays.issued j)) :
      Before (Waits arrays.deferred.preconditions) Completion.task i j := by
    obtain ⟨a, b, hi, hj, hcalls⟩ := exists_of_conflict hconflict
    exact htracked.ordered i j a b hij hi hj hcalls
  have hinjective : Function.Injective (Completion.task : ℕ → Completion ε) :=
    fun _ _ h ↦ Completion.task.inj h
  have hinit : Serial (programJobs arrays.issued) (Waits arrays.deferred.preconditions)
      Completion.task memory ({ memory := memory } : World ℕ (List ℤ → α) σ ε).toState :=
    serial_init (by simp)
  have hserial := hinit.run hinjective horder (World.run_steps hrun)
  have hidle : s ∉ (programJobs arrays.issued arrays.issued.length).writes := by
    rw [programJobs_of_le le_rfl]
    exact Set.notMem_empty s
  have hmemory := hserial.memory arrays.issued.length s
    (fun k hk hwrites ↦ by
      rw [programJobs_of_getElem? (List.getElem?_eq_getElem hk)] at hwrites
      have hwriter := htracked.writer k _ s (List.getElem?_eq_getElem hk) hwrites
      exact hready (Finset.mem_union_left _ hwriter))
    (fun k hk hwrites ↦ by
      rw [programJobs_of_le hk.le] at hwrites
      exact absurd hwrites (Set.notMem_empty s))
  exact hmemory.trans (Job.after_of_not_mem _ _ _ hidle)

/-- The variables hold the arrays of a run on values, and have its elements once
their stores are ready. -/
structure KeepsContents (arrays : ManagedArrays κ ι α σ ε) (memory : ℕ → List ℤ → α)
    (state : LogicalState κ α) : Prop where
  arrays_eq : ∀ var, state.arrays var =
    (arrays.held var).bind fun s ↦ (arrays.value s).map CreatedArray.logical
  elements_eq : ∀ (actions : List (Action ε)) (world : World ℕ (List ℤ → α) σ ε),
    World.run arrays.issued arrays.deferred.preconditions { memory := memory } actions =
      some world →
    ∀ var s, arrays.held var = some s →
      (arrays.deferred.stores s).waitEvent ⊆ world.triggered →
      world.memory s = state.elements var

variable [DecidableEq κ] [DecidableEq ι]

/-- Whatever is moved, freed and handed out again, and whatever order the tasks
and copies run in: what a variable holds when its store is ready is what it holds
in a run on values. -/
theorem run_keepsContents (commands : List (ArrayCommand κ ι α σ ε))
    (hplain : ∀ command ∈ commands, command.Plain)
    (hrun : ManagedArrays.run {} commands = .ok arrays) (elements : κ → List ℤ → α)
    (memory : ℕ → List ℤ → α) :
    ∃ state, LogicalRun { elements := elements } commands state ∧
      KeepsContents arrays memory state := by
  have hinit : Represents ({} : ManagedArrays κ ι α σ ε) memory { elements := elements } :=
    ⟨fun _ ↦ rfl, fun var s hs ↦ by cases hs⟩
  obtain ⟨place, state, hmanaged, hlogical, h⟩ := simulated_run managed_empty hinit hplain hrun
  refine ⟨state, hlogical, h.arrays_eq, fun actions world hworld var s hs hready ↦ ?_⟩
  rw [memory_eq_contents hmanaged hworld hready]
  exact h.elements_eq var s hs

end Schedules

/-- An array that is written, moved out of the way while its old store is written
again for another variable, and moved back. -/
def offloadCommands : List (ArrayCommand ℕ Bool ℕ ℕ ℕ) :=
  let shape : ShardedShape := ⟨.f32, ⟨[⟨2, 1, 0⟩], ⟨0, 1⟩⟩⟩
  let made (id : UInt64) : MadeArray ℕ :=
    ⟨⟨id, shape, 0, ⟨.gpu, 0, 0⟩, none,
      some ⟨id.toNat, ⟨.f32, [2], ⟨1, [(0, 1)]⟩⟩, .int32⟩⟩, {.external id.toNat}⟩
  let fill (var value : ℕ) : Call ℕ (List ℤ → ℕ) ℕ ℕ :=
    ⟨{}, [.reference var], 0, [fun l _ ↦ (l, fun _ ↦ some fun _ ↦ value)]⟩
  [.get 0 true shape none (made 0), .defer (fill 0 7),
    .moveBetweenCaches 0 1 true false none (made 1), .get 2 true shape none (made 2),
    .defer (fill 2 9), .moveBetweenCaches 1 0 false true none (made 2)]

theorem run_offloadCommands_keepsContents :
    ∃ arrays, ManagedArrays.run {} offloadCommands = .ok arrays ∧
      (arrays.held 0, arrays.held 1, arrays.held 2) = (some 2, none, some 0) ∧
      ∃ state, LogicalRun { elements := fun _ _ ↦ 0 } offloadCommands state ∧
        KeepsContents arrays (fun _ _ ↦ 0) state := by
  refine ⟨_, rfl, rfl, run_keepsContents offloadCommands ?_ rfl (fun _ _ ↦ 0) fun _ _ ↦ 0⟩
  simp only [offloadCommands, List.forall_mem_cons]
  exact ⟨trivial, ⟨by decide, rfl⟩, trivial, trivial, ⟨by decide, rfl⟩, trivial, by simp⟩

end Zuku
