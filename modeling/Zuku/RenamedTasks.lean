import Zuku.SequentialTasks

/-!
# Tasks on other stores

A task that is given stores by the names of variables does to their values what
its body does to the values by name, as long as different names stand for
different stores.
-/

namespace Zuku

open DeferredJobs

variable {ε κ κ' ν σ : Type}

def Argument.map (f : κ → κ') : Argument κ → Argument κ'
  | .reference store => .reference (f store)
  | .constReference store => .constReference (f store)
  | .value store => .value (f store)
  | .rwVector stores => .rwVector (stores.map f)
  | .roVector stores => .roVector (stores.map f)

theorem Argument.uses_map (f : κ → κ') (argument : Argument κ) :
    (argument.map f).uses = argument.uses.map fun use ↦ (f use.1, use.2) := by
  cases argument <;> simp [map, uses]

variable [DecidableEq κ] [DecidableEq κ']

namespace Call

/-- A step of the body sees and sets the values of the stores that the names
stand for. -/
def renameStep (names : List κ) (f : κ → κ') (step : σ → (κ → Option ν) → σ × (κ → Option ν))
    (l : σ) (seen : κ' → Option ν) : σ × (κ' → Option ν) :=
  let (l, set) := step l fun name ↦ if name ∈ names then seen (f name) else none
  (l, fun store ↦ (names.find? fun name ↦ decide (f name = store)).bind set)

def rename (f : κ → κ') (call : Call κ ν σ ε) : Call κ' ν σ ε where
  context := call.context
  args := call.args.map (Argument.map f)
  init := call.init
  body := call.body.map (renameStep call.stores f)

variable (f : κ → κ') (call : Call κ ν σ ε)

theorem uses_rename : (call.rename f).uses = call.uses.map fun use ↦ (f use.1, use.2) := by
  rw [uses, uses, rename, List.flatMap_map, List.map_flatMap]
  exact congrArg call.args.flatMap (funext (Argument.uses_map f))

theorem stores_rename : (call.rename f).stores = call.stores.map f := by
  rw [stores, stores, uses_rename, List.map_map, List.map_map]
  rfl

theorem written_rename : (call.rename f).written = call.written.map f := by
  rw [written, written, uses_rename, List.filter_map, List.map_map, List.map_map]
  rfl

variable {f call} {memory : κ → ν} {memory' : κ' → ν}

/-- Different names stand for different stores. -/
def Separates (f : κ → κ') (call : Call κ ν σ ε) : Prop := Set.InjOn f {name | name ∈ call.stores}

omit [DecidableEq κ] in
theorem Separates.find?_eq (h : Separates f call) {name : κ} (hname : name ∈ call.stores) :
    (call.stores.find? fun other ↦ decide (f other = f name)) = some name := by
  obtain ⟨other, hother⟩ : ∃ other,
      (call.stores.find? fun other ↦ decide (f other = f name)) = some other := by
    rw [← Option.isSome_iff_exists, List.find?_isSome]
    exact ⟨name, hname, decide_eq_true rfl⟩
  have heq := List.find?_some hother
  rw [decide_eq_true_eq] at heq
  rw [hother, h (List.mem_of_find?_eq_some hother) hname heq]

theorem Separates.mem_written_iff (h : Separates f call) {name : κ} (hname : name ∈ call.stores) :
    f name ∈ (call.rename f).written ↔ name ∈ call.written := by
  rw [written_rename, List.mem_map]
  constructor
  · rintro ⟨other, hother, heq⟩
    rwa [← h (mem_stores_of_mem_written hother) hname heq]
  · exact fun hwritten ↦ ⟨name, hwritten, rfl⟩

/-- One step of the body. -/
theorem Separates.runStep_rename (h : Separates f call)
    (step : σ → (κ → Option ν) → σ × (κ → Option ν)) (l : σ)
    (hmemory : ∀ name ∈ call.stores, memory' (f name) = memory name) :
    ((call.rename f).runStep (renameStep call.stores f step) l memory').1 =
        (call.runStep step l memory).1 ∧
      ∀ name ∈ call.stores,
        ((call.rename f).runStep (renameStep call.stores f step) l memory').2 (f name) =
          (call.runStep step l memory).2 name := by
  have hseen : (fun name ↦ if name ∈ call.stores then
      (if f name ∈ (call.rename f).stores then some (memory' (f name)) else none) else none) =
        fun name ↦ if name ∈ call.stores then some (memory name) else none := by
    funext name
    by_cases hname : name ∈ call.stores
    · have hmem : f name ∈ (call.rename f).stores := by
        rw [stores_rename]
        exact List.mem_map_of_mem hname
      rw [if_pos hname, if_pos hname, if_pos hmem, hmemory name hname]
    · rw [if_neg hname, if_neg hname]
  constructor
  · simp only [runStep, renameStep, hseen]
  · intro name hname
    simp only [runStep, renameStep, hseen, h.mem_written_iff hname, h.find?_eq hname,
      Option.bind_some, hmemory name hname]

/-- The whole body. -/
theorem Separates.after_rename (h : Separates f call)
    (hmemory : ∀ name ∈ call.stores, memory' (f name) = memory name) (n : ℕ) :
    ((call.rename f).toJob.after memory' n).1 = (call.toJob.after memory n).1 ∧
      ∀ name ∈ call.stores,
        ((call.rename f).toJob.after memory' n).2 (f name) =
          (call.toJob.after memory n).2 name := by
  induction n with
  | zero => exact ⟨rfl, hmemory⟩
  | succ n ih =>
      cases hbody : call.body[n]? with
      | none =>
          have hsteps : call.toJob.steps[n]? = none := by simp [toJob, hbody]
          have hsteps' : (call.rename f).toJob.steps[n]? = none := by simp [toJob, rename, hbody]
          simpa only [Job.after, hsteps, hsteps'] using ih
      | some step =>
          have hsteps : call.toJob.steps[n]? = some (call.runStep step) := by
            simp [toJob, hbody]
          have hsteps' : (call.rename f).toJob.steps[n]? =
              some ((call.rename f).runStep (renameStep call.stores f step)) := by
            simp [toJob, rename, hbody]
          rw [Job.after_succ _ _ hsteps, Job.after_succ _ _ hsteps', ih.1]
          exact h.runStep_rename step _ ih.2

end Call

end Zuku
