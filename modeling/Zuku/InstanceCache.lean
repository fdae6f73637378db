import Zuku.Library.Checked
import Zuku.Library.StepRuns

/-!
# The instance cache

Values that are no longer used are queued under their key.  A request takes the
oldest value of its key if enough of them are queued, and otherwise has the
factory make one.  A request for no value at all takes from the queue even when
it is empty.
-/

namespace Zuku

open Checked StepRuns

/-- A key without an entry has an empty queue. -/
structure InstanceCache (κ ν : Type) where
  values : κ → List ν := fun _ ↦ []

namespace InstanceCache

variable {κ ν : Type}

def make (cache : InstanceCache κ ν) (_key : κ) (made : ν) : ν × InstanceCache κ ν := (made, cache)

def clear (_cache : InstanceCache κ ν) : InstanceCache κ ν := {}

variable [DecidableEq κ] (cache : InstanceCache κ ν)

/-- The answer of the factory is `made`.  An empty queue has no front. -/
def get (key : κ) (minCacheSize : Option ℕ) (made : ν) : Exec (ν × InstanceCache κ ν) :=
  if (cache.values key).length < minCacheSize.getD 1 then pure (made, cache)
  else
    match cache.values key with
    | [] => throw .outOfRange
    | value :: rest => pure (value, { values := Function.update cache.values key rest })

def free (key : κ) (value : ν) : InstanceCache κ ν :=
  { values := Function.update cache.values key (cache.values key ++ [value]) }

variable {cache} {key : κ} {minCacheSize : Option ℕ} {made : ν}

inductive GotBy (cache : InstanceCache κ ν) (key : κ) (minCacheSize : Option ℕ) (made : ν) :
    Exec (ν × InstanceCache κ ν) → Prop where
  | made : (cache.values key).length < minCacheSize.getD 1 →
      GotBy cache key minCacheSize made (.ok (made, cache))
  | taken {value : ν} {rest : List ν} : cache.values key = value :: rest →
      minCacheSize.getD 1 ≤ (cache.values key).length →
      GotBy cache key minCacheSize made
        (.ok (value, { values := Function.update cache.values key rest }))
  | empty : cache.values key = [] → minCacheSize = some 0 →
      GotBy cache key minCacheSize made (.error .outOfRange)

theorem gotBy (cache : InstanceCache κ ν) (key : κ) (minCacheSize : Option ℕ) (made : ν) :
    GotBy cache key minCacheSize made (cache.get key minCacheSize made) := by
  rw [get]
  split_ifs with hlt
  · exact .made hlt
  · have hle := Nat.le_of_not_lt hlt
    cases hvalues : cache.values key with
    | nil =>
        rw [hvalues, List.length_nil, Nat.le_zero] at hle
        refine .empty hvalues ?_
        cases minCacheSize with
        | none => cases hle
        | some n => exact congrArg some hle
    | cons value rest => exact .taken hvalues hle

end InstanceCache

inductive CacheCall (κ ν : Type) where
  | get (key : κ) (minCacheSize : Option ℕ) (made : ν)
  | make (key : κ) (made : ν)
  | free (key : κ) (value : ν)
  | clear

inductive Removal (ν : Type) where
  | returned (value : ν)
  | cleared (value : ν)

def Removal.value {ν : Type} : Removal ν → ν
  | .returned value => value
  | .cleared value => value

/-- A cache, and for every key the values that were freed and those that left
the queue again, oldest first. -/
structure CacheUse (κ ν : Type) where
  cache : InstanceCache κ ν := {}
  freed : κ → List ν := fun _ ↦ []
  removed : κ → List (Removal ν) := fun _ ↦ []

namespace CacheUse

variable {κ ν : Type} [DecidableEq κ]

/-- A request has taken a value if the queue is shorter than before. -/
def step (use : CacheUse κ ν) : CacheCall κ ν → CacheUse κ ν
  | .get key minCacheSize made =>
      match use.cache.get key minCacheSize made with
      | .ok (value, cache) =>
          { use with
            cache := cache
            removed :=
              if (cache.values key).length < (use.cache.values key).length then
                Function.update use.removed key (use.removed key ++ [.returned value])
              else use.removed }
      | .error _ => use
  | .make key made => { use with cache := (use.cache.make key made).2 }
  | .free key value =>
      { use with
        cache := use.cache.free key value
        freed := Function.update use.freed key (use.freed key ++ [value]) }
  | .clear =>
      { use with
        cache := use.cache.clear
        removed := fun key ↦ use.removed key ++ (use.cache.values key).map .cleared }

variable (use : CacheUse κ ν)

/-- The freed values are those that left the queue, in the same order, and
those that are still queued. -/
def Conserved : Prop :=
  ∀ key, use.freed key = (use.removed key).map Removal.value ++ use.cache.values key

/-- A request is answered, by the factory or with the oldest of the values that
were freed under the key and have not left the queue. -/
def Serves : CacheCall κ ν → Prop
  | .get key minCacheSize made => ∃ value cache,
      use.cache.get key minCacheSize made = .ok (value, cache) ∧
        ((value = made ∧ cache = use.cache) ∨
          ((use.freed key)[(use.removed key).length]? = some value ∧
            use.cache.values key = value :: cache.values key ∧
              ∀ other ≠ key, cache.values other = use.cache.values other))
  | .make key made => use.cache.make key made = (made, use.cache)
  | .free _ _ => True
  | .clear => True

def TakesFromEmpty : CacheCall κ ν → Prop
  | .get key minCacheSize _ => minCacheSize = some 0 ∧ use.cache.values key = []
  | _ => False

variable {use}

omit [DecidableEq κ] in
theorem conserved_empty : ({} : CacheUse κ ν).Conserved := fun _ ↦ rfl

omit [DecidableEq κ] in
/-- The first freed value that has not left the queue is its front. -/
theorem Conserved.getElem?_freed (h : use.Conserved) {key : κ} {value : ν} {rest : List ν}
    (hvalues : use.cache.values key = value :: rest) :
    (use.freed key)[(use.removed key).length]? = some value := by
  rw [h key, hvalues, List.getElem?_append_right (by simp), List.length_map, Nat.sub_self]
  rfl

theorem Conserved.get (h : use.Conserved) (key : κ) (minCacheSize : Option ℕ) (made : ν) :
    (use.step (.get key minCacheSize made)).Conserved := by
  have hgot := InstanceCache.gotBy use.cache key minCacheSize made
  rw [step]
  generalize use.cache.get key minCacheSize made = result at hgot ⊢
  cases hgot with
  | made hlt => simpa only [lt_irrefl, if_false] using h
  | taken hvalues hle =>
      intro other
      have hother := h other
      by_cases heq : other = key
      · subst heq
        simpa [hvalues, Removal.value] using hother
      · simpa [hvalues, heq] using hother
  | empty hvalues hzero => exact h

theorem Conserved.step (h : use.Conserved) (call : CacheCall κ ν) :
    (use.step call).Conserved := by
  cases call with
  | get key minCacheSize made => exact h.get key minCacheSize made
  | make key made => exact h
  | free key value =>
      intro other
      have hother := h other
      by_cases heq : other = key
      · subst heq
        simp [CacheUse.step, InstanceCache.free, hother]
      · simpa [CacheUse.step, InstanceCache.free, heq] using hother
  | clear =>
      intro key
      have hvalue : Removal.value ∘ Removal.cleared = (id : ν → ν) := rfl
      simpa [CacheUse.step, InstanceCache.clear, hvalue] using h key

theorem Conserved.serves_iff (h : use.Conserved) (call : CacheCall κ ν) :
    use.Serves call ↔ ¬ use.TakesFromEmpty call := by
  cases call with
  | make key made => exact iff_of_true rfl id
  | free key value => exact iff_of_true trivial id
  | clear => exact iff_of_true trivial id
  | get key minCacheSize made =>
      have hgot := InstanceCache.gotBy use.cache key minCacheSize made
      rw [Serves, TakesFromEmpty]
      generalize use.cache.get key minCacheSize made = result at hgot ⊢
      cases hgot with
      | made hlt =>
          refine iff_of_true ⟨made, use.cache, rfl, .inl ⟨rfl, rfl⟩⟩ ?_
          rintro ⟨rfl, -⟩
          exact Nat.not_lt_zero _ hlt
      | @taken value rest hvalues hle =>
          refine iff_of_true ⟨value, _, rfl,
            .inr ⟨h.getElem?_freed hvalues, ?_, fun other hother ↦ ?_⟩⟩ ?_
          · simp only [hvalues, Function.update_self]
          · exact Function.update_of_ne hother _ _
          · rintro ⟨-, hnil⟩
            rw [hvalues] at hnil
            cases hnil
      | empty hvalues hzero =>
          refine iff_of_false ?_ (not_not_intro ⟨hzero, hvalues⟩)
          rintro ⟨value, cache, hfault, -⟩
          cases hfault

/-- A run conserves the values and answers every request exactly if no request
for no value finds an empty queue. -/
theorem conserving_run_iff (calls : List (CacheCall κ ν)) :
    Along step (fun use call ↦ use.Serves call ∧ (use.step call).Conserved)
        ({} : CacheUse κ ν) calls ↔
      Along step (fun use call ↦ ¬ use.TakesFromEmpty call) ({} : CacheUse κ ν) calls := by
  refine along_congr (fun use call h ↦ ?_) (fun use call h _ ↦ h.step call) conserved_empty calls
  rw [h.serves_iff call]
  exact and_iff_left (h.step call)

/-- The first request for no value takes from an empty queue. -/
theorem not_conserving_request_zero :
    ¬ ∀ calls : List (CacheCall ℕ ℕ),
      Along step (fun use call ↦ use.Serves call ∧ (use.step call).Conserved)
        ({} : CacheUse ℕ ℕ) calls := by
  intro h
  obtain ⟨⟨⟨value, cache, hget, -⟩, -⟩, -⟩ := h [.get 0 (some 0) 7]
  cases hget

end CacheUse

end Zuku
