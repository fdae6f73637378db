import Mathlib

/-!
# Jobs guarded by completions

Jobs with a program order run concurrently over one memory.  A job is started
once everything it waits for has triggered, does its steps one at a time, and
triggers its own completion in the end.  If any two jobs with a conflict are
ordered by what they wait for, every schedule gives every job the values of the
sequential execution.
-/

namespace DeferredJobs

variable {κ ν σ α : Type*}

/-- Steps over a memory that depend only on the locations of the job and change
only those that it writes. -/
structure Job (κ ν σ : Type*) where
  uses : Set κ
  writes : Set κ
  init : σ
  steps : List (σ → (κ → ν) → σ × (κ → ν))
  writes_subset : writes ⊆ uses
  frame : ∀ f ∈ steps, ∀ l m x, x ∉ writes → (f l m).2 x = m x
  congr_local : ∀ f ∈ steps, ∀ l m m', (∀ x ∈ uses, m x = m' x) → (f l m).1 = (f l m').1
  congr_memory : ∀ f ∈ steps, ∀ l m m', (∀ x ∈ uses, m x = m' x) →
    ∀ x ∈ writes, (f l m).2 x = (f l m').2 x

/-- Two jobs use a common location and one of them writes it. -/
def Conflict (a b : Job κ ν σ) : Prop :=
  ∃ x, (x ∈ a.writes ∧ x ∈ b.uses) ∨ (x ∈ a.uses ∧ x ∈ b.writes)

namespace Job

variable (job : Job κ ν σ)

/-- The local state and the memory after `n` steps of a job that runs alone. -/
def after (m : κ → ν) : ℕ → σ × (κ → ν)
  | 0 => (job.init, m)
  | n + 1 => match job.steps[n]? with
    | some f => f (after m n).1 (after m n).2
    | none => after m n

@[simp] theorem after_zero (m : κ → ν) : job.after m 0 = (job.init, m) := rfl

theorem after_succ (m : κ → ν) {n : ℕ} {f : σ → (κ → ν) → σ × (κ → ν)}
    (hf : job.steps[n]? = some f) :
    job.after m (n + 1) = f (job.after m n).1 (job.after m n).2 := by
  rw [after, hf]

theorem after_of_not_mem (m : κ → ν) (n : ℕ) {x : κ} (hx : x ∉ job.writes) :
    (job.after m n).2 x = m x := by
  induction n with
  | zero => rfl
  | succ n ih =>
      cases hf : job.steps[n]? with
      | none =>
          rw [after, hf]
          exact ih
      | some f =>
          rw [job.after_succ m hf, job.frame f (List.mem_of_getElem? hf) _ _ x hx, ih]

end Job

/-- The memory before job `n` when the jobs run one after another. -/
def memoryBefore (jobs : ℕ → Job κ ν σ) (m : κ → ν) : ℕ → κ → ν
  | 0 => m
  | n + 1 => ((jobs n).after (memoryBefore jobs m n) (jobs n).steps.length).2

/-- The state of job `i` after `n` of its steps in the sequential execution. -/
def sequential (jobs : ℕ → Job κ ν σ) (m : κ → ν) (i n : ℕ) : σ × (κ → ν) :=
  (jobs i).after (memoryBefore jobs m i) n

section Sequential

variable (jobs : ℕ → Job κ ν σ) (m : κ → ν)

theorem memoryBefore_succ (n : ℕ) :
    memoryBefore jobs m (n + 1) = (sequential jobs m n (jobs n).steps.length).2 := rfl

/-- Later jobs do not matter. -/
theorem memoryBefore_congr {jobs' : ℕ → Job κ ν σ} {n : ℕ} (h : ∀ k < n, jobs k = jobs' k) :
    memoryBefore jobs m n = memoryBefore jobs' m n := by
  induction n with
  | zero => rfl
  | succ n ih =>
      rw [memoryBefore, memoryBefore, ih fun k hk ↦ h k (Nat.lt_succ_of_lt hk),
        h n (Nat.lt_succ_self n)]

/-- A location keeps its value while no job writes it. -/
theorem memoryBefore_eq_of_not_mem {a b : ℕ} (hab : a ≤ b) {x : κ}
    (hx : ∀ k, a ≤ k → k < b → x ∉ (jobs k).writes) :
    memoryBefore jobs m b x = memoryBefore jobs m a x := by
  induction b, hab using Nat.le_induction with
  | base => rfl
  | succ b hab ih =>
      rw [memoryBefore_succ, sequential,
        Job.after_of_not_mem _ _ _ (hx b hab (Nat.lt_succ_self b))]
      exact ih fun k hk hkb ↦ hx k hk (Nat.lt_succ_of_lt hkb)

end Sequential

/-! ## Schedules -/

structure State (κ ν σ α : Type*) where
  memory : κ → ν
  progress : ℕ → Option (ℕ × σ)
  triggered : Set α

/-- A step of a schedule.  Completions of no job may trigger at any time. -/
inductive Step (jobs : ℕ → Job κ ν σ) (waits : ℕ → Set α) (completion : ℕ → α) :
    State κ ν σ α → State κ ν σ α → Prop where
  | start {s : State κ ν σ α} {i : ℕ} : s.progress i = none → waits i ⊆ s.triggered →
      Step jobs waits completion s
        { s with progress := Function.update s.progress i (some (0, (jobs i).init)) }
  | advance {s : State κ ν σ α} {i n : ℕ} {l : σ} {f : σ → (κ → ν) → σ × (κ → ν)} :
      s.progress i = some (n, l) → (jobs i).steps[n]? = some f →
      Step jobs waits completion s
        { s with
          memory := (f l s.memory).2
          progress := Function.update s.progress i (some (n + 1, (f l s.memory).1)) }
  | finish {s : State κ ν σ α} {i : ℕ} {l : σ} :
      s.progress i = some ((jobs i).steps.length, l) →
      Step jobs waits completion s { s with triggered := insert (completion i) s.triggered }
  | external {s : State κ ν σ α} {a : α} : (∀ i, a ≠ completion i) →
      Step jobs waits completion s { s with triggered := insert a s.triggered }

/-- Job `i` is waited for by job `j`, at once or through other jobs. -/
def Before (waits : ℕ → Set α) (completion : ℕ → α) (i j : ℕ) : Prop :=
  Relation.TransGen (fun i j ↦ completion i ∈ waits j) i j

/-- What holds of a schedule that started the jobs on memory `m`. -/
structure Serial (jobs : ℕ → Job κ ν σ) (waits : ℕ → Set α) (completion : ℕ → α) (m : κ → ν)
    (s : State κ ν σ α) : Prop where
  waited : ∀ i, s.progress i ≠ none → waits i ⊆ s.triggered
  done : ∀ i, completion i ∈ s.triggered → ∃ l, s.progress i = some ((jobs i).steps.length, l)
  locals : ∀ i n l, s.progress i = some (n, l) → l = (sequential jobs m i n).1
  /-- Of a location whose earlier writers are done and whose later ones have not
  started, the job in between sees its sequential value. -/
  memory : ∀ i x, (∀ k < i, x ∈ (jobs k).writes → completion k ∈ s.triggered) →
    (∀ k, i < k → x ∈ (jobs k).writes → s.progress k = none) →
    s.memory x = (sequential jobs m i ((s.progress i).elim 0 Prod.fst)).2 x

section Schedules

variable {jobs : ℕ → Job κ ν σ} {waits : ℕ → Set α} {completion : ℕ → α} {m : κ → ν}
  {s s' : State κ ν σ α}

/-- A started job finds everything before it done. -/
theorem Serial.done_of_before (h : Serial jobs waits completion m s) {i j : ℕ}
    (hbefore : Before waits completion i j) (hstarted : s.progress j ≠ none) :
    completion i ∈ s.triggered := by
  induction hbefore with
  | single hwaits => exact h.waited _ hstarted hwaits
  | tail _ hwaits ih =>
      obtain ⟨l, hl⟩ := h.done _ (h.waited _ hstarted hwaits)
      exact ih (by rw [hl]; exact Option.some_ne_none _)

/-- A running job finds the locations it uses as in the sequential execution. -/
theorem Serial.memory_of_running (h : Serial jobs waits completion m s)
    (horder : ∀ i j, i < j → Conflict (jobs i) (jobs j) → Before waits completion i j)
    {i n : ℕ} {l : σ} (hprogress : s.progress i = some (n, l))
    (hrunning : completion i ∉ s.triggered) {x : κ} (hx : x ∈ (jobs i).uses) :
    s.memory x = (sequential jobs m i n).2 x := by
  have hearlier (k : ℕ) (hk : k < i) (hwrites : x ∈ (jobs k).writes) :
      completion k ∈ s.triggered :=
    h.done_of_before (horder k i hk ⟨x, Or.inl ⟨hwrites, hx⟩⟩) (by simp [hprogress])
  have hlater (k : ℕ) (hk : i < k) (hwrites : x ∈ (jobs k).writes) : s.progress k = none := by
    by_contra hstarted
    exact hrunning (h.done_of_before (horder i k hk ⟨x, Or.inr ⟨hx, hwrites⟩⟩) hstarted)
  have hmemory := h.memory i x hearlier hlater
  rwa [hprogress] at hmemory

/-- Starting a job does not change the number of steps that any job has done. -/
theorem Serial.start (h : Serial jobs waits completion m s) {i : ℕ} (hnone : s.progress i = none)
    (hready : waits i ⊆ s.triggered) :
    Serial jobs waits completion m
      { s with progress := Function.update s.progress i (some (0, (jobs i).init)) } where
  waited j hj := by
    by_cases heq : j = i
    · exact heq ▸ hready
    · exact h.waited j (by simpa [heq] using hj)
  done j hj := by
    obtain ⟨l, hl⟩ := h.done j hj
    have hne : j ≠ i := by
      rintro rfl
      simp [hnone] at hl
    exact ⟨l, by simpa [hne] using hl⟩
  locals j n l hj := by
    by_cases heq : j = i
    · subst heq
      obtain ⟨rfl, rfl⟩ : 0 = n ∧ (jobs j).init = l := by simpa using hj
      rfl
    · exact h.locals j n l (by simpa [heq] using hj)
  memory j x hearlier hlater := by
    have hold := h.memory j x hearlier fun k hk hwrites ↦ by
      have hnew := hlater k hk hwrites
      by_cases heq : k = i
      · simp [heq] at hnew
      · simpa [heq] using hnew
    by_cases heq : j = i
    · subst heq
      simpa [hnone] using hold
    · simpa [heq] using hold

/-- One step of a job does the same step as in the sequential execution. -/
theorem Serial.advance (h : Serial jobs waits completion m s)
    (horder : ∀ i j, i < j → Conflict (jobs i) (jobs j) → Before waits completion i j)
    {i n : ℕ} {l : σ} {f : σ → (κ → ν) → σ × (κ → ν)} (hprogress : s.progress i = some (n, l))
    (hf : (jobs i).steps[n]? = some f) :
    Serial jobs waits completion m
      { s with
        memory := (f l s.memory).2
        progress := Function.update s.progress i (some (n + 1, (f l s.memory).1)) } := by
  have hmem := List.mem_of_getElem? hf
  have hrunning : completion i ∉ s.triggered := by
    intro hdone
    obtain ⟨l', hl'⟩ := h.done i hdone
    obtain ⟨rfl, -⟩ : n = (jobs i).steps.length ∧ l = l' := by simpa [hprogress] using hl'
    simp at hf
  have huses (x : κ) (hx : x ∈ (jobs i).uses) : s.memory x = (sequential jobs m i n).2 x :=
    h.memory_of_running horder hprogress hrunning hx
  have hlocal := h.locals i n l hprogress
  have hsucc : sequential jobs m i (n + 1) =
      f (sequential jobs m i n).1 (sequential jobs m i n).2 :=
    (jobs i).after_succ _ hf
  constructor
  · intro j hj
    by_cases heq : j = i
    · subst heq
      exact h.waited j (by simp [hprogress])
    · exact h.waited j (by simpa [heq] using hj)
  · intro j hj
    have hne : j ≠ i := fun heq ↦ hrunning (heq ▸ hj)
    obtain ⟨l', hl'⟩ := h.done j hj
    exact ⟨l', by simpa [hne] using hl'⟩
  · intro j k l' hj
    by_cases heq : j = i
    · subst heq
      obtain ⟨rfl, rfl⟩ : n + 1 = k ∧ (f l s.memory).1 = l' := by simpa using hj
      rw [hsucc, ← hlocal]
      exact (jobs j).congr_local f hmem l _ _ huses
    · exact h.locals j k l' (by simpa [heq] using hj)
  · intro j x hearlier hlater
    have hold := h.memory j x hearlier fun k hk hwrites ↦ by
      have hnew := hlater k hk hwrites
      by_cases heq : k = i
      · simp [heq] at hnew
      · simpa [heq] using hnew
    by_cases hx : x ∈ (jobs i).writes
    · -- a writer of `x` is running: all others are done before or not started
      obtain rfl : j = i := by
        rcases Nat.lt_trichotomy j i with hlt | heq | hgt
        · exact absurd (hlater i hlt hx) (by simp)
        · exact heq
        · exact absurd (hearlier i hgt hx) hrunning
      simp only [Function.update_self, Option.elim_some, hsucc, ← hlocal]
      exact (jobs j).congr_memory f hmem l _ _ huses x hx
    · simp only [(jobs i).frame f hmem _ _ x hx]
      by_cases heq : j = i
      · subst heq
        rw [hold, hprogress]
        simp only [Function.update_self, Option.elim_some, sequential,
          Job.after_of_not_mem _ _ _ hx]
      · simpa [heq] using hold

/-- A completion of no job changes nothing. -/
theorem Serial.external (h : Serial jobs waits completion m s) {a : α}
    (ha : ∀ i, a ≠ completion i) :
    Serial jobs waits completion m { s with triggered := insert a s.triggered } where
  waited i hi := (h.waited i hi).trans (Set.subset_insert _ _)
  done i hi := h.done i ((Set.mem_insert_iff.mp hi).resolve_left (ha i).symm)
  locals := h.locals
  memory i x hearlier hlater :=
    h.memory i x (fun k hk hwrites ↦
      (Set.mem_insert_iff.mp (hearlier k hk hwrites)).resolve_left (ha k).symm) hlater

/-- A location after its last writer that has just been done. -/
theorem Serial.memory_of_last (h : Serial jobs waits completion m s)
    (horder : ∀ i j, i < j → Conflict (jobs i) (jobs j) → Before waits completion i j)
    {i j : ℕ} {l : σ} (hprogress : s.progress i = some ((jobs i).steps.length, l))
    (hrunning : completion i ∉ s.triggered) (hij : i < j) {x : κ} (hx : x ∈ (jobs i).writes)
    (hearlier : ∀ k < j, x ∈ (jobs k).writes → k ≠ i → completion k ∈ s.triggered) :
    s.memory x = (sequential jobs m j ((s.progress j).elim 0 Prod.fst)).2 x := by
  -- no later writer has started while this one runs
  have hwaiting (k : ℕ) (hk : i < k) (hwrites : x ∈ (jobs k).writes) : s.progress k = none := by
    by_contra hstarted
    have hconflict : Conflict (jobs i) (jobs k) :=
      ⟨x, Or.inl ⟨hx, (jobs k).writes_subset hwrites⟩⟩
    exact hrunning (h.done_of_before (horder i k hk hconflict) hstarted)
  have hbetween (k : ℕ) (hk : i + 1 ≤ k) (hkj : k < j) : x ∉ (jobs k).writes := by
    intro hwrites
    obtain ⟨l', hl'⟩ := h.done k (hearlier k hkj hwrites (Nat.ne_of_gt hk))
    simp [hwaiting k hk hwrites] at hl'
  have hbefore (k : ℕ) (hk : k < i) (hwrites : x ∈ (jobs k).writes) :
      completion k ∈ s.triggered := hearlier k (hk.trans hij) hwrites hk.ne
  have hlast := h.memory i x hbefore hwaiting
  rw [hprogress, Option.elim_some, ← memoryBefore_succ] at hlast
  rw [hlast, ← memoryBefore_eq_of_not_mem jobs m hij hbetween]
  by_cases hxj : x ∈ (jobs j).writes
  · rw [hwaiting j hij hxj]
    rfl
  · rw [sequential, Job.after_of_not_mem _ _ _ hxj]

theorem Serial.finish (h : Serial jobs waits completion m s)
    (hinjective : Function.Injective completion)
    (horder : ∀ i j, i < j → Conflict (jobs i) (jobs j) → Before waits completion i j)
    {i : ℕ} {l : σ} (hprogress : s.progress i = some ((jobs i).steps.length, l)) :
    Serial jobs waits completion m
      { s with triggered := insert (completion i) s.triggered } := by
  have hold {k : ℕ} (hk : completion k ∈ insert (completion i) s.triggered) (hne : k ≠ i) :
      completion k ∈ s.triggered :=
    (Set.mem_insert_iff.mp hk).resolve_left fun heq ↦ hne (hinjective heq)
  constructor
  · exact fun j hj ↦ (h.waited j hj).trans (Set.subset_insert _ _)
  · intro j hj
    by_cases heq : j = i
    · exact ⟨l, heq ▸ hprogress⟩
    · exact h.done j (hold hj heq)
  · exact h.locals
  · intro j x hearlier hlater
    by_cases hlast : i < j ∧ x ∈ (jobs i).writes ∧ completion i ∉ s.triggered
    · obtain ⟨hij, hx, hrunning⟩ := hlast
      exact h.memory_of_last horder hprogress hrunning hij hx
        fun k hk hwrites hne ↦ hold (hearlier k hk hwrites) hne
    · apply h.memory j x _ hlater
      intro k hk hwrites
      by_cases heq : k = i
      · subst heq
        by_contra hrunning
        exact hlast ⟨hk, hwrites, hrunning⟩
      · exact hold (hearlier k hk hwrites) heq

theorem Serial.step (h : Serial jobs waits completion m s)
    (hinjective : Function.Injective completion)
    (horder : ∀ i j, i < j → Conflict (jobs i) (jobs j) → Before waits completion i j)
    (hstep : Step jobs waits completion s s') : Serial jobs waits completion m s' := by
  cases hstep with
  | start hnone hready => exact h.start hnone hready
  | advance hprogress hf => exact h.advance horder hprogress hf
  | finish hprogress => exact h.finish hinjective horder hprogress
  | external ha => exact h.external ha

theorem serial_init {triggered : Set α} (htriggered : ∀ i, completion i ∉ triggered) :
    Serial jobs waits completion m ⟨m, fun _ ↦ none, triggered⟩ where
  waited i hi := absurd rfl hi
  done i hi := absurd hi (htriggered i)
  locals i n l hi := absurd hi (by simp)
  memory i x hearlier _ := by
    have hnone (k : ℕ) (_ : 0 ≤ k) (hk : k < i) : x ∉ (jobs k).writes :=
      fun hwrites ↦ htriggered k (hearlier k hk hwrites)
    exact (memoryBefore_eq_of_not_mem jobs m (Nat.zero_le i) hnone).symm

/-- Every schedule keeps the invariant. -/
theorem Serial.run (h : Serial jobs waits completion m s)
    (hinjective : Function.Injective completion)
    (horder : ∀ i j, i < j → Conflict (jobs i) (jobs j) → Before waits completion i j)
    (hrun : Relation.ReflTransGen (Step jobs waits completion) s s') :
    Serial jobs waits completion m s' := by
  induction hrun with
  | refl => exact h
  | tail _ hstep ih => exact ih.step hinjective horder hstep

/-- When the first `n` jobs are done and no other job writes, the memory is that
of the sequential execution. -/
theorem Serial.memory_of_done (h : Serial jobs waits completion m s) {n : ℕ}
    (hdone : ∀ i < n, completion i ∈ s.triggered) (hidle : ∀ i, n ≤ i → (jobs i).writes = ∅) :
    s.memory = memoryBefore jobs m n := by
  funext x
  have hmemory := h.memory n x (fun k hk _ ↦ hdone k hk) fun k hk hwrites ↦ by
    rw [hidle k hk.le] at hwrites
    exact absurd hwrites (Set.notMem_empty x)
  rw [hmemory, sequential, Job.after_of_not_mem]
  rw [hidle n le_rfl]
  exact Set.notMem_empty x

end Schedules

end DeferredJobs
