import Mathlib

/-!
# Jobs in phases

Jobs run concurrently over one memory.  Every job belongs to a phase, and the
contents of the memory before every phase are those of an execution of the phases
one after another.  Jobs of one phase may write the same location if they write
the same value there, and a job may read what the others of its phase have
written.  If the jobs of different phases that touch a location are ordered by
what they wait for, every schedule gives every job the contents it is meant for.
-/

namespace PhasedJobs

variable {ι X ν σ α : Type*}

/-- Steps that look only at the locations the job reads and set only locations
that it writes. -/
structure Job (X ν σ : Type*) where
  reads : Set X
  writes : Set X
  init : σ
  steps : List (σ → (X → ν) → σ × (X → Option ν))
  frame : ∀ f ∈ steps, ∀ l m, ∀ x ∉ writes, (f l m).2 x = none
  congr : ∀ f ∈ steps, ∀ l m m', (∀ x ∈ reads, m x = m' x) → f l m = f l m'

def store (set : X → Option ν) (m : X → ν) (x : X) : ν := (set x).getD (m x)

theorem store_of_none {set : X → Option ν} {x : X} (h : set x = none) (m : X → ν) :
    store set m x = m x := by
  rw [store, h, Option.getD_none]

theorem store_of_some {set : X → Option ν} {x : X} {v : ν} (h : set x = some v) (m : X → ν) :
    store set m x = v := by
  rw [store, h, Option.getD_some]

namespace Job

variable (job : Job X ν σ) (m : X → ν)

/-- The local state and the memory after `n` steps of a job that runs alone. -/
def after : ℕ → σ × (X → ν)
  | 0 => (job.init, m)
  | n + 1 => match job.steps[n]? with
    | some f => ((f (after n).1 (after n).2).1, store (f (after n).1 (after n).2).2 (after n).2)
    | none => after n

/-- What step `n` of a job that runs alone sets. -/
def sets (n : ℕ) : X → Option ν :=
  match job.steps[n]? with
  | some f => (f (job.after m n).1 (job.after m n).2).2
  | none => fun _ ↦ none

@[simp] theorem after_zero : job.after m 0 = (job.init, m) := rfl

theorem after_succ {n : ℕ} {f : σ → (X → ν) → σ × (X → Option ν)} (hf : job.steps[n]? = some f) :
    job.after m (n + 1) =
      ((f (job.after m n).1 (job.after m n).2).1,
        store (f (job.after m n).1 (job.after m n).2).2 (job.after m n).2) := by
  rw [after, hf]

theorem sets_of_some {n : ℕ} {f : σ → (X → ν) → σ × (X → Option ν)}
    (hf : job.steps[n]? = some f) :
    job.sets m n = (f (job.after m n).1 (job.after m n).2).2 := by
  rw [sets, hf]

theorem memory_succ (n : ℕ) :
    (job.after m (n + 1)).2 = store (job.sets m n) (job.after m n).2 := by
  rw [after, sets]
  cases job.steps[n]? with
  | some f => rfl
  | none => rfl

theorem mem_writes_of_sets {n : ℕ} {x : X} (h : job.sets m n x ≠ none) : x ∈ job.writes := by
  by_contra hx
  apply h
  rw [sets]
  cases hf : job.steps[n]? with
  | some f => exact job.frame f (List.mem_of_getElem? hf) _ _ x hx
  | none => rfl

/-- A location keeps its contents until it is set. -/
theorem after_of_unset {n : ℕ} {x : X} (h : ∀ k < n, job.sets m k x = none) :
    (job.after m n).2 x = m x := by
  induction n with
  | zero => rfl
  | succ n ih =>
      rw [memory_succ, store_of_none (h n (Nat.lt_succ_self n))]
      exact ih fun k hk ↦ h k (Nat.lt_succ_of_lt hk)

theorem after_of_not_mem {n : ℕ} {x : X} (hx : x ∉ job.writes) : (job.after m n).2 x = m x := by
  apply job.after_of_unset
  intro k _
  by_contra hset
  exact hx (job.mem_writes_of_sets m hset)

/-- A location that is only ever set to one value has that value once it is set. -/
theorem after_of_set {n : ℕ} {x : X} {v : ν} (h : ∀ k < n, ∀ w, job.sets m k x = some w → w = v)
    (hset : ∃ k < n, job.sets m k x ≠ none) : (job.after m n).2 x = v := by
  induction n with
  | zero =>
      obtain ⟨k, hk, -⟩ := hset
      exact absurd hk (Nat.not_lt_zero k)
  | succ n ih =>
      rw [memory_succ]
      cases hn : job.sets m n x with
      | some w =>
          rw [store_of_some hn]
          exact h n (Nat.lt_succ_self n) w hn
      | none =>
          rw [store_of_none hn]
          apply ih fun k hk ↦ h k (Nat.lt_succ_of_lt hk)
          obtain ⟨k, hk, hset⟩ := hset
          rcases Nat.lt_succ_iff_lt_or_eq.mp hk with hlt | rfl
          · exact ⟨k, hlt, hset⟩
          · exact absurd hn hset

end Job

/-! ## Plans -/

/-- The jobs with their phases and the contents before every phase.  A job is fed
with a location if it reads it after the others of its phase have written it. -/
structure Plan (ι X ν σ : Type*) where
  job : ι → Job X ν σ
  phase : ι → ℕ
  fed : ι → Set X
  values : ℕ → X → ν

namespace Plan

variable (plan : Plan ι X ν σ)

open Classical in
/-- The contents that a job is meant for. -/
noncomputable def start (j : ι) (x : X) : ν :=
  plan.values (if x ∈ plan.fed j then plan.phase j + 1 else plan.phase j) x

noncomputable def alone (j : ι) (n : ℕ) : σ × (X → ν) := (plan.job j).after (plan.start j) n

noncomputable def sets (j : ι) (n : ℕ) : X → Option ν := (plan.job j).sets (plan.start j) n

theorem start_of_fed {j : ι} {x : X} (h : x ∈ plan.fed j) :
    plan.start j x = plan.values (plan.phase j + 1) x := by
  rw [start, if_pos h]

theorem start_of_not_fed {j : ι} {x : X} (h : x ∉ plan.fed j) :
    plan.start j x = plan.values (plan.phase j) x := by
  rw [start, if_neg h]

end Plan

/-- The jobs of a phase turn the contents before it into those before the next. -/
structure Coherent (plan : Plan ι X ν σ) : Prop where
  fed_disjoint : ∀ j, Disjoint (plan.fed j) (plan.job j).writes
  unwritten : ∀ i x, (∀ j, plan.phase j = i → x ∉ (plan.job j).writes) →
    plan.values (i + 1) x = plan.values i x
  written : ∀ j, ∀ x ∈ (plan.job j).writes,
    (plan.alone j (plan.job j).steps.length).2 x = plan.values (plan.phase j + 1) x
  agreed : ∀ j k, j ≠ k → plan.phase j = plan.phase k → ∀ x ∈ (plan.job j).writes,
    x ∈ (plan.job k).writes → ∀ n v, plan.sets j n x = some v →
      v = plan.values (plan.phase j + 1) x

/-- Whenever a job may start, the jobs of earlier phases with a conflict are done,
and so are those of its own phase that feed it. -/
structure Ordered (plan : Plan ι X ν σ) (waits : ι → Set α) (completion : ι → α)
    (possible : Set α → Prop) : Prop where
  earlier : ∀ j k x, plan.phase j < plan.phase k →
    (x ∈ (plan.job j).writes ∧ (x ∈ (plan.job k).reads ∨ x ∈ (plan.job k).writes)) ∨
      (x ∈ (plan.job j).reads ∧ x ∈ (plan.job k).writes) →
    ∀ triggered, possible triggered → waits k ⊆ triggered → completion j ∈ triggered
  feeder : ∀ j k x, plan.phase j = plan.phase k → j ≠ k → x ∈ (plan.job j).writes →
    x ∈ (plan.job k).reads → x ∈ plan.fed k ∧
      ∀ triggered, possible triggered → waits k ⊆ triggered → completion j ∈ triggered

/-! ## Schedules -/

structure State (ι X ν σ α : Type*) where
  memory : X → ν
  progress : ι → Option (ℕ × σ)
  triggered : Set α

namespace State

/-- The number of steps that a job has done. -/
def count (s : State ι X ν σ α) (j : ι) : ℕ := (s.progress j).elim 0 Prod.fst

theorem count_of_some {s : State ι X ν σ α} {j : ι} {n : ℕ} {l : σ}
    (h : s.progress j = some (n, l)) : s.count j = n := by
  rw [count, h, Option.elim_some]

/-- The job has set the location. -/
def HasSet (plan : Plan ι X ν σ) (s : State ι X ν σ α) (j : ι) (x : X) : Prop :=
  ∃ n < s.count j, plan.sets j n x ≠ none

end State

variable [DecidableEq ι]

/-- A step of a schedule.  Only possible completions trigger together. -/
inductive Step (job : ι → Job X ν σ) (waits : ι → Set α) (completion : ι → α)
    (possible : Set α → Prop) : State ι X ν σ α → State ι X ν σ α → Prop where
  | start {s : State ι X ν σ α} {j : ι} : s.progress j = none → waits j ⊆ s.triggered →
      Step job waits completion possible s
        { s with progress := Function.update s.progress j (some (0, (job j).init)) }
  | advance {s : State ι X ν σ α} {j : ι} {n : ℕ} {l : σ}
      {f : σ → (X → ν) → σ × (X → Option ν)} :
      s.progress j = some (n, l) → (job j).steps[n]? = some f →
      Step job waits completion possible s
        { s with
          memory := store (f l s.memory).2 s.memory
          progress := Function.update s.progress j (some (n + 1, (f l s.memory).1)) }
  | finish {s : State ι X ν σ α} {j : ι} {l : σ} :
      s.progress j = some ((job j).steps.length, l) →
      possible (insert (completion j) s.triggered) →
      Step job waits completion possible s
        { s with triggered := insert (completion j) s.triggered }
  | external {s : State ι X ν σ α} {a : α} : (∀ j, a ≠ completion j) →
      possible (insert a s.triggered) →
      Step job waits completion possible s { s with triggered := insert a s.triggered }

/-- What holds of a schedule.  A location has what the job of the latest phase that
has set it would have there alone. -/
structure Serial (plan : Plan ι X ν σ) (waits : ι → Set α) (completion : ι → α)
    (possible : Set α → Prop) (s : State ι X ν σ α) : Prop where
  possible : possible s.triggered
  waited : ∀ j, s.progress j ≠ none → waits j ⊆ s.triggered
  done : ∀ j, completion j ∈ s.triggered →
    ∃ l, s.progress j = some ((plan.job j).steps.length, l)
  locals : ∀ j n l, s.progress j = some (n, l) → l = (plan.alone j n).1
  latest : ∀ j x, s.HasSet plan j x → (∀ k, s.HasSet plan k x → plan.phase k ≤ plan.phase j) →
    s.memory x = (plan.alone j (s.count j)).2 x
  untouched : ∀ x, (∀ j, ¬s.HasSet plan j x) → s.memory x = plan.values 0 x

section Schedules

variable {plan : Plan ι X ν σ} {waits : ι → Set α} {completion : ι → α}
  {possible : Set α → Prop} {s s' : State ι X ν σ α}

omit [DecidableEq ι] in
theorem State.HasSet.mem_writes {j : ι} {x : X} (h : s.HasSet plan j x) :
    x ∈ (plan.job j).writes := by
  obtain ⟨n, -, hset⟩ := h
  exact (plan.job j).mem_writes_of_sets _ hset

omit [DecidableEq ι] in
theorem State.HasSet.started {j : ι} {x : X} (h : s.HasSet plan j x) : s.progress j ≠ none := by
  obtain ⟨n, hn, -⟩ := h
  rintro hnone
  rw [State.count, hnone] at hn
  exact Nat.not_lt_zero n hn

omit [DecidableEq ι] in
/-- Alone a job does not change what it has not set. -/
theorem alone_of_not_hasSet {j : ι} {x : X} (h : ¬s.HasSet plan j x) :
    (plan.alone j (s.count j)).2 x = plan.start j x := by
  apply (plan.job j).after_of_unset
  intro n hn
  by_contra hset
  exact h ⟨n, hn, hset⟩

omit [DecidableEq ι] in
theorem Coherent.start_of_writes (hplan : Coherent plan) {j : ι} {x : X}
    (hx : x ∈ (plan.job j).writes) : plan.start j x = plan.values (plan.phase j) x := by
  apply plan.start_of_not_fed
  intro hfed
  exact Set.disjoint_left.mp (hplan.fed_disjoint j) hfed hx

omit [DecidableEq ι] in
/-- The contents before a phase, once the earlier writers of the location are done
and no other job has set it.  The induction goes back to the phase of its last
writer. -/
theorem Serial.memory_eq_values (h : Serial plan waits completion possible s)
    (hplan : Coherent plan) {i : ℕ} {x : X}
    (hdone : ∀ j, plan.phase j < i → x ∈ (plan.job j).writes → completion j ∈ s.triggered)
    (hset : ∀ j, s.HasSet plan j x → plan.phase j < i) : s.memory x = plan.values i x := by
  induction i with
  | zero => exact h.untouched x fun j hj ↦ Nat.not_lt_zero _ (hset j hj)
  | succ i ih =>
      have hcount (j : ι) (hj : plan.phase j < i + 1) (hx : x ∈ (plan.job j).writes) :
          (plan.alone j (s.count j)).2 x = plan.values (plan.phase j + 1) x := by
        obtain ⟨l, hl⟩ := h.done j (hdone j hj hx)
        rw [State.count_of_some hl]
        exact hplan.written j x hx
      by_cases hlast : ∃ j, s.HasSet plan j x ∧ plan.phase j = i
      · obtain ⟨j, hj, rfl⟩ := hlast
        rw [h.latest j x hj fun k hk ↦ Nat.le_of_lt_succ (hset k hk)]
        exact hcount j (Nat.lt_succ_self _) hj.mem_writes
      · have hbefore : s.memory x = plan.values i x := by
          apply ih fun j hj ↦ hdone j (Nat.lt_succ_of_lt hj)
          intro j hj
          apply lt_of_le_of_ne (Nat.le_of_lt_succ (hset j hj))
          exact fun hphase ↦ hlast ⟨j, hj, hphase⟩
        rw [hbefore]
        by_cases hwriter : ∃ j, plan.phase j = i ∧ x ∈ (plan.job j).writes
        · obtain ⟨j, rfl, hx⟩ := hwriter
          rw [← hcount j (Nat.lt_succ_self _) hx,
            alone_of_not_hasSet fun hj ↦ hlast ⟨j, hj, rfl⟩, hplan.start_of_writes hx]
        · exact (hplan.unwritten i x fun j hj hx ↦ hwriter ⟨j, hj, hx⟩).symm

omit [DecidableEq ι] in
/-- While a job runs, no job of a later phase has set what it touches. -/
theorem Serial.phase_le_of_hasSet (h : Serial plan waits completion possible s)
    (horder : Ordered plan waits completion possible) {j k : ι} {x : X}
    (hrunning : completion j ∉ s.triggered)
    (hx : x ∈ (plan.job j).reads ∨ x ∈ (plan.job j).writes) (hk : s.HasSet plan k x) :
    plan.phase k ≤ plan.phase j := by
  by_contra hlt
  have hwrites := hk.mem_writes
  apply hrunning
  apply horder.earlier j k x (Nat.lt_of_not_le hlt) _ _ h.possible (h.waited k hk.started)
  rcases hx with hx | hx
  · exact Or.inr ⟨hx, hwrites⟩
  · exact Or.inl ⟨hx, Or.inr hwrites⟩

omit [DecidableEq ι] in
/-- A running job finds the locations it reads as if it ran alone. -/
theorem Serial.memory_of_running (h : Serial plan waits completion possible s)
    (hplan : Coherent plan) (horder : Ordered plan waits completion possible) {j : ι} {n : ℕ}
    {l : σ} (hprogress : s.progress j = some (n, l)) (hrunning : completion j ∉ s.triggered)
    {x : X} (hx : x ∈ (plan.job j).reads) : s.memory x = (plan.alone j n).2 x := by
  have hwaited : waits j ⊆ s.triggered := h.waited j (by simp [hprogress])
  have hearlier (k : ι) (hk : plan.phase k < plan.phase j) (hwrites : x ∈ (plan.job k).writes) :
      completion k ∈ s.triggered :=
    horder.earlier k j x hk (Or.inl ⟨hwrites, Or.inl hx⟩) _ h.possible hwaited
  have hle (k : ι) (hk : s.HasSet plan k x) : plan.phase k ≤ plan.phase j :=
    h.phase_le_of_hasSet horder hrunning (Or.inl hx) hk
  rw [← State.count_of_some hprogress]
  by_cases hself : s.HasSet plan j x
  · exact h.latest j x hself hle
  rw [alone_of_not_hasSet hself]
  by_cases hfed : x ∈ plan.fed j
  · rw [plan.start_of_fed hfed]
    have hne (k : ι) (hwrites : x ∈ (plan.job k).writes) : k ≠ j := by
      rintro rfl
      exact Set.disjoint_left.mp (hplan.fed_disjoint k) hfed hwrites
    apply h.memory_eq_values hplan
    · intro k hk hwrites
      rcases Nat.lt_succ_iff_lt_or_eq.mp hk with hlt | heq
      · exact hearlier k hlt hwrites
      · exact (horder.feeder k j x heq (hne k hwrites) hwrites hx).2 _ h.possible hwaited
    · exact fun k hk ↦ Nat.lt_succ_of_le (hle k hk)
  · rw [plan.start_of_not_fed hfed]
    apply h.memory_eq_values hplan hearlier
    intro k hk
    apply lt_of_le_of_ne (hle k hk)
    intro heq
    have hne : k ≠ j := by
      rintro rfl
      exact hself hk
    exact hfed (horder.feeder k j x heq hne hk.mem_writes hx).1

/-! ## Steps keep the invariant -/

theorem count_start {j : ι} {a : σ} (hnone : s.progress j = none) (k : ι) :
    ({ s with progress := Function.update s.progress j (some (0, a)) } :
      State ι X ν σ α).count k = s.count k := by
  by_cases hk : k = j
  · subst hk
    simp [State.count, hnone]
  · simp [State.count, Function.update_of_ne hk]

theorem Serial.start (h : Serial plan waits completion possible s) {j : ι}
    (hnone : s.progress j = none) (hready : waits j ⊆ s.triggered) :
    Serial plan waits completion possible
      { s with progress := Function.update s.progress j (some (0, (plan.job j).init)) } := by
  have hcount := @count_start _ _ _ _ _ _ s j (plan.job j).init hnone
  constructor
  · exact h.possible
  · intro k hk
    by_cases heq : k = j
    · exact heq ▸ hready
    · exact h.waited k (by simpa [heq] using hk)
  · intro k hk
    obtain ⟨l, hl⟩ := h.done k hk
    have hne : k ≠ j := by
      rintro rfl
      simp [hnone] at hl
    exact ⟨l, by simpa [hne] using hl⟩
  · intro k n l hk
    by_cases heq : k = j
    · subst heq
      obtain ⟨rfl, rfl⟩ : 0 = n ∧ (plan.job k).init = l := by simpa using hk
      rfl
    · exact h.locals k n l (by simpa [heq] using hk)
  · intro k x hk hmax
    simp only [State.HasSet, hcount] at hk hmax ⊢
    exact h.latest k x hk hmax
  · intro x hx
    simp only [State.HasSet, hcount] at hx
    exact h.untouched x hx

/-- One step of a job sets what it would set alone. -/
theorem Serial.advance (h : Serial plan waits completion possible s) (hplan : Coherent plan)
    (horder : Ordered plan waits completion possible) {j : ι} {n : ℕ} {l : σ}
    {f : σ → (X → ν) → σ × (X → Option ν)} (hprogress : s.progress j = some (n, l))
    (hf : (plan.job j).steps[n]? = some f) :
    Serial plan waits completion possible
      { s with
        memory := store (f l s.memory).2 s.memory
        progress := Function.update s.progress j (some (n + 1, (f l s.memory).1)) } := by
  have hrunning : completion j ∉ s.triggered := by
    intro hdone
    obtain ⟨l', hl'⟩ := h.done j hdone
    obtain ⟨rfl, -⟩ : n = (plan.job j).steps.length ∧ l = l' := by simpa [hprogress] using hl'
    simp at hf
  have hstep : f l s.memory = f (plan.alone j n).1 (plan.alone j n).2 := by
    rw [← h.locals j n l hprogress]
    apply (plan.job j).congr f (List.mem_of_getElem? hf)
    exact fun x hx ↦ h.memory_of_running hplan horder hprogress hrunning hx
  have hsets : (f l s.memory).2 = plan.sets j n := by
    rw [hstep]
    exact ((plan.job j).sets_of_some _ hf).symm
  have hlocal : (f l s.memory).1 = (plan.alone j (n + 1)).1 := by
    rw [hstep]
    exact (congrArg Prod.fst ((plan.job j).after_succ _ hf)).symm
  rw [hsets, hlocal]
  set s₁ : State ι X ν σ α :=
    { s with
      memory := store (plan.sets j n) s.memory
      progress := Function.update s.progress j (some (n + 1, (plan.alone j (n + 1)).1)) }
  have hself : s₁.count j = n + 1 := by simp [s₁, State.count]
  have hother {k : ι} (hk : k ≠ j) : s₁.count k = s.count k := by
    simp [s₁, State.count, Function.update_of_ne hk]
  have hset_other {k : ι} (hk : k ≠ j) (x : X) : s₁.HasSet plan k x ↔ s.HasSet plan k x := by
    rw [State.HasSet, State.HasSet, hother hk]
  have hset_self (x : X) : s₁.HasSet plan j x ↔ s.HasSet plan j x ∨ plan.sets j n x ≠ none := by
    rw [State.HasSet, State.HasSet, hself, State.count_of_some hprogress]
    constructor
    · rintro ⟨k, hk, hset⟩
      rcases Nat.lt_succ_iff_lt_or_eq.mp hk with hlt | rfl
      · exact Or.inl ⟨k, hlt, hset⟩
      · exact Or.inr hset
    · rintro (⟨k, hk, hset⟩ | hset)
      · exact ⟨k, Nat.lt_succ_of_lt hk, hset⟩
      · exact ⟨n, Nat.lt_succ_self n, hset⟩
  have hmemory (k : ℕ) : (plan.alone j (k + 1)).2 = store (plan.sets j k) (plan.alone j k).2 :=
    (plan.job j).memory_succ _ k
  constructor
  · exact h.possible
  · intro k hk
    by_cases heq : k = j
    · subst heq
      exact h.waited k (by simp [hprogress])
    · exact h.waited k (by simpa [s₁, heq] using hk)
  · intro k hk
    have hne : k ≠ j := fun heq ↦ hrunning (heq ▸ hk)
    obtain ⟨l', hl'⟩ := h.done k hk
    exact ⟨l', by simpa [s₁, hne] using hl'⟩
  · intro k n' l' hk
    by_cases heq : k = j
    · subst heq
      obtain ⟨rfl, rfl⟩ : n + 1 = n' ∧ (plan.alone k (n + 1)).1 = l' := by simpa [s₁] using hk
      rfl
    · exact h.locals k n' l' (by simpa [s₁, heq] using hk)
  · intro k x hk hmax
    cases hx : plan.sets j n x with
    | some v =>
        have hne : plan.sets j n x ≠ none := by simp [hx]
        have hwrites := (plan.job j).mem_writes_of_sets _ hne
        rw [show s₁.memory x = v from store_of_some hx _]
        by_cases heq : k = j
        · subst heq
          rw [hself, hmemory, store_of_some hx]
        · -- the other job is of the same phase, and both write the same
          rw [hset_other heq] at hk
          have hphase : plan.phase j = plan.phase k :=
            le_antisymm (hmax j ((hset_self x).mpr (Or.inr hne)))
              (h.phase_le_of_hasSet horder hrunning (Or.inr hwrites) hk)
          rw [hother heq, hplan.agreed j k (Ne.symm heq) hphase x hwrites hk.mem_writes n v hx,
            hphase]
          refine ((plan.job k).after_of_set _ (fun n' _ w hw ↦ ?_) hk).symm
          exact hplan.agreed k j heq hphase.symm x hk.mem_writes hwrites n' w hw
    | none =>
        have hiff (k : ι) : s₁.HasSet plan k x ↔ s.HasSet plan k x := by
          by_cases heq : k = j
          · subst heq
            rw [hset_self, or_iff_left (not_not_intro hx)]
          · exact hset_other heq x
        rw [hiff] at hk
        rw [show s₁.memory x = s.memory x from store_of_none hx _,
          h.latest k x hk fun k' hk' ↦ hmax k' ((hiff k').mpr hk')]
        by_cases heq : k = j
        · subst heq
          rw [hself, hmemory, store_of_none hx, State.count_of_some hprogress]
        · rw [hother heq]
  · intro x hx
    have hnone : plan.sets j n x = none := by
      by_contra hset
      exact hx j ((hset_self x).mpr (Or.inr hset))
    rw [show s₁.memory x = s.memory x from store_of_none hnone _]
    apply h.untouched x
    intro k hk
    by_cases heq : k = j
    · subst heq
      exact hx k ((hset_self x).mpr (Or.inl hk))
    · exact hx k ((hset_other heq x).mpr hk)

omit [DecidableEq ι] in
/-- More completions, of jobs that have done all their steps or of no job. -/
theorem Serial.trigger (h : Serial plan waits completion possible s) {a : α}
    (hpossible : possible (insert a s.triggered))
    (ha : ∀ j, a = completion j → ∃ l, s.progress j = some ((plan.job j).steps.length, l)) :
    Serial plan waits completion possible { s with triggered := insert a s.triggered } where
  possible := hpossible
  waited j hj := (h.waited j hj).trans (Set.subset_insert _ _)
  done j hj := by
    rcases Set.mem_insert_iff.mp hj with heq | hj
    · exact ha j heq.symm
    · exact h.done j hj
  locals := h.locals
  latest := h.latest
  untouched := h.untouched

theorem Serial.step (h : Serial plan waits completion possible s) (hplan : Coherent plan)
    (horder : Ordered plan waits completion possible)
    (hinjective : Function.Injective completion)
    (hstep : Step plan.job waits completion possible s s') :
    Serial plan waits completion possible s' := by
  cases hstep with
  | start hnone hready => exact h.start hnone hready
  | advance hprogress hf => exact h.advance hplan horder hprogress hf
  | finish hprogress hpossible =>
      apply h.trigger hpossible
      intro j hj
      exact ⟨_, hinjective hj ▸ hprogress⟩
  | external ha hpossible => exact h.trigger hpossible fun j hj ↦ absurd hj (ha j)

/-- Every schedule keeps the invariant. -/
theorem Serial.run (h : Serial plan waits completion possible s) (hplan : Coherent plan)
    (horder : Ordered plan waits completion possible)
    (hinjective : Function.Injective completion)
    (hrun : Relation.ReflTransGen (Step plan.job waits completion possible) s s') :
    Serial plan waits completion possible s' := by
  induction hrun with
  | refl => exact h
  | tail _ hstep ih => exact ih.step hplan horder hinjective hstep

omit [DecidableEq ι] in
theorem serial_init {triggered : Set α} (hpossible : possible triggered)
    (htriggered : ∀ j, completion j ∉ triggered) :
    Serial plan waits completion possible ⟨plan.values 0, fun _ ↦ none, triggered⟩ where
  possible := hpossible
  waited j hj := absurd rfl hj
  done j hj := absurd hj (htriggered j)
  locals j n l hj := absurd hj (by simp)
  latest j x hj := absurd rfl hj.started
  untouched _ _ := rfl

/-! ### How a schedule goes on -/

variable {job : ι → Job X ν σ}

/-- A job that may start can do any number of its steps. -/
theorem exists_advanced (completion : ι → α) (possible : Set α → Prop) {j : ι}
    (hnone : s.progress j = none) (hwaits : waits j ⊆ s.triggered) {n : ℕ}
    (hn : n ≤ (job j).steps.length) :
    ∃ s' l, Relation.ReflTransGen (Step job waits completion possible) s s' ∧
      s'.progress j = some (n, l) ∧ s'.triggered = s.triggered ∧
      ∀ k ≠ j, s'.progress k = s.progress k := by
  induction n with
  | zero =>
      exact ⟨_, _, .single (.start hnone hwaits), Function.update_self .., rfl,
        fun k hk ↦ Function.update_of_ne hk ..⟩
  | succ n ih =>
      obtain ⟨s', l, hrun, hprogress, htriggered, hothers⟩ := ih (Nat.le_of_succ_le hn)
      obtain ⟨f, hf⟩ : ∃ f, (job j).steps[n]? = some f := ⟨_, List.getElem?_eq_getElem hn⟩
      exact ⟨_, _, hrun.tail (.advance hprogress hf), Function.update_self .., htriggered,
        fun k hk ↦ (Function.update_of_ne hk ..).trans (hothers k hk)⟩

/-- A job that may start and whose completion is possible can be completed. -/
theorem exists_complete {j : ι} (hnone : s.progress j = none) (hwaits : waits j ⊆ s.triggered)
    (hpossible : possible (insert (completion j) s.triggered)) :
    ∃ s', Relation.ReflTransGen (Step job waits completion possible) s s' ∧
      s'.triggered = insert (completion j) s.triggered ∧
      ∀ k ≠ j, s'.progress k = s.progress k := by
  obtain ⟨s', l, hrun, hprogress, htriggered, hothers⟩ :=
    exists_advanced completion possible hnone hwaits le_rfl
  exact ⟨_, hrun.tail (.finish hprogress (htriggered ▸ hpossible)),
    congrArg (insert (completion j)) htriggered, hothers⟩

end Schedules

end PhasedJobs
