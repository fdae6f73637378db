import Mathlib

/-!
# Checked execution

A computation either returns or stops at the first operation whose result is
not defined: an access outside a vector, a division by zero, an overflow of
signed integers, a failed assertion, an empty optional, a coordinate that was
never written, or an exception.  Loops with no syntactic bound run on fuel, and
running out of fuel is a fault of its own, so that a returned value always is
the value of the loop.
-/

namespace Checked

inductive Fault where
  | outOfRange
  | divisionByZero
  | overflow
  | uninitialized
  | assertionFailed
  | badOptionalAccess
  | outOfFuel
  | runtimeError (what : String)
  deriving DecidableEq, Repr

abbrev Exec := Except Fault

universe u

variable {α β σ : Type u}

@[simp] theorem ok_bind (a : α) (f : α → Exec β) :
    ((Except.ok a : Exec α) >>= f) = f a := rfl

@[simp] theorem error_bind (e : Fault) (f : α → Exec β) :
    ((Except.error e : Exec α) >>= f) = .error e := rfl

@[simp] theorem pure_eq_ok (a : α) : (pure a : Exec α) = .ok a := rfl

@[simp] theorem throw_eq_error (e : Fault) : (throw e : Exec α) = .error e := rfl

theorem bind_eq_ok_iff {x : Exec α} {f : α → Exec β} {b : β} :
    (x >>= f) = .ok b ↔ ∃ a, x = .ok a ∧ f a = .ok b := by
  cases x with
  | error e => simp
  | ok a => simp

/-! ## Vectors, division and optionals -/

def vectorAt (xs : List α) (i : ℕ) : Exec α :=
  match xs[i]? with
  | some a => .ok a
  | none => .error .outOfRange

def vectorSet (xs : List α) (i : ℕ) (a : α) : Exec (List α) :=
  if i < xs.length then .ok (xs.set i a) else .error .outOfRange

def checkedDiv (a b : ℕ) : Exec ℕ :=
  if b = 0 then .error .divisionByZero else .ok (a / b)

def checkedMod (a b : ℕ) : Exec ℕ :=
  if b = 0 then .error .divisionByZero else .ok (a % b)

/-- Division of signed integers rounds towards zero. -/
def checkedTdiv (a b : ℤ) : Exec ℤ :=
  if b = 0 then .error .divisionByZero else .ok (a.tdiv b)

/-- A signed integer of 64 bits that is not negative is below this bound. -/
abbrev int64Bound : ℕ := 9223372036854775808

instance : NeZero int64Bound := ⟨by decide⟩

/-- Multiplication of signed integers of 64 bits that are not negative. -/
def checkedMul (a b : ℕ) : Exec ℕ :=
  if a * b < int64Bound then .ok (a * b) else .error .overflow

/-- A product is formed from left to right. -/
def checkedProd (factors : List ℕ) : Exec ℕ := factors.foldlM checkedMul 1

/-- The result of an operation on signed integers of 64 bits. -/
def checkedInt (a : ℤ) : Exec ℤ :=
  if -int64Bound ≤ a ∧ a < int64Bound then .ok a else .error .overflow

def optionalValue : Option α → Exec α
  | some a => .ok a
  | none => .error .badOptionalAccess

/-- `if (x.has_value()) { … }`, with the result of skipping the block. -/
def whenSome (x : Option α) (skipped : β) (f : α → Exec β) : Exec β :=
  x.elim (.ok skipped) f

def assertThat (p : Prop) [Decidable p] : Exec Unit :=
  if p then .ok () else .error .assertionFailed

theorem vectorAt_of_getElem? {xs : List α} {i : ℕ} {a : α} (h : xs[i]? = some a) :
    vectorAt xs i = .ok a := by
  simp [vectorAt, h]

theorem vectorAt_eq_ok_iff {xs : List α} {i : ℕ} {a : α} :
    vectorAt xs i = .ok a ↔ xs[i]? = some a := by
  unfold vectorAt
  cases h : xs[i]? <;> simp

theorem vectorSet_of_lt {xs : List α} {i : ℕ} (h : i < xs.length) (a : α) :
    vectorSet xs i a = .ok (xs.set i a) := if_pos h

theorem vectorSet_eq_ok_iff {xs ys : List α} {i : ℕ} {a : α} :
    vectorSet xs i a = .ok ys ↔ i < xs.length ∧ xs.set i a = ys := by
  unfold vectorSet
  split <;> simp_all

theorem checkedDiv_of_pos {b : ℕ} (h : 0 < b) (a : ℕ) : checkedDiv a b = .ok (a / b) :=
  if_neg h.ne'

theorem checkedDiv_eq_ok_iff {a b c : ℕ} : checkedDiv a b = .ok c ↔ 0 < b ∧ a / b = c := by
  unfold checkedDiv
  split <;> simp_all [Nat.pos_iff_ne_zero]

theorem checkedTdiv_of_ne {b : ℤ} (h : b ≠ 0) (a : ℤ) : checkedTdiv a b = .ok (a.tdiv b) :=
  if_neg h

theorem checkedMod_of_pos {b : ℕ} (h : 0 < b) (a : ℕ) : checkedMod a b = .ok (a % b) :=
  if_neg h.ne'

theorem checkedMod_eq_ok_iff {a b c : ℕ} : checkedMod a b = .ok c ↔ 0 < b ∧ a % b = c := by
  unfold checkedMod
  split <;> simp_all [Nat.pos_iff_ne_zero]

theorem checkedMul_of_lt {a b : ℕ} (h : a * b < int64Bound) : checkedMul a b = .ok (a * b) :=
  if_pos h

theorem checkedMul_eq_ok_iff {a b c : ℕ} :
    checkedMul a b = .ok c ↔ a * b < int64Bound ∧ a * b = c := by
  unfold checkedMul
  split <;> simp_all

/-- Factors that are not zero make the product larger at every step. -/
theorem foldlM_checkedMul_of_lt {factors : List ℕ} {a : ℕ} (hpos : ∀ b ∈ factors, 0 < b)
    (h : a * factors.prod < int64Bound) :
    factors.foldlM checkedMul a = .ok (a * factors.prod) := by
  induction factors generalizing a with
  | nil => simp
  | cons b factors ih =>
      rw [List.forall_mem_cons] at hpos
      rw [List.prod_cons, ← Nat.mul_assoc] at h ⊢
      have hle : a * b ≤ a * b * factors.prod :=
        Nat.le_mul_of_pos_right _ (List.prod_pos hpos.2)
      rw [List.foldlM_cons, checkedMul_of_lt (hle.trans_lt h), ok_bind]
      exact ih hpos.2 h

theorem foldlM_checkedMul_eq_ok {factors : List ℕ} {a p : ℕ} (ha : a < int64Bound)
    (h : factors.foldlM checkedMul a = .ok p) : p = a * factors.prod ∧ p < int64Bound := by
  induction factors generalizing a with
  | nil =>
      obtain rfl := Except.ok.inj h
      exact ⟨by simp, ha⟩
  | cons b factors ih =>
      rw [List.foldlM_cons] at h
      obtain ⟨c, hc, h⟩ := bind_eq_ok_iff.mp h
      obtain ⟨hlt, rfl⟩ := checkedMul_eq_ok_iff.mp hc
      obtain ⟨hp, hbound⟩ := ih hlt h
      exact ⟨by rw [hp, List.prod_cons, Nat.mul_assoc], hbound⟩

theorem checkedProd_of_lt {factors : List ℕ} (hpos : ∀ b ∈ factors, 0 < b)
    (h : factors.prod < int64Bound) : checkedProd factors = .ok factors.prod := by
  have hfold := foldlM_checkedMul_of_lt (a := 1) hpos (by rwa [Nat.one_mul])
  rwa [Nat.one_mul] at hfold

theorem checkedProd_eq_ok {factors : List ℕ} {p : ℕ} (h : checkedProd factors = .ok p) :
    p = factors.prod ∧ p < int64Bound := by
  obtain ⟨hp, hlt⟩ := foldlM_checkedMul_eq_ok (by decide) h
  exact ⟨by rw [hp, Nat.one_mul], hlt⟩

theorem checkedInt_of_lt {a : ℤ} (hnonneg : 0 ≤ a) (hlt : a < int64Bound) :
    checkedInt a = .ok a :=
  if_pos ⟨by omega, hlt⟩

@[simp] theorem optionalValue_some (a : α) : optionalValue (some a) = .ok a := rfl

@[simp] theorem optionalValue_none :
    optionalValue (none : Option α) = .error .badOptionalAccess := rfl

@[simp] theorem whenSome_none (skipped : β) (f : α → Exec β) :
    whenSome none skipped f = .ok skipped := rfl

@[simp] theorem whenSome_some (a : α) (skipped : β) (f : α → Exec β) :
    whenSome (some a) skipped f = f a := rfl

theorem whenSome_eq_ok {x : Option α} {f : α → Exec β} {g : α → β}
    (h : ∀ a ∈ x, f a = .ok (g a)) (skipped : β) :
    whenSome x skipped f = .ok (x.elim skipped g) := by
  cases x with
  | none => rfl
  | some a => exact h a rfl

theorem assertThat_of {p : Prop} [Decidable p] (h : p) : assertThat p = .ok () := if_pos h

theorem assertThat_eq_ok_iff {p : Prop} [Decidable p] : assertThat p = .ok () ↔ p := by
  unfold assertThat
  split <;> simp_all

/-! ## Passes over a list -/

theorem mapM_eq_ok_iff {f : α → Exec β} {xs : List α} {ys : List β} :
    xs.mapM f = .ok ys ↔ List.Forall₂ (fun x y ↦ f x = .ok y) xs ys := by
  induction xs generalizing ys with
  | nil => cases ys <;> simp [List.mapM_nil]
  | cons x xs ih =>
      simp only [List.mapM_cons, bind_eq_ok_iff, pure_eq_ok, Except.ok.injEq]
      constructor
      · rintro ⟨y, hy, zs, hzs, rfl⟩
        exact .cons hy (ih.mp hzs)
      · rintro (_ | ⟨hy, hys⟩)
        exact ⟨_, hy, _, ih.mpr hys, rfl⟩

theorem mapM_eq_ok_map {f : α → Exec β} {g : α → β} {xs : List α}
    (h : ∀ x ∈ xs, f x = .ok (g x)) : xs.mapM f = .ok (xs.map g) := by
  rw [mapM_eq_ok_iff, List.forall₂_map_right_iff, List.forall₂_same]
  exact h

theorem exists_of_mapM_eq_ok {f : α → Exec β} {xs : List α} {ys : List β}
    (h : xs.mapM f = .ok ys) {x : α} (hx : x ∈ xs) : ∃ y ∈ ys, f x = .ok y := by
  obtain ⟨i, hi, rfl⟩ := List.getElem_of_mem hx
  have hys := mapM_eq_ok_iff.mp h
  have hi' : i < ys.length := hys.length_eq ▸ hi
  exact ⟨ys[i], List.getElem_mem hi', hys.get hi hi'⟩

theorem ne_nil_of_mapM {f : α → Exec β} {xs : List α} {ys : List β} (h : xs.mapM f = .ok ys)
    (hxs : xs ≠ []) : ys ≠ [] := by
  rintro rfl
  cases mapM_eq_ok_iff.mp h
  exact hxs rfl

/-! ## Faults that do not occur -/

def NeverFaults (e : Fault) (x : Exec α) : Prop := x ≠ .error e

variable {e : Fault}

theorem neverFaults_ok (a : α) : NeverFaults e (.ok a : Exec α) := by
  simp [NeverFaults]

theorem NeverFaults.bind {x : Exec α} {f : α → Exec β} (hx : NeverFaults e x)
    (hf : ∀ a, NeverFaults e (f a)) : NeverFaults e (x >>= f) := by
  cases x with
  | error e' => exact fun h ↦ hx (congrArg Except.error (Except.error.inj h))
  | ok a => exact hf a

theorem neverFaults_mapM {f : α → Exec β} (hf : ∀ a, NeverFaults e (f a)) (xs : List α) :
    NeverFaults e (xs.mapM f) := by
  induction xs with
  | nil => exact neverFaults_ok _
  | cons x xs ih =>
      rw [List.mapM_cons]
      exact (hf x).bind fun _ ↦ ih.bind fun _ ↦ neverFaults_ok _

theorem neverFaults_whenSome {f : α → Exec β} (hf : ∀ a, NeverFaults e (f a)) (x : Option α)
    (skipped : β) : NeverFaults e (whenSome x skipped f) := by
  cases x with
  | none => exact neverFaults_ok _
  | some a => exact hf a

theorem neverFaults_vectorAt (he : e ≠ .outOfRange) (xs : List α) (i : ℕ) :
    NeverFaults e (vectorAt xs i) := by
  unfold vectorAt NeverFaults
  split <;> simp [he.symm]

theorem neverFaults_vectorSet (he : e ≠ .outOfRange) (xs : List α) (i : ℕ) (a : α) :
    NeverFaults e (vectorSet xs i a) := by
  unfold vectorSet NeverFaults
  split <;> simp [he.symm]

theorem neverFaults_checkedDiv (he : e ≠ .divisionByZero) (a b : ℕ) :
    NeverFaults e (checkedDiv a b) := by
  unfold checkedDiv NeverFaults
  split <;> simp [he.symm]

theorem neverFaults_checkedMul (he : e ≠ .overflow) (a b : ℕ) :
    NeverFaults e (checkedMul a b) := by
  unfold checkedMul NeverFaults
  split <;> simp [he.symm]

theorem neverFaults_checkedProd (he : e ≠ .overflow) (factors : List ℕ) :
    NeverFaults e (checkedProd factors) := by
  rw [checkedProd]
  generalize 1 = a
  induction factors generalizing a with
  | nil => exact neverFaults_ok _
  | cons b factors ih =>
      rw [List.foldlM_cons]
      exact (neverFaults_checkedMul he a b).bind ih

theorem neverFaults_checkedMod (he : e ≠ .divisionByZero) (a b : ℕ) :
    NeverFaults e (checkedMod a b) := by
  unfold checkedMod NeverFaults
  split <;> simp [he.symm]

/-! ## Loops -/

/-- `while (cond s) s = body s`, for at most `fuel` iterations. -/
def whileLoop (cond : σ → Bool) (body : σ → σ) : ℕ → σ → Exec σ
  | 0, s => if cond s then .error .outOfFuel else .ok s
  | fuel + 1, s => if cond s then whileLoop cond body fuel (body s) else .ok s

theorem whileLoop_of_not {cond : σ → Bool} {s : σ} (h : cond s = false) (body : σ → σ)
    (fuel : ℕ) : whileLoop cond body fuel s = .ok s := by
  cases fuel <;> simp [whileLoop, h]

theorem whileLoop_succ_of {cond : σ → Bool} {s : σ} (h : cond s = true) (body : σ → σ)
    (fuel : ℕ) : whileLoop cond body (fuel + 1) s = whileLoop cond body fuel (body s) := by
  simp [whileLoop, h]

/-- The total-correctness rule: an invariant kept by the body and a measure
that every iteration lowers give a result once the fuel covers the measure. -/
theorem whileLoop_spec (cond : σ → Bool) (body : σ → σ) (inv : σ → Prop) (measure : σ → ℕ)
    (hinv : ∀ s, inv s → cond s = true → inv (body s))
    (hmeasure : ∀ s, inv s → cond s = true → measure (body s) < measure s) :
    ∀ (fuel : ℕ) (s : σ), inv s → measure s ≤ fuel →
      ∃ t, whileLoop cond body fuel s = .ok t ∧ inv t ∧ cond t = false := by
  intro fuel
  induction fuel with
  | zero =>
      intro s hs hfuel
      cases hc : cond s with
      | false => exact ⟨s, whileLoop_of_not hc body 0, hs, hc⟩
      | true =>
          have hlt := hmeasure s hs hc
          omega
  | succ fuel ih =>
      intro s hs hfuel
      cases hc : cond s with
      | false => exact ⟨s, whileLoop_of_not hc body _, hs, hc⟩
      | true =>
          have hlt := hmeasure s hs hc
          obtain ⟨t, ht, hit, hct⟩ := ih (body s) (hinv s hs hc) (by omega)
          exact ⟨t, by rw [whileLoop_succ_of hc]; exact ht, hit, hct⟩

end Checked
