import Mathlib

/-!
# The lowest set bit

A positive number is an odd multiple of exactly one power of two.  Clearing
its lowest set bit gives its parent in the binomial tree on the numbers, and
adding a lower power of two gives its children.
-/

namespace LowBit

/-- Bit `k` is the lowest set bit of `r`. -/
def IsLowBit (r k : ℕ) : Prop := ∃ q, r = 2 ^ k * (2 * q + 1)

theorem exists_isLowBit {r : ℕ} (hr : 0 < r) : ∃ k, IsLowBit r k := by
  obtain ⟨k, m, ⟨q, rfl⟩, rfl⟩ := Nat.exists_eq_two_pow_mul_odd hr.ne'
  exact ⟨k, q, rfl⟩

theorem IsLowBit.dvd {r k : ℕ} (h : IsLowBit r k) : 2 ^ k ∣ r := by
  obtain ⟨q, rfl⟩ := h
  exact Dvd.intro _ rfl

theorem IsLowBit.not_dvd {r k : ℕ} (h : IsLowBit r k) : ¬ 2 ^ (k + 1) ∣ r := by
  obtain ⟨q, rfl⟩ := h
  rw [pow_succ, Nat.mul_dvd_mul_iff_left (Nat.two_pow_pos k)]
  omega

theorem IsLowBit.pos {r k : ℕ} (h : IsLowBit r k) : 0 < r := by
  obtain ⟨q, rfl⟩ := h
  positivity

theorem IsLowBit.pow_le {r k : ℕ} (h : IsLowBit r k) : 2 ^ k ≤ r :=
  Nat.le_of_dvd h.pos h.dvd

theorem IsLowBit.unique {r j k : ℕ} (hj : IsLowBit r j) (hk : IsLowBit r k) : j = k := by
  rcases lt_trichotomy j k with hlt | heq | hlt
  · exact absurd ((pow_dvd_pow 2 hlt).trans hk.dvd) hj.not_dvd
  · exact heq
  · exact absurd ((pow_dvd_pow 2 hlt).trans hj.dvd) hk.not_dvd

/-- Adding a power of two below every set bit makes it the lowest set bit. -/
theorem isLowBit_add {p k : ℕ} (h : 2 ^ (k + 1) ∣ p) : IsLowBit (p + 2 ^ k) k := by
  obtain ⟨q, rfl⟩ := h
  exact ⟨q, by ring⟩

/-- Clearing the lowest set bit leaves only higher ones. -/
theorem IsLowBit.dvd_sub {r k : ℕ} (h : IsLowBit r k) : 2 ^ (k + 1) ∣ r - 2 ^ k := by
  obtain ⟨q, rfl⟩ := h
  refine ⟨q, ?_⟩
  rw [Nat.sub_eq_iff_eq_add (by nlinarith [Nat.two_pow_pos k])]
  ring

theorem isLowBit_zero_iff {r : ℕ} : IsLowBit r 0 ↔ r % 2 = 1 := by
  constructor
  · rintro ⟨q, rfl⟩
    omega
  · intro h
    exact ⟨r / 2, by omega⟩

/-- The lowest set bit of a number divisible by a power of two is not below it. -/
theorem IsLowBit.le_of_dvd {r j k : ℕ} (h : IsLowBit r k) (hd : 2 ^ j ∣ r) : j ≤ k := by
  by_contra hlt
  exact h.not_dvd ((pow_dvd_pow 2 (by omega)).trans hd)

/-- The greatest power of two that divides a number. -/
theorem IsLowBit.isGreatest {r k : ℕ} (h : IsLowBit r k) :
    IsGreatest {power | (∃ j, power = 2 ^ j) ∧ power ∣ r} (2 ^ k) := by
  refine ⟨⟨⟨k, rfl⟩, h.dvd⟩, ?_⟩
  rintro _ ⟨⟨j, rfl⟩, hj⟩
  exact Nat.pow_le_pow_right (by norm_num) (h.le_of_dvd hj)

/-- Clearing the lowest set bit leaves the other set bits. -/
theorem IsLowBit.bitIndices_eq {r k : ℕ} (h : IsLowBit r k) :
    r.bitIndices = k :: (r - 2 ^ k).bitIndices := by
  obtain ⟨q, rfl⟩ := h
  have hrest : 2 ^ k * (2 * q + 1) - 2 ^ k = 2 ^ k * (2 * q) := by
    rw [Nat.mul_add, mul_one, Nat.add_sub_cancel]
  rw [hrest, Nat.bitIndices_two_pow_mul, Nat.bitIndices_two_pow_mul,
    Nat.bitIndices_two_mul_add_one, Nat.bitIndices_two_mul, List.map_cons, Nat.zero_add]

/-- A power of two less a smaller one is a run of ones followed by zeros. -/
theorem isLowBit_pow_sub {a b : ℕ} (h : b < a) : IsLowBit (2 ^ a - 2 ^ b) b := by
  obtain ⟨c, rfl⟩ : ∃ c, a = b + (c + 1) := ⟨a - b - 1, by omega⟩
  refine ⟨2 ^ c - 1, ?_⟩
  have hc := Nat.two_pow_pos c
  have hodd : 2 * (2 ^ c - 1) + 1 = 2 ^ (c + 1) - 1 := by
    rw [pow_succ]
    omega
  rw [hodd, pow_add, Nat.mul_sub, mul_one]

/-- Multiples of one number below another multiple keep their distance. -/
theorem add_le_of_dvd_of_lt {d x y : ℕ} (hx : d ∣ x) (hy : d ∣ y) (h : x < y) : x + d ≤ y := by
  obtain ⟨x, rfl⟩ := hx
  obtain ⟨y, rfl⟩ := hy
  have hlt : x < y := Nat.lt_of_mul_lt_mul_left h
  calc
    d * x + d = d * (x + 1) := by ring
    _ ≤ d * y := Nat.mul_le_mul_left d hlt

/-! ## Filled prefixes

The numbers below `n` fill the binomial tree up to `n` when every one of them
still has its first child in range, which fails as soon as `n - 1` has a zero
above a later one. -/

/-- `n - 1` is written in binary as ones followed by zeros. -/
def IsOnesThenZeros (n : ℕ) : Prop := ∃ a b, n + 2 ^ b = 2 ^ a + 1

/-- Every proper multiple of a power of two below the last one has room for
its first child. -/
theorem IsOnesThenZeros.room {n p k : ℕ} (hn : IsOnesThenZeros n) (hp : IsLowBit p (k + 1))
    (hlt : p + 1 < n) : p + 2 ^ k < n := by
  obtain ⟨a, b, hab⟩ := hn
  have hle : 2 ^ b ≤ 2 ^ a := by omega
  have hba : b ≤ a := (Nat.pow_le_pow_iff_right (by norm_num)).mp hle
  have hpow : 2 ^ (k + 1) = 2 ^ k + 2 ^ k := by rw [pow_succ]; ring
  rcases Nat.lt_or_ge b (k + 1) with hbk | hbk
  · -- the last multiple below `2 ^ a` already is far enough from `n`
    have hka : k + 1 ≤ a := by
      by_contra hak
      have := Nat.pow_le_pow_right (n := 2) (by norm_num) (by omega : a ≤ k + 1)
      have := hp.pow_le
      have := Nat.two_pow_pos b
      omega
    have hroom := add_le_of_dvd_of_lt hp.dvd (pow_dvd_pow 2 hka) (by
      have := Nat.two_pow_pos b
      omega)
    have hbk' := Nat.pow_le_pow_right (n := 2) (by norm_num) (by omega : b ≤ k)
    omega
  · -- `n - 1` is itself a multiple
    have hdvd : 2 ^ (k + 1) ∣ 2 ^ a - 2 ^ b :=
      Nat.dvd_sub (pow_dvd_pow 2 (hbk.trans hba)) (pow_dvd_pow 2 hbk)
    have hroom := add_le_of_dvd_of_lt hp.dvd hdvd (by omega)
    have := Nat.two_pow_pos k
    omega

/-- Otherwise some multiple has its successor in range and its first child not. -/
theorem exists_no_room {n a : ℕ} (hn : ¬ IsOnesThenZeros n) (hle : n ≤ 2 ^ a)
    (hlt : 2 ^ a < 2 * n) : ∃ p k, IsLowBit p (k + 1) ∧ p + 1 < n ∧ n ≤ p + 2 ^ k := by
  have hpos : 0 < 2 ^ a + 1 - n := by omega
  set c := 2 ^ a + 1 - n with hc
  set b := Nat.log 2 c with hb
  have hlow : 2 ^ b ≤ c := Nat.pow_log_le_self 2 hpos.ne'
  have hhigh : c < 2 ^ (b + 1) := Nat.lt_pow_succ_log_self (by norm_num) c
  have hne : c ≠ 2 ^ b := fun h ↦ hn ⟨a, b, by omega⟩
  have hbpow : 2 ^ (b + 1) = 2 ^ b + 2 ^ b := by rw [pow_succ]; ring
  have hba : b + 1 < a := by
    rcases a with _ | a
    · omega
    · have hapow : 2 ^ (a + 1) = 2 ^ a + 2 ^ a := by rw [pow_succ]; ring
      have hcle : 2 ^ b < 2 ^ a := by omega
      have := (Nat.pow_lt_pow_iff_right (a := 2) (by norm_num)).mp hcle
      omega
  have hbig := Nat.pow_lt_pow_right (a := 2) (by norm_num) hba
  exact ⟨2 ^ a - 2 ^ (b + 1), b, isLowBit_pow_sub hba, by omega, by omega⟩

end LowBit
