import Mathlib

/-!
# Mixed-radix numerals, most significant digit first

`decode` and `encode` are inverse bijections between the numbers below the
product of the radices and the digit lists that stay below the radices.
`cells` lists all of these digit lists, which turns counting numbers with a
property of their digits into counting digit lists.
-/

namespace MixedRadix

/-- The digit lists of a list of radices. -/
def Digits (radices digits : List ℕ) : Prop := List.Forall₂ (· < ·) digits radices

instance (radices digits : List ℕ) : Decidable (Digits radices digits) :=
  inferInstanceAs (Decidable (List.Forall₂ _ digits radices))

def decode : List ℕ → ℕ → List ℕ
  | [], _ => []
  | _ :: bs, s => s / bs.prod :: decode bs (s % bs.prod)

def encode : List ℕ → List ℕ → ℕ
  | _ :: bs, d :: ds => d * bs.prod + encode bs ds
  | _, _ => 0

theorem Digits.length_eq {bs ds : List ℕ} (h : Digits bs ds) : ds.length = bs.length :=
  List.Forall₂.length_eq h

@[simp] theorem digits_nil : Digits [] [] := List.Forall₂.nil

@[simp] theorem digits_cons {b d : ℕ} {bs ds : List ℕ} :
    Digits (b :: bs) (d :: ds) ↔ d < b ∧ Digits bs ds := by
  simp [Digits]

theorem digits_singleton_one {ds : List ℕ} (h : Digits [1] ds) : ds = [0] := by
  obtain ⟨d, ds, hd, hds, rfl⟩ := List.forall₂_cons_right_iff.mp h
  rw [List.forall₂_nil_right_iff.mp hds, Nat.lt_one_iff.mp hd]

theorem digits_iff_getElem? {bs ds : List ℕ} :
    Digits bs ds ↔ ds.length = bs.length ∧
      ∀ i d b : ℕ, ds[i]? = some d → bs[i]? = some b → d < b := by
  unfold Digits
  rw [List.forall₂_iff_get]
  constructor
  · rintro ⟨hlen, h⟩
    refine ⟨hlen, fun i d b hd hb ↦ ?_⟩
    obtain ⟨h₁, rfl⟩ := List.getElem?_eq_some_iff.mp hd
    obtain ⟨h₂, rfl⟩ := List.getElem?_eq_some_iff.mp hb
    exact h i h₁ h₂
  · rintro ⟨hlen, h⟩
    refine ⟨hlen, fun i h₁ h₂ ↦ ?_⟩
    exact h i _ _ (List.getElem?_eq_getElem h₁) (List.getElem?_eq_getElem h₂)

/-- Replacing one digit together with its radix. -/
theorem Digits.set {bs ds : List ℕ} (h : Digits bs ds) {d b : ℕ} (hdb : d < b) (i : ℕ) :
    Digits (bs.set i b) (ds.set i d) := by
  induction ds generalizing bs i with
  | nil =>
      cases bs with
      | nil => simp
      | cons b' bs => simp [Digits] at h
  | cons d' ds ih =>
      cases bs with
      | nil => simp [Digits] at h
      | cons b' bs =>
          obtain ⟨hd', hds⟩ := digits_cons.mp h
          cases i with
          | zero => simpa using ⟨hdb, hds⟩
          | succ i => simpa using ⟨hd', ih hds i⟩

theorem prod_pos_of_lt {bs : List ℕ} {s : ℕ} (h : s < bs.prod) : 0 < bs.prod :=
  (Nat.zero_le s).trans_lt h

@[simp] theorem length_decode (bs : List ℕ) (s : ℕ) : (decode bs s).length = bs.length := by
  induction bs generalizing s with
  | nil => rfl
  | cons b bs ih => simp [decode, ih]

theorem decode_digits {bs : List ℕ} {s : ℕ} (h : s < bs.prod) : Digits bs (decode bs s) := by
  induction bs generalizing s with
  | nil => simp [decode]
  | cons b bs ih =>
      rw [List.prod_cons] at h
      have hpos : 0 < bs.prod := Nat.pos_of_ne_zero fun h0 ↦ by simp [h0] at h
      exact digits_cons.mpr
        ⟨(Nat.div_lt_iff_lt_mul hpos).mpr h, ih (Nat.mod_lt s hpos)⟩

theorem encode_decode {bs : List ℕ} {s : ℕ} (h : s < bs.prod) :
    encode bs (decode bs s) = s := by
  induction bs generalizing s with
  | nil =>
      simp only [List.prod_nil, Nat.lt_one_iff] at h
      simp [encode, h]
  | cons b bs ih =>
      rw [List.prod_cons] at h
      have hpos : 0 < bs.prod := Nat.pos_of_ne_zero fun h0 ↦ by simp [h0] at h
      simp only [decode, encode, ih (Nat.mod_lt s hpos)]
      exact Nat.div_add_mod' s bs.prod

theorem encode_lt {bs ds : List ℕ} (h : Digits bs ds) : encode bs ds < bs.prod := by
  induction ds generalizing bs with
  | nil =>
      cases bs with
      | nil => simp [encode]
      | cons b bs => simp [Digits] at h
  | cons d ds ih =>
      cases bs with
      | nil => simp [Digits] at h
      | cons b bs =>
          obtain ⟨hd, hds⟩ := digits_cons.mp h
          have htail := ih hds
          calc
            encode (b :: bs) (d :: ds) < d * bs.prod + bs.prod := by
              simp only [encode]; omega
            _ = (d + 1) * bs.prod := (Nat.succ_mul d bs.prod).symm
            _ ≤ (b :: bs).prod := by
              rw [List.prod_cons]
              exact Nat.mul_le_mul_right _ hd

theorem decode_encode {bs ds : List ℕ} (h : Digits bs ds) : decode bs (encode bs ds) = ds := by
  induction ds generalizing bs with
  | nil =>
      cases bs with
      | nil => rfl
      | cons b bs => simp [Digits] at h
  | cons d ds ih =>
      cases bs with
      | nil => simp [Digits] at h
      | cons b bs =>
          obtain ⟨-, hds⟩ := digits_cons.mp h
          have hlt := encode_lt hds
          have hpos := prod_pos_of_lt hlt
          have hdiv : (d * bs.prod + encode bs ds) / bs.prod = d := by
            rw [Nat.mul_comm, Nat.mul_add_div hpos, Nat.div_eq_of_lt hlt, Nat.add_zero]
          have hmod : (d * bs.prod + encode bs ds) % bs.prod = encode bs ds := by
            rw [Nat.mul_comm, Nat.mul_add_mod, Nat.mod_eq_of_lt hlt]
          simp only [encode, decode, hdiv, hmod, ih hds]

theorem encode_injective {bs ds es : List ℕ} (hd : Digits bs ds) (he : Digits bs es)
    (h : encode bs ds = encode bs es) : ds = es := by
  rw [← decode_encode hd, h, decode_encode he]

/-! ## The order of the digits

`f` gives the radix of every position and `d` its digit.  Two orders of the same
positions give every numeral the same value when they put the positions that
can hold a digit at all into the same order. -/

section

variable {ps qs : List ℕ} {f : ℕ → ℕ}

theorem map_digits {d : ℕ → ℕ} (hd : ∀ p ∈ ps, d p < f p) : Digits (ps.map f) (ps.map d) := by
  rw [Digits, List.forall₂_map_left_iff, List.forall₂_map_right_iff, List.forall₂_same]
  exact hd

theorem prod_filter_radix (hf : ∀ p ∈ ps, 1 ≤ f p) :
    ((ps.filter fun p ↦ decide (1 < f p)).map f).prod = (ps.map f).prod := by
  induction ps with
  | nil => rfl
  | cons p ps ih =>
      have htail := ih fun q hq ↦ hf q (List.mem_cons_of_mem _ hq)
      by_cases hp : 1 < f p
      · simp [hp, htail]
      · have hone : f p = 1 := le_antisymm (Nat.not_lt.mp hp) (hf p List.mem_cons_self)
        simp [hone, htail]

/-- A position of radix one holds the digit zero and adds nothing. -/
theorem encode_filter_radix {d : ℕ → ℕ} (hd : ∀ p ∈ ps, d p < f p) :
    encode ((ps.filter fun p ↦ decide (1 < f p)).map f)
        ((ps.filter fun p ↦ decide (1 < f p)).map d) =
      encode (ps.map f) (ps.map d) := by
  induction ps with
  | nil => rfl
  | cons p ps ih =>
      have htail := ih fun q hq ↦ hd q (List.mem_cons_of_mem _ hq)
      have hhead := hd p List.mem_cons_self
      by_cases hp : 1 < f p
      · have hprod := prod_filter_radix fun q hq ↦
          Nat.one_le_of_lt (hd q (List.mem_cons_of_mem _ hq))
        simp [hp, encode, htail, hprod]
      · have hone : f p = 1 := by omega
        have hzero : d p = 0 := by omega
        simp [hone, hzero, encode, htail]

theorem encode_of_forall_eq_zero {bs ds : List ℕ} (h : ∀ d ∈ ds, d = 0) : encode bs ds = 0 := by
  induction ds generalizing bs with
  | nil => cases bs <;> rfl
  | cons d ds ih =>
      cases bs with
      | nil => rfl
      | cons b bs =>
          rw [encode, h d List.mem_cons_self, zero_mul, Nat.zero_add]
          exact ih fun e he ↦ h e (List.mem_cons_of_mem _ he)

/-- The value of a single digit one leaves room for its radix. -/
theorem encode_single_mul_le (hnodup : ps.Nodup) (hf : ∀ p ∈ ps, 1 ≤ f p) {p : ℕ} (hp : p ∈ ps) :
    encode (ps.map f) (ps.map fun q ↦ if q = p then 1 else 0) * f p ≤ (ps.map f).prod := by
  induction ps with
  | nil => cases hp
  | cons q qs ih =>
      obtain ⟨hnot, hnodup⟩ := List.nodup_cons.mp hnodup
      have hfs : ∀ r ∈ qs, 1 ≤ f r := fun r hr ↦ hf r (List.mem_cons_of_mem _ hr)
      rcases List.mem_cons.mp hp with rfl | hp
      · have hzero : ∀ d ∈ qs.map fun r ↦ if r = p then 1 else 0, d = 0 := by
          intro d hd
          obtain ⟨r, hr, rfl⟩ := List.mem_map.mp hd
          exact if_neg (ne_of_mem_of_not_mem hr hnot)
        rw [List.map_cons, List.map_cons, encode, encode_of_forall_eq_zero hzero, if_pos rfl,
          List.prod_cons, one_mul, Nat.add_zero, Nat.mul_comm]
      · have hne : q ≠ p := fun h ↦ hnot (h ▸ hp)
        rw [List.map_cons, List.map_cons, encode, if_neg hne, zero_mul, Nat.zero_add,
          List.prod_cons]
        exact (ih hnodup hfs hp).trans (Nat.le_mul_of_pos_left _ (hf q List.mem_cons_self))

/-- The first positions agree because the digit one has its greatest value
there, and the rest follows by induction. -/
theorem eq_of_encode_eq (hperm : ps.Perm qs) (hnodup : ps.Nodup) (hf : ∀ p ∈ ps, 1 < f p)
    (h : ∀ d : ℕ → ℕ, (∀ p ∈ ps, d p < f p) →
      encode (ps.map f) (ps.map d) = encode (qs.map f) (qs.map d)) : ps = qs := by
  induction ps generalizing qs with
  | nil => exact (List.nil_perm.mp hperm).symm
  | cons p ps ih =>
      cases qs with
      | nil => exact absurd (List.perm_nil.mp hperm) (List.cons_ne_nil p ps)
      | cons q qs =>
          have hhead : p = q := by
            by_contra hne
            have hp : p ∈ qs := by
              rcases List.mem_cons.mp (hperm.subset List.mem_cons_self) with heq | hp
              · exact absurd heq hne
              · exact hp
            have hq : 1 < f q := hf q (hperm.symm.subset List.mem_cons_self)
            have hone : ∀ r ∈ p :: ps, (if r = p then 1 else 0) < f r := by
              intro r hr
              have := hf r hr
              split <;> omega
            have hvalue := h (fun r ↦ if r = p then 1 else 0) hone
            have hpos : 0 < (qs.map f).prod := by
              apply List.prod_pos
              intro b hb
              obtain ⟨r, hr, rfl⟩ := List.mem_map.mp hb
              exact (hf r (hperm.symm.subset (List.mem_cons_of_mem _ hr))).trans' Nat.one_pos
            have hprod := (hperm.map f).prod_eq
            have hroom := encode_single_mul_le (hperm.nodup hnodup |>.of_cons) (fun r hr ↦
              (hf r (hperm.symm.subset (List.mem_cons_of_mem _ hr))).le) hp
            rw [List.map_cons, List.map_cons, List.map_cons, List.map_cons, encode, encode,
              if_pos rfl, if_neg (Ne.symm hne), one_mul, zero_mul, Nat.zero_add] at hvalue
            rw [List.map_cons, List.prod_cons, List.map_cons, List.prod_cons] at hprod
            -- the digit one is worth the product over `f p` on one side and less on the other
            nlinarith
          subst hhead
          have hperm := hperm.cons_inv
          obtain ⟨hnot, hnodup⟩ := List.nodup_cons.mp hnodup
          rw [ih hperm hnodup (fun r hr ↦ hf r (List.mem_cons_of_mem _ hr))]
          intro d hd
          have hvalue := h (fun r ↦ if r = p then 0 else d r) (by
            intro r hr
            rcases List.mem_cons.mp hr with rfl | hr
            · simpa using (hf r List.mem_cons_self).trans' Nat.one_pos
            · rw [if_neg (ne_of_mem_of_not_mem hr hnot)]
              exact hd r hr)
          have hsame (rs : List ℕ) (hrs : p ∉ rs) :
              (rs.map fun r ↦ if r = p then 0 else d r) = rs.map d := by
            apply List.map_congr_left
            intro r hr
            exact if_neg (ne_of_mem_of_not_mem hr hrs)
          rw [List.map_cons, List.map_cons, List.map_cons, List.map_cons, encode, encode,
            if_pos rfl, zero_mul, zero_mul, Nat.zero_add, Nat.zero_add, hsame ps hnot,
            hsame qs fun hq ↦ hnot (hperm.symm.subset hq)] at hvalue
          exact hvalue

/-- Two orders of the positions agree on all numerals exactly when they agree
on the positions of radix more than one. -/
theorem encode_order_iff (hperm : ps.Perm qs) (hnodup : ps.Nodup) (hf : ∀ p ∈ ps, 1 ≤ f p) :
    (∀ d : ℕ → ℕ, (∀ p ∈ ps, d p < f p) →
      encode (ps.map f) (ps.map d) = encode (qs.map f) (qs.map d)) ↔
      (ps.filter fun p ↦ decide (1 < f p)) = qs.filter fun p ↦ decide (1 < f p) := by
  constructor
  · intro h
    apply eq_of_encode_eq (hperm.filter _) (hnodup.filter _) (f := f)
    · intro p hp
      exact of_decide_eq_true (List.mem_filter.mp hp).2
    · intro d hd
      -- the other positions have room for the digit zero only
      set e : ℕ → ℕ := fun p ↦ if 1 < f p then d p else 0 with he
      have hlt (p : ℕ) (hp : p ∈ ps) : e p < f p := by
        rw [he]
        dsimp only
        split
        case isTrue hlt => exact hd p (List.mem_filter.mpr ⟨hp, decide_eq_true hlt⟩)
        case isFalse => exact hf p hp
      have hsame (rs : List ℕ) : (rs.filter fun p ↦ decide (1 < f p)).map e =
          (rs.filter fun p ↦ decide (1 < f p)).map d := by
        apply List.map_congr_left
        intro p hp
        exact if_pos (of_decide_eq_true (List.mem_filter.mp hp).2)
      rw [← hsame, ← hsame, encode_filter_radix hlt, h e hlt,
        encode_filter_radix fun p hp ↦ hlt p (hperm.symm.subset hp)]
  · intro h d hd
    rw [← encode_filter_radix hd, h]
    apply encode_filter_radix
    intro p hp
    exact hd p (hperm.symm.subset hp)

end

/-! ## Grouping the values of one digit -/

def foldDigit (p q : ℕ) (ds : List ℕ) : List ℕ := ds.set p (ds.getD p 0 / q)

def unfoldDigit (p q k : ℕ) (ds : List ℕ) : List ℕ := ds.set p (ds.getD p 0 * q + k)

@[simp] theorem length_foldDigit (p q : ℕ) (ds : List ℕ) :
    (foldDigit p q ds).length = ds.length := by simp [foldDigit]

@[simp] theorem length_unfoldDigit (p q k : ℕ) (ds : List ℕ) :
    (unfoldDigit p q k ds).length = ds.length := by simp [unfoldDigit]

theorem Digits.getD_lt {bs ds : List ℕ} (h : Digits bs ds) {p b : ℕ} (hb : bs[p]? = some b) :
    ds.getD p 0 < b := by
  obtain ⟨hlen, hdigits⟩ := digits_iff_getElem?.mp h
  obtain ⟨hp, -⟩ := List.getElem?_eq_some_iff.mp hb
  have hp : p < ds.length := by omega
  rw [List.getD_eq_getElem _ _ hp]
  exact hdigits p _ b (List.getElem?_eq_getElem hp) hb

theorem Digits.fold {bs ds : List ℕ} (h : Digits bs ds) {p q a b : ℕ} (ha : bs[p]? = some a)
    (hle : a ≤ b * q) : Digits (bs.set p b) (foldDigit p q ds) := by
  have hlt : ds.getD p 0 < q * b := by
    have := h.getD_lt ha
    rw [Nat.mul_comm]
    omega
  exact h.set (Nat.div_lt_of_lt_mul hlt) p

theorem Digits.unfold {bs ds : List ℕ} (h : Digits bs ds) {p q k a b : ℕ} (hb : bs[p]? = some b)
    (hle : b * q ≤ a) (hk : k < q) : Digits (bs.set p a) (unfoldDigit p q k ds) := by
  have hlt : ds.getD p 0 * q + k < a := by
    calc
      ds.getD p 0 * q + k < ds.getD p 0 * q + q := by omega
      _ = (ds.getD p 0 + 1) * q := (Nat.succ_mul _ _).symm
      _ ≤ b * q := Nat.mul_le_mul_right q (h.getD_lt hb)
      _ ≤ a := hle
  exact h.set hlt p

theorem unfoldDigit_foldDigit {p : ℕ} {ds : List ℕ} (hp : p < ds.length) (q : ℕ) :
    unfoldDigit p q (ds.getD p 0 % q) (foldDigit p q ds) = ds := by
  have hget : (ds.set p (ds.getD p 0 / q)).getD p 0 = ds.getD p 0 / q := by
    simp [List.getD_eq_getElem?_getD, hp]
  rw [unfoldDigit, foldDigit, hget, List.set_set, Nat.div_add_mod', List.getD_eq_getElem _ _ hp,
    List.set_getElem_self]

theorem foldDigit_unfoldDigit {p : ℕ} {ds : List ℕ} (hp : p < ds.length) {q k : ℕ} (hk : k < q) :
    foldDigit p q (unfoldDigit p q k ds) = ds := by
  have hget : (ds.set p (ds.getD p 0 * q + k)).getD p 0 = ds.getD p 0 * q + k := by
    simp [List.getD_eq_getElem?_getD, hp]
  have hdiv : (ds.getD p 0 * q + k) / q = ds.getD p 0 := by
    rw [Nat.mul_comm, Nat.mul_add_div (by omega), Nat.div_eq_of_lt hk, Nat.add_zero]
  rw [foldDigit, unfoldDigit, hget, hdiv, List.set_set, List.getD_eq_getElem _ _ hp,
    List.set_getElem_self]

/-! ## Enumerating the digit lists -/

def cells : List ℕ → List (List ℕ)
  | [] => [[]]
  | b :: bs => (List.range b).flatMap fun d ↦ (cells bs).map (d :: ·)

theorem mem_cells {bs ds : List ℕ} : ds ∈ cells bs ↔ Digits bs ds := by
  induction bs generalizing ds with
  | nil => cases ds <;> simp [cells, Digits]
  | cons b bs ih =>
      cases ds with
      | nil => simp [cells, Digits]
      | cons d ds => simp [cells, ih]

theorem nodup_cells (bs : List ℕ) : (cells bs).Nodup := by
  induction bs with
  | nil => simp [cells]
  | cons b bs ih =>
      refine List.nodup_flatMap.mpr ⟨fun d _ ↦ ?_, ?_⟩
      · exact ih.map fun x y hxy ↦ (List.cons.inj hxy).2
      · refine List.nodup_range.imp fun {d e} hne ↦ ?_
        rintro x hx hy
        obtain ⟨xs, -, rfl⟩ := List.mem_map.mp hx
        obtain ⟨ys, -, heq⟩ := List.mem_map.mp hy
        exact hne (List.cons.inj heq).1.symm

/-- An injective numbering of the digit lists by the numbers below the product
of the radices meets every digit list exactly once. -/
theorem map_range_perm_cells {bs : List ℕ} (f : ℕ → List ℕ)
    (hdigits : ∀ s < bs.prod, Digits bs (f s))
    (hinj : ∀ s < bs.prod, ∀ t < bs.prod, f s = f t → s = t)
    (hsurj : ∀ ds, Digits bs ds → ∃ s < bs.prod, f s = ds) :
    ((List.range bs.prod).map f).Perm (cells bs) := by
  rw [List.perm_ext_iff_of_nodup _ (nodup_cells bs)]
  · intro ds
    rw [mem_cells, List.mem_map]
    constructor
    · rintro ⟨s, hs, rfl⟩
      exact hdigits s (List.mem_range.mp hs)
    · intro h
      obtain ⟨s, hs, rfl⟩ := hsurj ds h
      exact ⟨s, List.mem_range.mpr hs, rfl⟩
  · refine List.Nodup.map_on ?_ List.nodup_range
    intro s hs t ht
    exact hinj s (List.mem_range.mp hs) t (List.mem_range.mp ht)

end MixedRadix
