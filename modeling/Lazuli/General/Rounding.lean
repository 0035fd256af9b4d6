import Mathlib.Algebra.Order.Field.Rat
import Mathlib.Data.Nat.Log
import Mathlib.Data.Set.Basic
import Mathlib.Tactic.Linarith
import Mathlib.Tactic.Positivity
import Mathlib.Tactic.Ring

/-!
Rounding to binary numbers.

`roundInt` rounds an integer to the nearest number with so many binary digits, and to the even one
of two (`isNearest_roundInt`). Rounding to nearest numbers keeps the order of what it does not make
equal (`IsNearest.lt_iff`).
-/

namespace Lazuli.General.Rounding

/-! ### Nearest numbers -/

section Nearest

variable {α : Type*} [Field α] [LinearOrder α] [IsStrictOrderedRing α]

/-- No member is nearer. -/
structure IsNearest (F : Set α) (x y : α) : Prop where
  mem : y ∈ F
  nearest : ∀ z ∈ F, |x - y| ≤ |x - z|

variable {F : Set α} {x y x' y' : α}

theorem IsNearest.of_mem (h : x ∈ F) : IsNearest F x x where
  mem := h
  nearest z _ := by
    rw [sub_self, abs_zero]
    exact abs_nonneg _

theorem IsNearest.eq_of_mem (h : IsNearest F x y) (hx : x ∈ F) : y = x := by
  have hdist := h.nearest x hx
  rw [sub_self, abs_zero] at hdist
  exact (sub_eq_zero.mp (abs_eq_zero.mp (le_antisymm hdist (abs_nonneg _)))).symm

/-- What is as near to the upper one of two numbers lies in the upper half between them. -/
theorem add_le_two_mul (h : |x - y| ≤ |x - y'|) (less : y' < y) : y + y' ≤ 2 * x := by
  have hsq : (x - y) ^ 2 ≤ (x - y') ^ 2 := sq_le_sq.mpr h
  have hprod : 0 ≤ (y - y') * (2 * x - (y + y')) := by linarith
  have hhalf : 0 ≤ 2 * x - (y + y') := nonneg_of_mul_nonneg_right hprod (sub_pos.mpr less)
  linarith

omit [IsStrictOrderedRing α] in
theorem abs_neg_sub_neg (x y : α) : |-x - -y| = |x - y| := by
  rw [neg_sub_neg, abs_sub_comm]

omit [IsStrictOrderedRing α] in
theorem IsNearest.neg (h : IsNearest F x y) (hF : ∀ z ∈ F, -z ∈ F) :
    IsNearest F (-x) (-y) where
  mem := hF y h.mem
  nearest z hz := by
    have hdist := h.nearest (-z) (hF z hz)
    rw [abs_neg_sub_neg]
    rwa [← abs_neg_sub_neg x (-z), neg_neg] at hdist

theorem IsNearest.le_of_lt (h : IsNearest F x y) (h' : IsNearest F x' y') (less : x < x') :
    y ≤ y' := by
  by_contra more
  rw [not_le] at more
  have upper := add_le_two_mul (h.nearest y' h'.mem) more
  have far := h'.nearest y h.mem
  rw [← abs_neg_sub_neg, ← abs_neg_sub_neg x' y] at far
  have lower := add_le_two_mul far (neg_lt_neg more)
  linarith

theorem IsNearest.lt_iff (h : IsNearest F x y) (h' : IsNearest F x' y')
    (told : y = y' ↔ x = x') : y < y' ↔ x < x' := by
  constructor
  · intro less
    by_contra more
    rcases lt_or_eq_of_le (not_lt.mp more) with greater | equal
    · exact absurd less (not_lt.mpr (h'.le_of_lt h greater))
    · exact less.ne (told.mpr equal.symm)
  · intro less
    exact lt_of_le_of_ne (h.le_of_lt h' less) fun equal => less.ne (told.mp equal)

end Nearest

/-! ### Binary digits -/

/-- The numbers with at most `p` significant binary digits. -/
def binary (p : ℕ) : Set ℚ := {x | ∃ m e : ℤ, |m| < 2 ^ p ∧ x = m * 2 ^ e}

theorem neg_mem_binary {p : ℕ} {x : ℚ} (h : x ∈ binary p) : -x ∈ binary p := by
  obtain ⟨m, e, hm, rfl⟩ := h
  exact ⟨-m, e, by rwa [abs_neg], by push_cast; ring⟩

/-- The value of the last of `p` digits. -/
def ulp (p n : ℕ) : ℕ := 2 ^ (n.log2 + 1 - p)

/-- The nearest multiple of the last digit, and the even one of two. -/
def roundNat (p n : ℕ) : ℕ :=
  let u := ulp p n
  let q := n / u
  (if u < 2 * (n % u) ∨ u = 2 * (n % u) ∧ q % 2 = 1 then q + 1 else q) * u

def roundInt (p : ℕ) (n : ℤ) : ℤ :=
  if n < 0 then -(roundNat p n.natAbs : ℤ) else roundNat p n.natAbs

variable {p n : ℕ}

theorem ulp_pos (p n : ℕ) : 0 < ulp p n := Nat.two_pow_pos _

/-- No multiple of the last digit is nearer. -/
theorem roundNat_nearest_multiple (c : ℤ) :
    |(n : ℤ) - roundNat p n| ≤ |(n : ℤ) - c * ulp p n| := by
  have hdiv := Nat.div_add_mod n (ulp p n)
  have hmod := Nat.mod_lt n (ulp_pos p n)
  rw [roundNat]
  generalize ulp p n = u at *
  generalize n / u = q at *
  generalize n % u = r at *
  have hn : (n : ℤ) = q * u + r := by rw [← hdiv]; push_cast; ring
  have hfar : r ≤ |(n : ℤ) - c * u| ∨ (u : ℤ) - r ≤ |(n : ℤ) - c * u| := by
    rcases le_or_gt c q with hc | hc
    · have hmul : c * u ≤ q * u := mul_le_mul_of_nonneg_right hc (by positivity)
      exact .inl (le_trans (by linarith) (le_abs_self _))
    · have hmul : ((q : ℤ) + 1) * u ≤ c * u := mul_le_mul_of_nonneg_right hc (by positivity)
      exact .inr (le_trans (by linarith) (neg_le_abs _))
  refine (?_ : |(n : ℤ) - _| ≤ min (r : ℤ) (u - r)).trans (min_le_iff.mpr hfar)
  split
  next up =>
    have hsub : (n : ℤ) - ((q + 1) * u : ℕ) = -(u - r) := by rw [hn]; push_cast; ring
    rw [hsub, abs_neg, abs_of_nonneg (by omega)]
    omega
  next down =>
    have hsub : (n : ℤ) - (q * u : ℕ) = r := by rw [hn]; push_cast; ring
    rw [hsub, abs_of_nonneg (by omega)]
    omega

/-- The digits in front of the last place. -/
theorem div_ulp_lt (p n : ℕ) : n / ulp p n < 2 ^ p := by
  rw [Nat.div_lt_iff_lt_mul (ulp_pos p n), ulp, ← pow_add]
  exact lt_of_lt_of_le Nat.lt_log2_self (Nat.pow_le_pow_right two_pos (by omega))

theorem mul_ulp_mem_binary (hp : 0 < p) {q : ℕ} (hq : q ≤ 2 ^ p) :
    ((q * ulp p n : ℕ) : ℚ) ∈ binary p := by
  rcases lt_or_eq_of_le hq with less | rfl
  · refine ⟨q, (n.log2 + 1 - p : ℕ), ?_, ?_⟩
    · rw [Nat.abs_cast]
      exact_mod_cast less
    · rw [ulp, zpow_natCast]
      push_cast
      rfl
  · -- a carry beyond the first digit
    refine ⟨1, (p + (n.log2 + 1 - p) : ℕ), ?_, ?_⟩
    · rw [abs_one]
      exact one_lt_pow₀ one_lt_two hp.ne'
    · rw [ulp, zpow_natCast, pow_add]
      push_cast
      ring

theorem roundNat_mem_binary (hp : 0 < p) (n : ℕ) : (roundNat p n : ℚ) ∈ binary p := by
  have hq := div_ulp_lt p n
  rw [roundNat]
  refine mul_ulp_mem_binary hp ?_
  split <;> omega

/-- A number whose last digit stands behind that of `n` is smaller than the first digit of `n`. -/
theorem lt_two_pow_log2 {m e : ℤ} (hm : |m| < 2 ^ p) (hn : p ≤ n.log2)
    (small : e < (n.log2 + 1 - p : ℕ)) : (m : ℚ) * 2 ^ e < (2 ^ n.log2 : ℕ) := by
  have hpow : (2 : ℚ) ^ e ≤ 2 ^ (n.log2 - p) := by
    rw [← zpow_natCast]
    exact zpow_le_zpow_right₀ one_le_two (by omega)
  have hm : (m : ℚ) < 2 ^ p := by
    have := lt_of_le_of_lt (le_abs_self m) hm
    exact_mod_cast this
  calc (m : ℚ) * 2 ^ e
      < 2 ^ p * 2 ^ e := mul_lt_mul_of_pos_right hm (zpow_pos two_pos e)
    _ ≤ 2 ^ p * 2 ^ (n.log2 - p) := mul_le_mul_of_nonneg_left hpow (by positivity)
    _ = (2 ^ n.log2 : ℕ) := by
        rw [← pow_add, Nat.add_sub_cancel' hn]
        push_cast
        rfl

theorem isNearest_roundNat (hp : 0 < p) (n : ℕ) :
    IsNearest (binary p) (n : ℚ) (roundNat p n : ℚ) where
  mem := roundNat_mem_binary hp n
  nearest := by
    have multiple (c : ℤ) : |(n : ℚ) - roundNat p n| ≤ |(n : ℚ) - (c * ulp p n : ℤ)| := by
      exact_mod_cast roundNat_nearest_multiple (p := p) (n := n) c
    rintro z ⟨m, e, hm, rfl⟩
    rcases le_or_gt ((n.log2 + 1 - p : ℕ) : ℤ) e with large | small
    · -- a multiple of the last digit
      obtain ⟨d, hd⟩ := Int.le.dest large
      have hz : (m : ℚ) * 2 ^ e = ((m * 2 ^ d * ulp p n : ℤ) : ℚ) := by
        rw [ulp, ← hd, zpow_add₀ two_ne_zero, zpow_natCast, zpow_natCast]
        push_cast
        ring
      rw [hz]
      exact multiple _
    · rcases le_or_gt p n.log2 with long | short
      · -- the first digit is a multiple of the last one, and nearer
        have hfirst : ((2 ^ (p - 1) : ℤ) * ulp p n : ℤ) = (2 ^ n.log2 : ℕ) := by
          rw [ulp]
          push_cast
          rw [← pow_add]
          congr 1
          omega
        have hne : n ≠ 0 := by
          rintro rfl
          simp at long
          omega
        have hless := lt_two_pow_log2 hm long small
        have hself : ((2 ^ n.log2 : ℕ) : ℚ) ≤ n := by exact_mod_cast Nat.log2_self_le hne
        refine (multiple (2 ^ (p - 1))).trans ?_
        rw [hfirst, Int.cast_natCast, abs_of_nonneg (by linarith)]
        exact le_trans (by linarith) (le_abs_self _)
      · -- no digit is lost
        have hulp : ulp p n = 1 := by
          rw [ulp, Nat.sub_eq_zero_of_le (by omega), pow_zero]
        have exact := multiple n
        rw [hulp] at exact
        simp only [Nat.cast_one, mul_one, Int.cast_natCast, sub_self, abs_zero] at exact
        exact exact.trans (abs_nonneg _)

/-- Integers are rounded to the nearest numbers with so many digits. -/
theorem isNearest_roundInt (hp : 0 < p) (n : ℤ) :
    IsNearest (binary p) (n : ℚ) (roundInt p n : ℚ) := by
  rw [roundInt]
  split
  next negative =>
    have hn : (n : ℚ) = -(n.natAbs : ℚ) := by
      rw [← Int.cast_natCast, Int.natCast_natAbs, abs_of_neg negative]
      push_cast
      ring
    have h := (isNearest_roundNat hp n.natAbs).neg fun _ => neg_mem_binary
    rw [hn]
    push_cast
    exact h
  next positive =>
    have hn : (n : ℚ) = (n.natAbs : ℚ) := by
      rw [← Int.cast_natCast, Int.natCast_natAbs, abs_of_nonneg (not_lt.mp positive)]
    rw [hn]
    exact_mod_cast isNearest_roundNat hp n.natAbs

end Lazuli.General.Rounding
