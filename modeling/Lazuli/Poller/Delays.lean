import Lazuli.Poller.Contract
import Mathlib.Algebra.Order.Ring.Int
import Mathlib.Data.Nat.Log
import Mathlib.Tactic.Linarith
import Mathlib.Tactic.Ring

/-!
Which backoffs keep to their arithmetic.

Attempts are counted with 32 bits, durations with 64. `Exponential.NextDelay` looks for the
wrapped sign after every doubling and `Linear.NextDelay` never does, so a linear delay turns
negative as soon as the base can be multiplied past the longest duration. Without a cap an
exponential delay ends on one fixed duration, which the last doubling may have passed.
-/

namespace Lazuli.Poller

open Lazuli.General

/-! ### The delays as unbounded integers -/

def Backoff.base : Backoff → Int
  | .fixed base | .linear base _ | .exponential base _ => base

def Backoff.cap : Backoff → Int
  | .fixed _ => 0
  | .linear _ cap | .exponential _ cap => cap

/-- The delay nothing caps or wraps. Nothing precedes the first call of an exponential one. -/
def Backoff.unbounded (attempts : Nat) : Backoff → Int
  | .fixed base => base
  | .linear base _ => base * attempts
  | .exponential base _ => if attempts = 0 then 0 else base * 2 ^ (attempts - 1)

/-- The backoff is one the type of durations has, with nothing negative in it. -/
structure Backoff.Valid (b : Backoff) : Prop where
  base_nonneg : 0 ≤ b.base
  base_le : b.base ≤ maxDuration
  cap_nonneg : 0 ≤ b.cap
  cap_le : b.cap ≤ maxDuration

/-- What the delays of a backoff are for, over all attempts the counter can reach. -/
structure Backoff.Safe (b : Backoff) : Prop where
  exact_of_cap : 0 < b.cap → ∀ n < 2 ^ 32, b.nextDelay n = min b.cap (b.unbounded n)
  nonneg : ∀ n < 2 ^ 32, 0 ≤ b.nextDelay n
  mono : ∀ m n, m ≤ n → n < 2 ^ 32 → b.nextDelay m ≤ b.nextDelay n

/-- When no delay is lost to the width of the type. The longest linear base is a little over
two seconds. -/
def Backoff.Fits : Backoff → Prop
  | .fixed _ => True
  | .linear base _ => base ≤ 2 ^ 31
  | .exponential base cap => 0 < cap ∨ base = 0 ∨ ∃ k : Nat, base = 2 ^ k

theorem capped_of_pos {cap : Int} (h : 0 < cap) (d : Int) : capped cap d = min cap d := by
  unfold capped
  split <;> omega

theorem capped_of_nonpos {cap : Int} (h : cap ≤ 0) (d : Int) : capped cap d = d := by
  unfold capped
  split <;> omega

theorem capped_mono (cap : Int) {d e : Int} (h : d ≤ e) : capped cap d ≤ capped cap e := by
  unfold capped
  split <;> split <;> omega

theorem capped_nonneg {cap d : Int} (h : 0 ≤ d) : 0 ≤ capped cap d := by
  unfold capped
  split <;> omega

theorem capped_neg {cap d : Int} (h : d < 0) : capped cap d = d := by
  unfold capped
  split <;> omega

/-! ### Linear backoff -/

section Linear

variable {base cap : Int}

/-- A small base is never multiplied past the longest duration. -/
theorem nextDelay_linear (nonneg : 0 ≤ base) (small : base ≤ 2 ^ 31) {n : Nat}
    (hn : n < 2 ^ 32) : (Backoff.linear base cap).nextDelay n = capped cap (base * n) := by
  have fits : base * n ≤ 2 ^ 31 * (2 ^ 32 - 1) :=
    mul_le_mul small (by omega) (by omega) (by omega)
  have room : base * n ≤ maxDuration := by
    unfold maxDuration
    omega
  rw [Backoff.nextDelay, wrap64_of_nonneg (mul_nonneg nonneg (by omega)) room]

theorem linear_safe (nonneg : 0 ≤ base) (small : base ≤ 2 ^ 31) :
    (Backoff.linear base cap).Safe where
  exact_of_cap pos n hn := by
    rw [nextDelay_linear nonneg small hn]
    exact capped_of_pos pos _
  nonneg n hn := by
    rw [nextDelay_linear nonneg small hn]
    exact capped_nonneg (mul_nonneg nonneg (by omega))
  mono m n h hn := by
    rw [nextDelay_linear nonneg small (by omega), nextDelay_linear nonneg small hn]
    exact capped_mono cap (mul_le_mul_of_nonneg_left (by omega) nonneg)

/-- The first multiple past the longest duration has wrapped, and no cap catches a negative
delay. -/
theorem exists_linear_neg (large : 2 ^ 31 < base) (base_le : base ≤ maxDuration) :
    ∃ n < 2 ^ 32, (Backoff.linear base cap).nextDelay n < 0 := by
  have pos : 0 < base := by omega
  set q := maxDuration / base with hq
  have q_nonneg : 0 ≤ q := Int.ediv_nonneg (by unfold maxDuration; omega) (by omega)
  have below : base * q ≤ maxDuration := Int.mul_ediv_self_le (by omega)
  have above : maxDuration < base * (q + 1) := Int.lt_mul_ediv_self_add pos |>.trans_eq (by ring)
  have q_small : q < 2 ^ 32 - 1 := by
    refine Int.ediv_lt_of_lt_mul pos ?_
    unfold maxDuration
    omega
  have cast : (((q + 1).toNat : Nat) : Int) = q + 1 := Int.toNat_of_nonneg (by omega)
  have wraps : wrap64 (base * (q + 1)) < 0 := by
    refine wrap64_neg above ?_
    unfold maxDuration at *
    linarith
  refine ⟨(q + 1).toNat, by omega, ?_⟩
  rw [Backoff.nextDelay, cast, capped_neg wraps]
  exact wraps

end Linear

/-! ### Exponential backoff -/

section Exponential

variable {base cap : Int}

/-- A doubling either fits or shows the wrapped sign. -/
theorem wrap64_double {d : Int} (nonneg : 0 ≤ d) (fits : d ≤ maxDuration) :
    d < 2 ^ 62 ∧ wrap64 (d * 2) = d * 2 ∨ 2 ^ 62 ≤ d ∧ wrap64 (d * 2) < 0 := by
  unfold maxDuration at fits
  rcases Int.lt_or_le d (2 ^ 62) with small | large
  · exact .inl ⟨small, wrap64_of_nonneg (by omega) (by unfold maxDuration; omega)⟩
  · exact .inr ⟨large, wrap64_neg (by unfold maxDuration; omega) (by omega)⟩

theorem le_mul_two_pow {d : Int} (nonneg : 0 ≤ d) (rounds : Nat) : d ≤ d * 2 ^ rounds :=
  le_mul_of_one_le_right nonneg (one_le_pow₀ (by omega))

/-- Under a cap the loop computes the exact delay, wherever it stops. -/
theorem doubleDelay_of_cap (pos : 0 < cap) (cap_le : cap ≤ maxDuration) (rounds : Nat) {d : Int}
    (nonneg : 0 ≤ d) (fits : d ≤ maxDuration) :
    doubleDelay cap rounds d = min cap (d * 2 ^ rounds) := by
  induction rounds generalizing d with
  | zero => rw [doubleDelay, capped_of_pos pos, pow_zero, mul_one]
  | succ rounds ih =>
      have step : d * 2 ^ (rounds + 1) = d * 2 * 2 ^ rounds := by ring
      have grows : d * 2 ≤ d * 2 * 2 ^ rounds := le_mul_two_pow (by omega) rounds
      rw [doubleDelay]
      by_cases full : cap ≤ d
      · rw [if_pos ⟨pos, full⟩, min_eq_left]
        omega
      · rw [if_neg (fun h => full h.2)]
        obtain ⟨small, eq⟩ | ⟨large, neg⟩ := wrap64_double nonneg fits
        · have fits' : d * 2 ≤ maxDuration := by
            unfold maxDuration
            omega
          simp only [eq]
          rw [if_neg (by omega), ih (by omega) fits', step]
        · simp only [if_pos neg, if_pos pos]
          rw [min_eq_left]
          unfold maxDuration at cap_le
          omega

/-- Without a cap, what would wrap becomes one fixed duration. -/
theorem doubleDelay_of_no_cap (none : cap ≤ 0) (rounds : Nat) {d : Int} (nonneg : 0 ≤ d)
    (fits : d ≤ maxDuration) :
    doubleDelay cap rounds d =
      if d * 2 ^ rounds ≤ maxDuration then d * 2 ^ rounds else 2 ^ 62 := by
  induction rounds generalizing d with
  | zero => rw [doubleDelay, capped_of_nonpos none, pow_zero, mul_one, if_pos fits]
  | succ rounds ih =>
      have step : d * 2 ^ (rounds + 1) = d * 2 * 2 ^ rounds := by ring
      have grows : d * 2 ≤ d * 2 * 2 ^ rounds := le_mul_two_pow (by omega) rounds
      rw [doubleDelay, if_neg (by omega)]
      obtain ⟨small, eq⟩ | ⟨large, neg⟩ := wrap64_double nonneg fits
      · have fits' : d * 2 ≤ maxDuration := by
          unfold maxDuration
          omega
        simp only [eq]
        rw [if_neg (by omega), ih (by omega) fits', step]
      · simp only [if_pos neg, if_neg (not_lt.mpr none)]
        rw [if_neg]
        unfold maxDuration
        omega

@[simp] theorem nextDelay_exponential_zero : (Backoff.exponential base cap).nextDelay 0 = 0 := rfl

@[simp] theorem nextDelay_exponential_succ (n : Nat) :
    (Backoff.exponential base cap).nextDelay (n + 1) = doubleDelay cap n base := by
  simp [Backoff.nextDelay]

@[simp] theorem unbounded_zero : (Backoff.exponential base cap).unbounded 0 = 0 := rfl

@[simp] theorem unbounded_succ (n : Nat) :
    (Backoff.exponential base cap).unbounded (n + 1) = base * 2 ^ n := by
  simp [Backoff.unbounded]

theorem unbounded_nonneg (nonneg : 0 ≤ base) (n : Nat) :
    0 ≤ (Backoff.exponential base cap).unbounded n := by
  rcases n with _ | n
  · exact le_rfl
  · rw [unbounded_succ]
    positivity

theorem unbounded_mono (nonneg : 0 ≤ base) {m n : Nat} (h : m ≤ n) :
    (Backoff.exponential base cap).unbounded m ≤ (Backoff.exponential base cap).unbounded n := by
  rcases m with _ | m
  · exact unbounded_nonneg nonneg n
  · obtain ⟨n, rfl⟩ := Nat.exists_eq_add_of_le' (Nat.succ_pos m |>.trans_le h)
    rw [unbounded_succ, unbounded_succ]
    exact mul_le_mul_of_nonneg_left (pow_le_pow_right₀ (by omega) (by omega)) nonneg

/-- The guard of the loop and its test of the cap agree with the exact delay. -/
theorem nextDelay_exponential_of_cap (v : (Backoff.exponential base cap).Valid) (pos : 0 < cap)
    (n : Nat) : (Backoff.exponential base cap).nextDelay n =
      min cap ((Backoff.exponential base cap).unbounded n) := by
  rcases n with _ | n
  · rw [nextDelay_exponential_zero, unbounded_zero, min_eq_right pos.le]
  · rw [nextDelay_exponential_succ, unbounded_succ]
    exact doubleDelay_of_cap pos v.cap_le n v.base_nonneg v.base_le

theorem nextDelay_exponential_of_no_cap (v : (Backoff.exponential base cap).Valid)
    (none : cap ≤ 0) (n : Nat) : (Backoff.exponential base cap).nextDelay n =
      if (Backoff.exponential base cap).unbounded n ≤ maxDuration then
        (Backoff.exponential base cap).unbounded n else 2 ^ 62 := by
  rcases n with _ | n
  · simp [maxDuration]
  · rw [nextDelay_exponential_succ, unbounded_succ]
    exact doubleDelay_of_no_cap none n v.base_nonneg v.base_le

theorem exponential_safe_of_cap (v : (Backoff.exponential base cap).Valid) (pos : 0 < cap) :
    (Backoff.exponential base cap).Safe where
  exact_of_cap _ n _ := nextDelay_exponential_of_cap v pos n
  nonneg n _ := by
    rw [nextDelay_exponential_of_cap v pos]
    exact le_min pos.le (unbounded_nonneg v.base_nonneg n)
  mono m n h _ := by
    rw [nextDelay_exponential_of_cap v pos, nextDelay_exponential_of_cap v pos]
    exact min_le_min_left cap (unbounded_mono v.base_nonneg h)

/-- What fits is at most the fixed duration, for a power of two and for nothing else. -/
theorem unbounded_le_of_pow {base : Int} (h : base = 0 ∨ ∃ k : Nat, base = 2 ^ k) {n : Nat}
    (fits : (Backoff.exponential base cap).unbounded n ≤ maxDuration) :
    (Backoff.exponential base cap).unbounded n ≤ 2 ^ 62 := by
  rcases n with _ | n
  · rw [unbounded_zero]
    omega
  rw [unbounded_succ] at *
  obtain rfl | ⟨k, rfl⟩ := h
  · rw [zero_mul]
    omega
  · rw [← pow_add] at *
    refine pow_le_pow_right₀ (by omega) ?_
    by_contra far
    have : (2 : Int) ^ 63 ≤ 2 ^ (k + n) := pow_le_pow_right₀ (by omega) (by omega)
    unfold maxDuration at fits
    omega

theorem exponential_safe_of_pow (v : (Backoff.exponential base cap).Valid) (none : cap ≤ 0)
    (h : base = 0 ∨ ∃ k : Nat, base = 2 ^ k) : (Backoff.exponential base cap).Safe where
  exact_of_cap pos := absurd none (not_le.mpr pos)
  nonneg n _ := by
    rw [nextDelay_exponential_of_no_cap v none]
    split
    · exact unbounded_nonneg v.base_nonneg n
    · omega
  mono m n hmn _ := by
    have grows : (Backoff.exponential base cap).unbounded m ≤
        (Backoff.exponential base cap).unbounded n := unbounded_mono v.base_nonneg hmn
    rw [nextDelay_exponential_of_no_cap v none, nextDelay_exponential_of_no_cap v none]
    split
    · rename_i fits
      split
      · exact grows
      · exact unbounded_le_of_pow h fits
    · rw [if_neg (by omega)]

/-- The last delay that fits lies above the fixed duration that comes after it. -/
theorem exists_exponential_drop (v : (Backoff.exponential base cap).Valid) (none : cap ≤ 0)
    (pos : base ≠ 0) (odd : ∀ k : Nat, base ≠ 2 ^ k) :
    ∃ n < 64, (Backoff.exponential base cap).nextDelay (n + 1) <
      (Backoff.exponential base cap).nextDelay n := by
  obtain ⟨b, rfl⟩ := Int.eq_ofNat_of_zero_le v.base_nonneg
  have b_pos : b ≠ 0 := by simpa using pos
  have b_le : b < 2 ^ 63 := by
    have : (b : Int) ≤ maxDuration := v.base_le
    unfold maxDuration at this
    omega
  set l := Nat.log 2 b with hl
  have low : 2 ^ l ≤ b := Nat.pow_log_le_self 2 b_pos
  have high : b < 2 ^ (l + 1) := Nat.lt_pow_succ_log_self (by omega) b
  have l_le : l < 63 := (Nat.pow_lt_pow_iff_right (by omega)).mp (low.trans_lt b_le)
  have strict : 2 ^ l < b := low.lt_of_ne fun eq => odd l (by rw [← eq]; norm_cast)
  obtain ⟨r, hr⟩ := Nat.exists_eq_add_of_le (Nat.le_of_lt_succ l_le)
  have last : 2 ^ 62 < b * 2 ^ r := by
    rw [hr, pow_add]
    exact Nat.mul_lt_mul_of_pos_right strict (by positivity)
  have fits : b * 2 ^ r < 2 ^ 63 := by
    rw [show 63 = l + 1 + r by omega, pow_add]
    exact Nat.mul_lt_mul_of_pos_right high (by positivity)
  refine ⟨r + 1, by omega, ?_⟩
  rw [nextDelay_exponential_of_no_cap v none, nextDelay_exponential_of_no_cap v none,
    unbounded_succ, unbounded_succ]
  have last' : (2 : Int) ^ 62 < b * 2 ^ r := by exact_mod_cast last
  have fits' : (b : Int) * 2 ^ r < 2 ^ 63 := by exact_mod_cast fits
  have next : (b : Int) * 2 ^ (r + 1) = b * 2 ^ r * 2 := by ring
  rw [if_neg (by unfold maxDuration; omega), if_pos (by unfold maxDuration; omega)]
  exact last'

end Exponential

/-! ### The exact condition -/

theorem fits_of_safe {b : Backoff} (v : b.Valid) (safe : b.Safe) : b.Fits := by
  cases b with
  | fixed base => trivial
  | linear base cap =>
      by_contra large
      obtain ⟨n, hn, neg⟩ : ∃ n < 2 ^ 32, (Backoff.linear base cap).nextDelay n < 0 :=
        exists_linear_neg (not_le.mp large) v.base_le
      exact absurd (safe.nonneg n hn) (not_le.mpr neg)
  | exponential base cap =>
      by_contra h
      obtain ⟨none, pos, odd⟩ : ¬ 0 < cap ∧ base ≠ 0 ∧ ∀ k : Nat, base ≠ 2 ^ k := by
        simpa [Backoff.Fits] using h
      obtain ⟨n, hn, drop⟩ := exists_exponential_drop v (not_lt.mp none) pos odd
      exact absurd (safe.mono n (n + 1) (by omega) (by omega)) (not_le.mpr drop)

theorem safe_of_fits {b : Backoff} (v : b.Valid) (fits : b.Fits) : b.Safe := by
  cases b with
  | fixed base =>
      exact ⟨fun pos => absurd pos (lt_irrefl 0), fun _ _ => v.base_nonneg, fun _ _ _ _ => le_rfl⟩
  | linear base cap => exact linear_safe v.base_nonneg fits
  | exponential base cap =>
      rcases Int.lt_or_le 0 cap with pos | none
      · exact exponential_safe_of_cap v pos
      · exact exponential_safe_of_pow v none (fits.resolve_left (not_lt.mpr none))

/-- Linear backoff needs a base of at most 2^31 nanoseconds; exponential backoff a cap, or a
base that doubling leads onto the fixed duration. -/
theorem delays_iff {b : Backoff} (v : b.Valid) : b.Safe ↔ b.Fits :=
  ⟨fits_of_safe v, safe_of_fits v⟩

/-- A base of three minutes doubles up to a day. -/
theorem delays_iff_of_day : (Backoff.exponential 180000000000 86400000000000).Safe :=
  (delays_iff ⟨by decide, by decide, by decide, by decide⟩).mpr (.inl (by decide))

/-- An hour for each attempt, capped at a day, and three nanoseconds doubled without a cap. -/
theorem wrapped :
    ¬(Backoff.linear 3600000000000 86400000000000).Safe ∧ ¬(Backoff.exponential 3 0).Safe := by
  constructor
  · intro safe
    exact absurd (safe.nonneg 2562048 (by decide)) (by decide)
  · intro safe
    exact absurd (safe.mono 62 63 (by decide) (by decide)) (by decide)

end Lazuli.Poller
