import Lazuli.General.GoDuration
import Mathlib.Algebra.Order.Group.Nat
import Mathlib.Algebra.Order.Ring.Int
import Mathlib.Data.Nat.Bitwise
import Mathlib.Tactic.Linarith
import Mathlib.Tactic.Ring

/-!
Retry delays of jobs (`runtime/go/lazuli/jobs/retry.go`).

The delay of an exponential policy goes through a floating-point power, its conversion to 64
bits, and a product that wraps; only then is it compared with the cap. Five seconds are
`5 ^ 10 * 2 ^ 9` nanoseconds, so the wrapped product is read off the bits of `5 ^ 10`.
-/

namespace Lazuli.Jobs

open Lazuli.General

def BackoffFixed : String := "fixed"

def BackoffExponential : String := "exponential"

structure RetryPolicy where
  count : UInt32
  backoff : String
  deriving DecidableEq

/-- Five seconds. -/
def baseDelay : Int := 5000000000

/-- Five minutes. -/
def maxDelay : Int := 300000000000

section NextDelay

variable (huge : Nat → Int)

/-- `time.Duration(math.Pow(2, k))`. Powers of two are exact as floats, and infinite from
`k = 1024` on. What becomes of one that 64 bits do not hold is left to the platform: `huge`. -/
def powerDuration (k : Nat) : Int := if k < 63 then 2 ^ k else huge k

def nextDelay (policy : RetryPolicy) (attempt : Nat) : Int :=
  if attempt = 0 then 0
  else if policy.backoff = BackoffFixed then baseDelay
  else if policy.backoff = BackoffExponential then
    let delay := wrap64 (powerDuration huge (attempt - 1) * baseDelay)
    if maxDelay < delay then maxDelay else delay
  else baseDelay

/-! ### The exact delay -/

/-- Five seconds, doubled with every attempt after the first, and at most five minutes. -/
def exactDelay (attempt : Nat) : Int := min (baseDelay * 2 ^ (attempt - 1)) maxDelay

/-- Up to 31 attempts the product fits; up to 55 it wraps, to a large duration when its sign bit
is a zero of `5 ^ 10`; beyond them nothing of it is left. -/
def Fits (attempt : Nat) : Prop :=
  attempt ≤ 31 ∨ attempt ≤ 55 ∧ Nat.testBit (5 ^ 10) (55 - attempt) = false

/-- Where the code computes the exact delay. From 64 attempts on the platform decides. -/
def Kept (attempt : Nat) : Prop :=
  Fits attempt ∨ 64 ≤ attempt ∧ maxDelay ≤ wrap64 (huge (attempt - 1) * baseDelay)

/-- Where the code waits at all. -/
def Waits (attempt : Nat) : Prop :=
  Fits attempt ∨ 64 ≤ attempt ∧ 0 < wrap64 (huge (attempt - 1) * baseDelay)

theorem exactDelay_pos (n : Nat) : 0 < exactDelay n := by
  unfold exactDelay baseDelay maxDelay
  exact lt_min (by positivity) (by omega)

theorem exactDelay_le (n : Nat) : exactDelay n ≤ maxDelay := min_le_right _ _

theorem exactDelay_of_large {n : Nat} (h : 7 ≤ n) : exactDelay n = maxDelay := by
  have : (2 : Int) ^ 6 ≤ 2 ^ (n - 1) := pow_le_pow_right₀ (by omega) (by omega)
  unfold exactDelay baseDelay maxDelay
  omega

/-! ### The wrapped product -/

/-- The product before it wraps. -/
theorem power_mul_baseDelay {n : Nat} (pos : 0 < n) (fits : n < 64) :
    powerDuration huge (n - 1) * baseDelay = ((2 ^ (n + 8) * 5 ^ 10 : Nat) : Int) := by
  obtain ⟨k, rfl⟩ := Nat.exists_eq_succ_of_ne_zero pos.ne'
  have base : baseDelay = 2 ^ 9 * 5 ^ 10 := by decide
  rw [powerDuration, if_pos (by omega), Nat.succ_sub_one, base, Nat.succ_eq_add_one]
  push_cast
  ring

theorem wrap64_of_small {n : Nat} (small : n ≤ 31) :
    wrap64 ((2 ^ (n + 8) * 5 ^ 10 : Nat) : Int) = ((2 ^ (n + 8) * 5 ^ 10 : Nat) : Int) := by
  have bound : 2 ^ (n + 8) ≤ 2 ^ 39 := Nat.pow_le_pow_right (by omega) (by omega)
  refine wrap64_of_nonneg (by omega) ?_
  unfold maxDuration
  omega

/-- The sign of the wrapped product is a bit of `5 ^ 10`. -/
theorem wrap64_neg_iff_testBit {n : Nat} (h : n ≤ 55) :
    wrap64 ((2 ^ (n + 8) * 5 ^ 10 : Nat) : Int) < 0 ↔ Nat.testBit (5 ^ 10) (55 - n) = true := by
  rw [wrap64_neg_iff, Nat.testBit_two_pow_mul]
  have le : n + 8 ≤ 63 := by omega
  have eq : 63 - (n + 8) = 55 - n := by omega
  simp only [le, eq, decide_true, Bool.true_and]

/-- Unless it is negative, it is one of the large durations. -/
theorem lt_wrap64_of_nonneg {n : Nat} (large : 31 < n) (h : n ≤ 55)
    (nonneg : 0 ≤ wrap64 ((2 ^ (n + 8) * 5 ^ 10 : Nat) : Int)) :
    maxDelay < wrap64 ((2 ^ (n + 8) * 5 ^ 10 : Nat) : Int) := by
  set product := 2 ^ (n + 8) * 5 ^ 10 with hp
  have width : (2 : Nat) ^ 64 = 2 ^ (n + 8) * 2 ^ (56 - n) := by
    rw [← pow_add]
    congr 1
    omega
  have some_left : wrap64 (product : Int) ≠ 0 := by
    intro zero
    have divides : 2 ^ 64 ∣ product := by exact_mod_cast wrap64_eq_zero_iff.mp zero
    rw [hp, width] at divides
    have even : 2 ^ (56 - n) ∣ 5 ^ 10 := Nat.dvd_of_mul_dvd_mul_left (by positivity) divides
    have : 2 ∣ 5 ^ 10 := (dvd_pow_self 2 (by omega)).trans even
    omega
  have divides : ((2 ^ (n + 8) : Nat) : Int) ∣ wrap64 (product : Int) := by
    refine dvd_wrap64 ?_ ?_
    · exact Int.natCast_dvd_natCast.mpr (Dvd.intro _ width.symm)
    · exact Int.natCast_dvd_natCast.mpr (Dvd.intro _ rfl)
  have le : ((2 ^ (n + 8) : Nat) : Int) ≤ wrap64 (product : Int) :=
    Int.le_of_dvd (by omega) divides
  have room : 2 ^ 40 ≤ 2 ^ (n + 8) := Nat.pow_le_pow_right (by omega) (by omega)
  unfold maxDelay
  omega

theorem wrap64_eq_zero_of_large {n : Nat} (large : 55 < n) :
    wrap64 ((2 ^ (n + 8) * 5 ^ 10 : Nat) : Int) = 0 := by
  refine wrap64_eq_zero_iff.mpr ?_
  have : 2 ^ 64 ∣ 2 ^ (n + 8) * 5 ^ 10 :=
    Dvd.dvd.mul_right (Nat.pow_dvd_pow 2 (by omega)) _
  exact_mod_cast this

/-! ### Delays -/

section Exponential

variable {policy : RetryPolicy} {n : Nat}

theorem nextDelay_exponential (exponential : policy.backoff = BackoffExponential) (pos : 0 < n) :
    nextDelay huge policy n = min maxDelay (wrap64 (powerDuration huge (n - 1) * baseDelay)) := by
  have notFixed : policy.backoff ≠ BackoffFixed := by
    rw [exponential]
    decide
  rw [nextDelay, if_neg pos.ne', if_neg notFixed, if_pos exponential]
  simp only
  split <;> omega

/-- While the power is an integer of 64 bits, the delay is the exact one or there is none. -/
theorem nextDelay_cases (exponential : policy.backoff = BackoffExponential) (pos : 0 < n)
    (power : n < 64) : Fits n ∧ nextDelay huge policy n = exactDelay n ∨
      ¬Fits n ∧ nextDelay huge policy n ≤ 0 := by
  rw [nextDelay_exponential huge exponential pos, power_mul_baseDelay huge pos power]
  have positive : 0 < maxDelay := by decide
  rcases Nat.lt_or_ge 55 n with gone | left
  · refine .inr ⟨?_, ?_⟩
    · unfold Fits
      omega
    · rw [wrap64_eq_zero_of_large gone]
      exact min_le_right _ _
  rcases Nat.lt_or_ge 31 n with large | small
  · cases bit : Nat.testBit (5 ^ 10) (55 - n) with
    | true =>
        refine .inr ⟨?_, ?_⟩
        · rintro (small | ⟨-, zero⟩)
          · omega
          · rw [bit] at zero
            cases zero
        · have := (wrap64_neg_iff_testBit left).mpr bit
          omega
    | false =>
        have nonneg : ¬wrap64 ((2 ^ (n + 8) * 5 ^ 10 : Nat) : Int) < 0 := by
          rw [wrap64_neg_iff_testBit left, bit]
          exact Bool.false_ne_true
        have := lt_wrap64_of_nonneg large left (not_lt.mp nonneg)
        exact .inl ⟨.inr ⟨left, bit⟩, by rw [exactDelay_of_large (by omega), min_eq_left this.le]⟩
  · refine .inl ⟨.inl small, ?_⟩
    rw [wrap64_of_small small, ← power_mul_baseDelay huge pos power, exactDelay, min_comm,
      powerDuration, if_pos (by omega), mul_comm]

theorem nextDelay_exact_iff (exponential : policy.backoff = BackoffExponential) (pos : 0 < n) :
    nextDelay huge policy n = exactDelay n ↔ Kept huge n := by
  rcases Nat.lt_or_ge n 64 with power | past
  · have kept : Kept huge n ↔ Fits n := or_iff_left fun h => absurd h.1 (by omega)
    rw [kept]
    rcases nextDelay_cases huge exponential pos power with ⟨fits, exact⟩ | ⟨lost, none⟩
    · exact iff_of_true exact fits
    · have := exactDelay_pos n
      exact iff_of_false (by omega) lost
  · rw [nextDelay_exponential huge exponential pos, powerDuration, if_neg (by omega),
      exactDelay_of_large (by omega), min_eq_left_iff]
    unfold Kept Fits
    omega

theorem nextDelay_exponential_pos_iff (exponential : policy.backoff = BackoffExponential)
    (pos : 0 < n) : 0 < nextDelay huge policy n ↔ Waits huge n := by
  rcases Nat.lt_or_ge n 64 with power | past
  · have waits : Waits huge n ↔ Fits n := or_iff_left fun h => absurd h.1 (by omega)
    rw [waits]
    rcases nextDelay_cases huge exponential pos power with ⟨fits, exact⟩ | ⟨lost, none⟩
    · rw [exact]
      exact iff_of_true (exactDelay_pos n) fits
    · exact iff_of_false (by omega) lost
  · have positive : 0 < maxDelay := by decide
    rw [nextDelay_exponential huge exponential pos, powerDuration, if_neg (by omega)]
    unfold Waits Fits
    omega

/-- Every other policy waits five seconds. -/
theorem nextDelay_of_ne (other : policy.backoff ≠ BackoffExponential) (pos : 0 < n) :
    nextDelay huge policy n = baseDelay := by
  rw [nextDelay, if_neg pos.ne', if_neg other]
  exact ite_self _

theorem nextDelay_pos_iff (pos : 0 < n) : 0 < nextDelay huge policy n ↔
    policy.backoff ≠ BackoffExponential ∨ Waits huge n := by
  by_cases exponential : policy.backoff = BackoffExponential
  · rw [nextDelay_exponential_pos_iff huge exponential pos]
    simp only [exponential, ne_eq, not_true_eq_false, false_or]
  · rw [nextDelay_of_ne huge exponential pos]
    exact iff_of_true (by decide) (.inl exponential)

/-- Neither the least integer, which amd64 makes of a power too large, nor the greatest, which
arm64 does, leads to a wait. -/
theorem not_waits_of_platform {value : Int} (platform : value = minDuration ∨ value = maxDuration)
    (large : 55 < n) : ¬Waits (fun _ => value) n := by
  rintro ((small | ⟨left, -⟩) | ⟨-, waits⟩)
  · omega
  · omega
  · have least : ¬0 < wrap64 (minDuration * baseDelay) := by decide
    have greatest : ¬0 < wrap64 (maxDuration * baseDelay) := by decide
    rcases platform with rfl | rfl
    · exact least waits
    · exact greatest waits

end Exponential

end NextDelay

end Lazuli.Jobs
