import Mathlib.Algebra.Order.Group.Nat
import Mathlib.Data.List.TakeWhile
import Mathlib.Algebra.Group.Int.Defs
import Mathlib.Algebra.Group.Nat.Defs

/-!
Durations in nanoseconds, which are 64-bit integers.

Arithmetic on them wraps around. The difference of two instants saturates instead, at the
shortest and the longest duration.
-/

namespace Lazuli.General

def minDuration : Int := -(2 ^ 63)

def maxDuration : Int := 2 ^ 63 - 1

def wrap64 (n : Int) : Int := n.bmod (2 ^ 64)

def saturate64 (n : Int) : Int := max minDuration (min n maxDuration)

/-- Below the longest duration nothing is lost. -/
theorem le_of_saturate64_le {n d : Int} (h : saturate64 n ≤ d) (room : d < maxDuration) :
    n ≤ d := by
  unfold saturate64 minDuration maxDuration at *
  omega

theorem le_saturate64 {n : Int} (h : n ≤ maxDuration) : n ≤ saturate64 n := by
  unfold saturate64
  omega

theorem wrap64_of_nonneg {n : Int} (h : 0 ≤ n) (fits : n ≤ maxDuration) : wrap64 n = n := by
  unfold maxDuration at fits
  exact Int.bmod_eq_of_le (by omega) (by omega)

theorem wrap64_le (n : Int) : wrap64 n ≤ maxDuration := by
  have := Int.bmod_lt (x := n) (m := 2 ^ 64) (by decide)
  unfold wrap64 maxDuration
  omega

/-- Between the longest duration and the next power of two, durations are negative. -/
theorem wrap64_neg {n : Int} (large : maxDuration < n) (small : n < 2 ^ 64) : wrap64 n < 0 := by
  unfold maxDuration at large
  rw [wrap64, Int.bmod_eq_emod]
  split <;> omega

theorem wrap64_eq_zero_iff {n : Int} : wrap64 n = 0 ↔ 2 ^ 64 ∣ n :=
  Int.dvd_iff_bmod_eq_zero.symm

theorem dvd_wrap64 {d n : Int} (width : d ∣ 2 ^ 64) (h : d ∣ n) : d ∣ wrap64 n := by
  have multiple : 2 ^ 64 ∣ wrap64 n - n := Int.dvd_bmod_sub_self
  exact (Int.dvd_iff_dvd_of_dvd_sub (Int.dvd_trans width multiple)).mpr h

/-- The highest bit is the sign. -/
theorem wrap64_neg_iff (n : Nat) : wrap64 n < 0 ↔ n.testBit 63 = true := by
  rw [wrap64, Int.bmod_eq_emod, Nat.testBit_eq_decide_div_mod_eq, decide_eq_true_iff]
  split <;> omega

end Lazuli.General

/-!
`time.ParseDuration` of the Go library: an optional sign and a sequence of groups, each a decimal
number and a unit.

The sum is one of unsigned 64-bit integers. A text of one group without a fraction denotes its
number of its unit when a duration can hold it (`parse_single`). The part of a unit that a fraction
stands for is computed in floating point, and is a parameter here.
-/

namespace Lazuli.General.GoDuration

/-- The units in nanoseconds. The micro sign and the letter mu both stand for micro. -/
def unitMap : List (List Char × Nat) :=
  [(['n', 's'], 1), (['u', 's'], 1000), (['\u00b5', 's'], 1000), (['\u03bc', 's'], 1000),
    (['m', 's'], 1000000), (['s'], 1000000000), (['m'], 60 * 1000000000),
    (['h'], 3600 * 1000000000)]

/-- A character of a number. -/
def isNumeric (c : Char) : Bool := c = '.' || c.isDigit

/-- The digits of the fraction, if there is a point, and what follows it. -/
def leadingFraction : List Char → List Char × List Char
  | '.' :: s => (s.takeWhile Char.isDigit, s.dropWhile Char.isDigit)
  | s => ([], s)

variable (fraction : List Char → Nat → Nat)

/-- A fraction of zeros adds nothing. -/
def fractionPart (post : List Char) (unit : Nat) : Nat :=
  if post.all (· = '0') then 0 else fraction post unit

/-- The nanoseconds of the first group, and what follows it. -/
def group (s : List Char) : Option (Nat × List Char) :=
  let digits := s.takeWhile Char.isDigit
  let value := Nat.ofDigitChars 10 digits 0
  let (post, rest) := leadingFraction (s.dropWhile Char.isDigit)
  if 2 ^ 63 < value then none
  else if digits = [] ∧ post = [] then none
  else match unitMap.lookup (rest.takeWhile (!isNumeric ·)) with
    | none => none
    | some unit =>
        if 2 ^ 63 / unit < value then none
        else
          let v := value * unit + fractionPart fraction post unit
          if 2 ^ 63 < v then none else some (v, rest.dropWhile (!isNumeric ·))

theorem length_leadingFraction_le (s : List Char) : (leadingFraction s).2.length ≤ s.length := by
  unfold leadingFraction
  split
  case h_1 s =>
      have shorter := (List.dropWhile_suffix Char.isDigit (l := s)).length_le
      simp only [List.length_cons]
      omega
  case h_2 => exact le_rfl

/-- A group is not empty: it ends in a unit. -/
theorem length_group_lt {s rest : List Char} {v : Nat} (h : group fraction s = some (v, rest)) :
    rest.length < s.length := by
  simp only [group] at h
  split at h
  case isTrue => cases h
  split at h
  case isTrue => cases h
  split at h
  case h_1 => cases h
  case h_2 unit found =>
    split at h
    case isTrue => cases h
    split at h
    case isTrue => cases h
    obtain ⟨-, rfl⟩ := Prod.mk.inj (Option.some.inj h)
    have le : (leadingFraction (s.dropWhile Char.isDigit)).2.length ≤ s.length :=
      (length_leadingFraction_le _).trans (List.dropWhile_suffix Char.isDigit).length_le
    set tail := (leadingFraction (s.dropWhile Char.isDigit)).2
    have spelt : tail.takeWhile (!isNumeric ·) ≠ [] := by
      intro empty
      rw [empty] at found
      cases found
    have pieces := congrArg List.length
      (List.takeWhile_append_dropWhile (p := (!isNumeric ·)) (l := tail))
    have pos := List.length_pos_iff.mpr spelt
    rw [List.length_append] at pieces
    omega

/-- The loop over the groups, with the sum so far. -/
def sum (d : Nat) (s : List Char) : Option Nat :=
  if s = [] then some d
  else match h : group fraction s with
    | none => none
    | some (v, rest) =>
        let d := (d + v) % 2 ^ 64
        if 2 ^ 63 < d then none else sum d rest
termination_by s.length
decreasing_by exact length_group_lt fraction h

theorem sum_of_ne_nil (d : Nat) {s : List Char} (ne : s ≠ []) :
    sum fraction d s = (group fraction s).bind fun g =>
      if 2 ^ 63 < (d + g.1) % 2 ^ 64 then none else sum fraction ((d + g.1) % 2 ^ 64) g.2 := by
  rw [sum, if_neg ne]
  split
  case h_1 h => rw [h, Option.bind_none]
  case h_2 h => rw [h, Option.bind_some]

def unsigned (neg : Bool) (s : List Char) : Option Int :=
  if s = ['0'] then some 0
  else if s = [] then none
  else match sum fraction 0 s with
    | none => none
    | some d =>
        if neg then some (-d) else if 2 ^ 63 - 1 < d then none else some d

def parse : List Char → Option Int
  | '-' :: s => unsigned fraction true s
  | '+' :: s => unsigned fraction false s
  | s => unsigned fraction false s

/-! ### One group -/

section Single

variable {fraction} {digits unit : List Char} (ne : digits ≠ [])
  (all : digits.all Char.isDigit = true) (letters : ∀ c ∈ unit, isNumeric c = false)

include all letters in
/-- The number and the unit are told apart. -/
theorem pieces_append :
    (digits ++ unit).takeWhile Char.isDigit = digits ∧
      (digits ++ unit).dropWhile Char.isDigit = unit ∧ leadingFraction unit = ([], unit) ∧
      unit.takeWhile (!isNumeric ·) = unit ∧ unit.dropWhile (!isNumeric ·) = [] := by
  have each := List.all_eq_true.mp all
  have head : unit.takeWhile Char.isDigit = [] ∧ unit.dropWhile Char.isDigit = unit ∧
      leadingFraction unit = ([], unit) := by
    cases unit with
    | nil => exact ⟨rfl, rfl, rfl⟩
    | cons c unit =>
        have plain : c ≠ '.' ∧ c.isDigit = false := by
          simpa [isNumeric] using letters c List.mem_cons_self
        refine ⟨?_, ?_, ?_⟩
        · rw [List.takeWhile_cons_of_neg (by simp [plain.2])]
        · rw [List.dropWhile_cons_of_neg (by simp [plain.2])]
        · unfold leadingFraction
          split
          case h_1 same => exact absurd (List.cons.inj same).1 plain.1
          case h_2 => rfl
  refine ⟨?_, ?_, head.2.2, ?_, ?_⟩
  · rw [List.takeWhile_append_of_pos each, head.1, List.append_nil]
  · rw [List.dropWhile_append_of_pos each, head.2.1]
  · exact List.takeWhile_eq_self_iff.mpr fun c mem => by simp [letters c mem]
  · exact List.dropWhile_eq_nil_iff.mpr fun c mem => by simp [letters c mem]

theorem unitMap_pos {k : Nat} (h : unitMap.lookup unit = some k) : 0 < k := by
  obtain ⟨front, back, split, -⟩ := List.lookup_eq_some_iff.mp h
  have mem : (unit, k) ∈ unitMap := split ▸ List.mem_append_right front List.mem_cons_self
  simp only [unitMap, List.mem_cons, Prod.mk.injEq, List.not_mem_nil, or_false] at mem
  omega

include ne all letters in
theorem group_single : group fraction (digits ++ unit) =
    (unitMap.lookup unit).bind fun k =>
      if Nat.ofDigitChars 10 digits 0 * k ≤ 2 ^ 63 then
        some (Nat.ofDigitChars 10 digits 0 * k, []) else none := by
  obtain ⟨front, back, noFraction, name, nothing⟩ := pieces_append all letters
  simp only [group, front, back, noFraction, name, nothing, ne, false_and, if_false,
    fractionPart, List.all_nil, if_true, Nat.add_zero]
  cases named : unitMap.lookup unit with
  | none => simp
  | some k =>
      have pos := unitMap_pos named
      have larger : Nat.ofDigitChars 10 digits 0 ≤ Nat.ofDigitChars 10 digits 0 * k :=
        Nat.le_mul_of_pos_right _ pos
      simp only [Option.bind_some]
      by_cases fits : Nat.ofDigitChars 10 digits 0 * k ≤ 2 ^ 63
      · have quotient : Nat.ofDigitChars 10 digits 0 ≤ 2 ^ 63 / k :=
          (Nat.le_div_iff_mul_le pos).mpr fits
        rw [if_neg (by omega), if_neg (by omega), if_neg (by omega), if_pos fits]
      · have quotient : ¬ Nat.ofDigitChars 10 digits 0 ≤ 2 ^ 63 / k :=
          fun le => fits ((Nat.le_div_iff_mul_le pos).mp le)
        rw [if_pos (show 2 ^ 63 / k < Nat.ofDigitChars 10 digits 0 by omega), if_neg fits, ite_self]

include ne all letters in
/-- One group denotes its number of its unit, if that is a duration. -/
theorem parse_single : parse fraction (digits ++ unit) =
    if digits ++ unit = ['0'] then some 0
    else match unitMap.lookup unit with
      | none => none
      | some k =>
          if (Nat.ofDigitChars 10 digits 0 : Int) * k ≤ maxDuration then
            some ((Nat.ofDigitChars 10 digits 0 : Int) * k)
          else none := by
  have unsign : parse fraction (digits ++ unit) = unsigned fraction false (digits ++ unit) := by
    cases digits with
    | nil => exact absurd rfl ne
    | cons c digits =>
        have digit : c.isDigit = true := List.all_eq_true.mp all c List.mem_cons_self
        rw [List.cons_append]
        unfold parse
        split
        case h_1 same =>
          cases same
          cases digit
        case h_2 same =>
          cases same
          cases digit
        case h_3 => rfl
  have nonempty : digits ++ unit ≠ [] := List.append_ne_nil_of_left_ne_nil ne unit
  rw [unsign, unsigned]
  rw [if_neg nonempty, sum_of_ne_nil fraction 0 nonempty, group_single ne all letters]
  split
  case isTrue => rfl
  cases named : unitMap.lookup unit with
  | none => rfl
  | some k =>
      simp only [Option.bind_some]
      by_cases half : Nat.ofDigitChars 10 digits 0 * k ≤ 2 ^ 63
      · have small : (0 + Nat.ofDigitChars 10 digits 0 * k) % 2 ^ 64 =
            Nat.ofDigitChars 10 digits 0 * k := by omega
        rw [if_pos half, Option.bind_some, small, if_neg (by omega), sum, if_pos rfl]
        unfold maxDuration
        by_cases fits : Nat.ofDigitChars 10 digits 0 * k ≤ 2 ^ 63 - 1
        · simp only [Bool.false_eq_true, if_false]
          rw [if_neg (by omega), if_pos (by omega), Int.natCast_mul]
        · simp only [Bool.false_eq_true, if_false]
          rw [if_pos (by omega), if_neg (by omega)]
      · unfold maxDuration
        simp only [if_neg half, Option.bind_none]
        rw [if_neg (by omega)]

end Single

end Lazuli.General.GoDuration
