import Mathlib.Tactic.Positivity
import Lazuli.General.GoDuration
import Lazuli.Runtime.Strings

/-!
The duration literals of sessions and notification throttles (`runtime/go/lazuli/auth/session.go`,
`runtime/go/lazuli/notifications/throttle_store.go`).

Both are read as a number and a unit (`Reads`), a session's also as a Go duration. `SessionExact`
and `ThrottleExact` say what the parsers are for: no other text is accepted, the value is the number
of the unit, and a value that a duration cannot hold is refused. The product is one of 64-bit
integers, and only the number is bounded before it (`parseSessionNumberUnit_eq_some_iff`,
`throttleDuration_eq_some_iff`). `exact_iff` names the texts on which both parsers are exact.
-/

namespace Lazuli.Runtime.DurationLiterals

open Lazuli.General Lazuli.Runtime.Strings

def millisecond : Int := 1000000

def second : Int := 1000000000

def minute : Int := 60 * second

def hour : Int := 60 * minute

/-- A case of the switch over the unit: its names, and what the number is multiplied with. -/
structure Unit where
  names : List String
  factors : List Int
  deriving DecidableEq

/-- The number of the unit, as the product of 64-bit integers. -/
def Unit.times (u : Unit) (n : Int) : Int := u.factors.foldl (fun d k => wrap64 (d * k)) n

def Unit.nanoseconds (u : Unit) : Int := u.factors.prod

/-- The case of a unit's name. -/
def switch (units : List Unit) (word : List Char) : Option Unit :=
  units.find? (String.ofList word ∈ ·.names)

/-- `unicode.ToLower`: in ASCII it lowers the capital letters. White space has no case, and the
letters of micro are lower-case. -/
structure LowerCase where
  toLower : Char → Char
  ascii : ∀ c, c.val < 128 → toLower c = c.toLower
  space : ∀ c, isSpace c = true → toLower c = c
  micro : ∀ c ∈ ['\u00b5', '\u03bc'], toLower c = c

/-! ### Sessions -/

def sessionUnits : List Unit :=
  [⟨["ms", "millisecond", "milliseconds"], [millisecond]⟩,
    ⟨["s", "sec", "secs", "second", "seconds"], [second]⟩,
    ⟨["m", "min", "mins", "minute", "minutes"], [minute]⟩,
    ⟨["h", "hr", "hrs", "hour", "hours"], [hour]⟩,
    ⟨["d", "day", "days"], [24, hour]⟩,
    ⟨["w", "week", "weeks"], [7, 24, hour]⟩]

section Session

variable (lower : LowerCase) (fraction : List Char → Nat → Nat)

def sessionUnit (unit : List Char) : Option Unit :=
  switch sessionUnits ((trimSpace unit).map lower.toLower)

def parseSessionNumberAndUnit (n unit : List Char) : Option Int :=
  match atoi n with
  | none => none
  | some value => if value ≤ 0 then none else (sessionUnit lower unit).map (·.times value)

/-- The unit starts at the first character that is no digit. -/
def parseSessionNumberUnit (compact : List Char) : Option Int :=
  let unit := compact.dropWhile Char.isDigit
  let n := compact.takeWhile Char.isDigit
  if unit = [] ∨ n = [] then none else parseSessionNumberAndUnit lower n unit

/-- A Go duration, or the text without its blanks, or two words. -/
def parseSessionDuration (raw : List Char) : Option Int :=
  let trimmed := trimSpace raw
  if trimmed = [] then none
  else match GoDuration.parse fraction trimmed with
    | some d => some d
    | none =>
        match parseSessionNumberUnit lower (trimmed.filter (· ≠ ' ')) with
        | some d => some d
        | none =>
            match fields trimmed with
            | [n, unit] => parseSessionNumberAndUnit lower n unit
            | _ => none

/-- What a contract gives as a lifetime. -/
inductive RawTTL where
  | duration (d : Int)
  | text (s : List Char)
  | other
  deriving DecidableEq

def sessionTTL : RawTTL → Int
  | .duration d => if 0 < d then d else 24 * hour
  | .text s =>
      match parseSessionDuration lower fraction s with
      | some d => if 0 < d then d else 24 * hour
      | none => 24 * hour
  | .other => 24 * hour

end Session

/-! ### Throttles -/

def throttleUnits : List Unit :=
  [⟨["s", "sec", "secs", "second", "seconds"], [second]⟩,
    ⟨["m", "min", "mins", "minute", "minutes"], [minute]⟩,
    ⟨["h", "hr", "hrs", "hour", "hours"], [hour]⟩,
    ⟨["d", "day", "days"], [24, hour]⟩]

def throttleUnit (unit : List Char) : Option Unit :=
  switch throttleUnits (unit.dropWhile (· = ' '))

def throttleTrim : List Char → List Char := trimFunc (· ∈ [' ', '\t'])

/-- The digits as a 64-bit integer. -/
def digitsValue (num : List Char) : Int :=
  num.foldl (fun n ch => wrap64 (n * 10 + (ch.toNat - '0'.toNat : Nat))) 0

/-- `parseDuration` of the throttle store. -/
def throttleDuration (raw : List Char) : Option Int :=
  let trimmed := throttleTrim raw
  let num := trimmed.takeWhile Char.isDigit
  if num = [] then none
  else (throttleUnit (trimmed.dropWhile Char.isDigit)).map (·.times (digitsValue num))

/-! ### What the parsers are for -/

/-- The text is the number `n` and a unit. -/
def Reads (unitOf : List Char → Option Unit) (s : List Char) (n : Nat) (u : Unit) : Prop :=
  ∃ digits unit, s = digits ++ unit ∧ digits ≠ [] ∧ digits.all Char.isDigit = true ∧
    unitOf unit = some u ∧ Nat.ofDigitChars 10 digits 0 = n

/-- The value of a positive number and a unit, if it is a duration. -/
def Spells (unitOf : List Char → Option Unit) (s : List Char) (v : Int) : Prop :=
  ∃ n u, Reads unitOf s n u ∧ 0 < n ∧ n * u.nanoseconds ≤ maxDuration ∧ v = n * u.nanoseconds

section Exact

variable (lower : LowerCase) (fraction : List Char → Nat → Nat) (raw : List Char)

def SessionExact : Prop :=
  ∀ v, parseSessionDuration lower fraction raw = some v ↔
    GoDuration.parse fraction (trimSpace raw) = some v ∨
      Spells (sessionUnit lower) (trimSpace raw) v

def ThrottleExact : Prop :=
  ∀ v, throttleDuration raw = some v ↔ Spells throttleUnit (throttleTrim raw) v

end Exact

/-! ### Numbers and units -/

section Units

variable {u : Unit} {units : List Unit} {word s : List Char} {n : Nat}

theorem wrap64_wrap64_mul (a b : Int) : wrap64 (wrap64 a * b) = wrap64 (a * b) :=
  Int.bmod_mul_bmod

/-- The products wrap around together. -/
theorem Unit.times_wrap64 (u : Unit) (n : Int) :
    u.times (wrap64 n) = wrap64 (n * u.nanoseconds) := by
  unfold Unit.times Unit.nanoseconds
  induction u.factors generalizing n with
  | nil => simp
  | cons k factors ih =>
      rw [List.foldl_cons, List.prod_cons, wrap64_wrap64_mul, ih, mul_assoc]

theorem wrap64_mul_ten_add (a b : Int) :
    wrap64 (wrap64 a * 10 + b) = wrap64 (10 * a + b) := by
  unfold wrap64
  rw [← Int.bmod_add_bmod, Int.bmod_mul_bmod, Int.bmod_add_bmod, mul_comm]

theorem digitsValue_eq (num : List Char) :
    digitsValue num = wrap64 (Nat.ofDigitChars 10 num 0 : Nat) := by
  have run : ∀ n : Nat, num.foldl (fun n ch => wrap64 (n * 10 + (ch.toNat - '0'.toNat : Nat)))
      (wrap64 n) = wrap64 (Nat.ofDigitChars 10 num n : Nat) := by
    induction num with
    | nil =>
        intro n
        rw [List.foldl_nil, Nat.ofDigitChars_nil]
    | cons ch num ih =>
        intro n
        rw [List.foldl_cons, Nat.ofDigitChars_cons, ← ih, wrap64_mul_ten_add]
        norm_cast
  have zero : wrap64 (0 : Nat) = 0 := wrap64_eq_zero_iff.mpr (Int.dvd_zero _)
  rw [← run 0, zero, digitsValue]

theorem mem_switch (h : switch units word = some u) :
    u ∈ units ∧ String.ofList word ∈ u.names :=
  ⟨List.mem_of_find?_eq_some h, by simpa using List.find?_some h⟩

theorem units_pos : ∀ u ∈ sessionUnits ++ throttleUnits, 0 < u.nanoseconds := by
  simp [sessionUnits, throttleUnits, Unit.nanoseconds, hour, minute, second, millisecond]

theorem units_letters : ∀ u ∈ sessionUnits ++ throttleUnits, ∀ name ∈ u.names,
    ∀ c ∈ name.toList, 'a' ≤ c ∧ c ≤ 'z' := by
  have all : (sessionUnits ++ throttleUnits).all (·.names.all fun name =>
      name.toList.all fun c => 'a' ≤ c && c ≤ 'z') = true := by rfl
  simpa only [List.all_eq_true, Bool.and_eq_true, decide_eq_true_eq] using all

/-- A unit's name is a word of lower-case letters. -/
theorem letter_of_switch (known : units ⊆ sessionUnits ++ throttleUnits)
    (h : switch units word = some u) {c : Char} (mem : c ∈ word) : 'a' ≤ c ∧ c ≤ 'z' := by
  obtain ⟨case, name⟩ := mem_switch h
  exact units_letters u (known case) _ name c (by rwa [String.toList_ofList])

theorem toNat_of_isNumeric {c : Char} (h : GoDuration.isNumeric c = true) :
    46 ≤ c.val.toNat ∧ c.val.toNat ≤ 57 := by
  simp only [GoDuration.isNumeric, Char.isDigit, Bool.or_eq_true, Bool.and_eq_true,
    decide_eq_true_eq, ge_iff_le, UInt32.le_iff_toNat_le] at h
  rcases h with rfl | ⟨low, high⟩
  · decide
  · have low : 48 ≤ c.val.toNat := low
    have high : c.val.toNat ≤ 57 := high
    omega

theorem not_letter_of_isNumeric {c : Char} (h : GoDuration.isNumeric c = true) :
    ¬ ('a' ≤ c ∧ c ≤ 'z') := by
  rintro ⟨low, -⟩
  have low : 97 ≤ c.val.toNat := UInt32.le_iff_toNat_le.mp low
  have := toNat_of_isNumeric h
  omega

theorem toNat_of_isSpace {c : Char} (h : isSpace c = true) :
    c.val.toNat ≤ 32 ∨ 133 ≤ c.val.toNat := by
  simp only [isSpace, Bool.or_eq_true, Bool.and_eq_true, decide_eq_true_eq, List.mem_cons,
    List.not_mem_nil, or_false] at h
  rcases h with h | ⟨low, -⟩
  · rcases h with rfl | rfl | rfl | rfl | rfl | rfl | rfl | rfl | rfl | rfl | rfl | rfl | rfl |
      rfl <;> decide
  · have low : 8192 ≤ c.val.toNat := UInt32.le_iff_toNat_le.mp low
    omega

theorem not_letter_of_isSpace {c : Char} (h : isSpace c = true) : ¬ ('a' ≤ c ∧ c ≤ 'z') := by
  rintro ⟨low, high⟩
  have low : 97 ≤ c.val.toNat := UInt32.le_iff_toNat_le.mp low
  have high : c.val.toNat ≤ 122 := UInt32.le_iff_toNat_le.mp high
  have := toNat_of_isSpace h
  omega

theorem not_isSpace_of_isNumeric {c : Char} (h : GoDuration.isNumeric c = true) :
    isSpace c = false := by
  by_contra space
  have := toNat_of_isSpace (Bool.not_eq_false _ ▸ space)
  have := toNat_of_isNumeric h
  omega

theorem isNumeric_of_isDigit {c : Char} (h : c.isDigit = true) : GoDuration.isNumeric c = true := by
  simp [GoDuration.isNumeric, h]

/-- Only the capital letters change. -/
theorem toLower_eq_self {c : Char} (h : c.val.toNat < 65 ∨ 90 < c.val.toNat) : c.toLower = c := by
  refine dif_neg ?_
  rintro ⟨low, high⟩
  have low : 65 ≤ c.val.toNat := UInt32.le_iff_toNat_le.mp low
  have high : c.val.toNat ≤ 90 := UInt32.le_iff_toNat_le.mp high
  omega

theorem LowerCase.toLower_of_isNumeric (lower : LowerCase) {c : Char}
    (h : GoDuration.isNumeric c = true) : lower.toLower c = c := by
  obtain ⟨-, small⟩ := toNat_of_isNumeric h
  rw [lower.ascii c (UInt32.lt_iff_toNat_lt.mpr (Nat.lt_of_le_of_lt small (by decide))),
    toLower_eq_self (by omega)]

/-- The unit of a session's literal has no digit, no point and no white space inside. -/
theorem plain_of_sessionUnit {lower : LowerCase} (h : sessionUnit lower word = some u) {c : Char}
    (mem : c ∈ trimSpace word) : GoDuration.isNumeric c = false ∧ isSpace c = false := by
  have letter : 'a' ≤ lower.toLower c ∧ lower.toLower c ≤ 'z' :=
    letter_of_switch (List.subset_append_left _ _) h (List.mem_map_of_mem mem)
  constructor
  · by_contra numeric
    rw [Bool.not_eq_false] at numeric
    rw [lower.toLower_of_isNumeric numeric] at letter
    exact not_letter_of_isNumeric numeric letter
  · by_contra space
    rw [Bool.not_eq_false] at space
    rw [lower.space c space] at letter
    exact not_letter_of_isSpace space letter

/-- No unit starts with a digit. -/
def Unmixed (unitOf : List Char → Option Unit) : Prop :=
  unitOf [] = none ∧ ∀ c s, c.isDigit = true → unitOf (c :: s) = none

theorem sessionUnit_unmixed (lower : LowerCase) : Unmixed (sessionUnit lower) := by
  refine ⟨rfl, fun c s digit => ?_⟩
  by_contra some
  obtain ⟨u, h⟩ := Option.ne_none_iff_exists'.mp some
  have first : c ∈ trimSpace (c :: s) :=
    mem_trimFunc List.mem_cons_self (not_isSpace_of_isNumeric (isNumeric_of_isDigit digit))
  have plain := (plain_of_sessionUnit h first).1
  rw [isNumeric_of_isDigit digit] at plain
  cases plain

theorem throttleUnit_unmixed : Unmixed throttleUnit := by
  refine ⟨rfl, fun c s digit => ?_⟩
  by_contra some
  obtain ⟨u, h⟩ := Option.ne_none_iff_exists'.mp some
  have first : c ∈ (c :: s).dropWhile (· = ' ') := by
    rw [List.dropWhile_cons_of_neg (by rintro same; simp at same; subst same; cases digit)]
    exact List.mem_cons_self
  exact not_letter_of_isNumeric (isNumeric_of_isDigit digit)
    (letter_of_switch (List.subset_append_right _ _) h first)

theorem reads_iff {unitOf : List Char → Option Unit} (unmixed : Unmixed unitOf) :
    Reads unitOf s n u ↔ s.takeWhile Char.isDigit ≠ [] ∧
      unitOf (s.dropWhile Char.isDigit) = some u ∧
      Nat.ofDigitChars 10 (s.takeWhile Char.isDigit) 0 = n := by
  constructor
  · rintro ⟨digits, unit, rfl, ne, all, named, rfl⟩
    have each := List.all_eq_true.mp all
    have head : unit.takeWhile Char.isDigit = [] ∧ unit.dropWhile Char.isDigit = unit := by
      cases unit with
      | nil => exact ⟨rfl, rfl⟩
      | cons c unit =>
          have letter : ¬ c.isDigit = true := fun digit => by
            rw [unmixed.2 c unit digit] at named
            cases named
          exact ⟨List.takeWhile_cons_of_neg letter, List.dropWhile_cons_of_neg letter⟩
    rw [List.takeWhile_append_of_pos each, List.dropWhile_append_of_pos each, head.1, head.2,
      List.append_nil]
    exact ⟨ne, named, rfl⟩
  · rintro ⟨ne, named, rfl⟩
    exact ⟨_, _, List.takeWhile_append_dropWhile.symm, ne, List.all_takeWhile, named, rfl⟩

theorem Reads.unique {unitOf : List Char → Option Unit} (unmixed : Unmixed unitOf) {n' : Nat}
    {u' : Unit} (h : Reads unitOf s n u) (h' : Reads unitOf s n' u') : n = n' ∧ u = u' := by
  rw [reads_iff unmixed] at h h'
  exact ⟨h.2.2.symm.trans h'.2.2, Option.some.inj (h.2.1.symm.trans h'.2.1)⟩

end Units

/-! ### What the parsers accept -/

section Parsers

variable {lower : LowerCase} {s num unit raw : List Char} {v : Int}

theorem parseSessionNumberAndUnit_eq_some_iff :
    parseSessionNumberAndUnit lower num unit = some v ↔
      ∃ n : Nat, ∃ u, Numeral num n ∧ sessionUnit lower unit = some u ∧ 0 < n ∧
        n ≤ maxDuration ∧ v = wrap64 (n * u.nanoseconds) := by
  have product {n : Nat} (u : Unit) (fits : n ≤ maxDuration) :
      u.times n = wrap64 (n * u.nanoseconds) := by
    rw [← u.times_wrap64, wrap64_of_nonneg (by omega) fits]
  constructor
  · intro h
    unfold parseSessionNumberAndUnit at h
    split at h
    case h_1 => cases h
    case h_2 value read =>
      split at h
      case isTrue => cases h
      case isFalse pos =>
        obtain ⟨u, named, rfl⟩ := Option.map_eq_some_iff.mp h
        obtain ⟨n, numeral, rfl, fits⟩ := numeral_of_atoi read (by omega)
        exact ⟨n, u, numeral, named, by omega, fits, product u fits⟩
  · rintro ⟨n, u, numeral, named, pos, fits, rfl⟩
    rw [parseSessionNumberAndUnit, atoi_numeral numeral, if_pos fits]
    simp only
    rw [if_neg (by omega), named, Option.map_some, product u fits]

/-- The number is one of 64 bits, and the product wraps around. -/
theorem parseSessionNumberUnit_eq_some_iff :
    parseSessionNumberUnit lower s = some v ↔
      ∃ n u, Reads (sessionUnit lower) s n u ∧ 0 < n ∧ n ≤ maxDuration ∧
        v = wrap64 (n * u.nanoseconds) := by
  simp only [reads_iff (sessionUnit_unmixed lower)]
  have numeral (ne : s.takeWhile Char.isDigit ≠ []) :
      Numeral (s.takeWhile Char.isDigit) (Nat.ofDigitChars 10 (s.takeWhile Char.isDigit) 0) :=
    ⟨_, .inl rfl, ne, List.all_takeWhile, rfl⟩
  simp only [parseSessionNumberUnit]
  constructor
  · intro h
    split at h
    case isTrue => cases h
    case isFalse both =>
      obtain ⟨n, u, number, named, pos, fits, value⟩ :=
        parseSessionNumberAndUnit_eq_some_iff.mp h
      have ne : s.takeWhile Char.isDigit ≠ [] := fun empty => both (.inr empty)
      exact ⟨n, u, ⟨ne, named, (numeral ne).unique number⟩, pos, fits, value⟩
  · rintro ⟨n, u, ⟨ne, named, rfl⟩, pos, fits, value⟩
    have spelt : s.dropWhile Char.isDigit ≠ [] := by
      intro empty
      rw [empty, (sessionUnit_unmixed lower).1] at named
      cases named
    rw [if_neg (by simp [ne, spelt])]
    exact parseSessionNumberAndUnit_eq_some_iff.mpr
      ⟨_, u, numeral ne, named, pos, fits, value⟩

/-- Nothing is asked of the number, and the product wraps around. -/
theorem throttleDuration_eq_some_iff :
    throttleDuration raw = some v ↔
      ∃ n u, Reads throttleUnit (throttleTrim raw) n u ∧ v = wrap64 (n * u.nanoseconds) := by
  simp only [reads_iff throttleUnit_unmixed, throttleDuration]
  constructor
  · intro h
    split at h
    case isTrue => cases h
    case isFalse ne =>
      obtain ⟨u, named, rfl⟩ := Option.map_eq_some_iff.mp h
      exact ⟨_, u, ⟨ne, named, rfl⟩, by rw [digitsValue_eq, u.times_wrap64]⟩
  · rintro ⟨n, u, ⟨ne, named, rfl⟩, rfl⟩
    rw [if_neg ne, named, Option.map_some, digitsValue_eq, u.times_wrap64]

end Parsers

/-! ### Where the parsers are exact -/

/-- Throttle literals have a positive number, and a value that is a duration. -/
def ThrottleInRange (raw : List Char) : Prop :=
  ∀ n u, Reads throttleUnit (throttleTrim raw) n u → 0 < n ∧ n * u.nanoseconds ≤ maxDuration

/-- Two words, a number with a plus sign and a unit. -/
def SignedWords (lower : LowerCase) (s : List Char) : Prop :=
  ∃ digits unit, fields s = ['+' :: digits, unit] ∧ ∃ n u, Numeral ('+' :: digits) n ∧
    sessionUnit lower unit = some u ∧ 0 < n ∧ n ≤ maxDuration

/-- The text is a Go duration, or it has no plus sign of its own, and what is read without its
blanks is read with them and has a value that is a duration. -/
def SessionInRange (lower : LowerCase) (fraction : List Char → Nat → Nat) (raw : List Char) :
    Prop :=
  (GoDuration.parse fraction (trimSpace raw)).isSome ∨
    ¬ SignedWords lower (trimSpace raw) ∧
      ∀ n u, Reads (sessionUnit lower) ((trimSpace raw).filter (· ≠ ' ')) n u → 0 < n →
        n ≤ maxDuration →
          Reads (sessionUnit lower) (trimSpace raw) n u ∧ n * u.nanoseconds ≤ maxDuration

section Exactness

variable {lower : LowerCase} {fraction : List Char → Nat → Nat} {raw s unit : List Char}
  {n : Nat} {u : Unit}

theorem nanoseconds_pos {units : List Unit} {word : List Char}
    (known : units ⊆ sessionUnits ++ throttleUnits) (h : switch units word = some u) :
    0 < u.nanoseconds :=
  units_pos u (known (mem_switch h).1)

theorem Reads.nanoseconds_pos (h : Reads (sessionUnit lower) s n u) : 0 < u.nanoseconds := by
  obtain ⟨-, unit, -, -, -, named, -⟩ := h
  exact DurationLiterals.nanoseconds_pos (List.subset_append_left _ _) named

theorem le_mul_nanoseconds (pos : 0 < u.nanoseconds) : (n : Int) ≤ n * u.nanoseconds :=
  le_mul_of_one_le_right (by omega) pos

theorem throttleExact_iff : ThrottleExact raw ↔ ThrottleInRange raw := by
  constructor
  · intro exact n u reads
    obtain ⟨n', u', reads', pos, fits, -⟩ :=
      (exact _).mp (throttleDuration_eq_some_iff.mpr ⟨n, u, reads, rfl⟩)
    obtain ⟨rfl, rfl⟩ := reads.unique throttleUnit_unmixed reads'
    exact ⟨pos, fits⟩
  · intro inRange v
    rw [throttleDuration_eq_some_iff]
    refine exists_congr fun n => exists_congr fun u => and_congr_right fun reads => ?_
    obtain ⟨pos, fits⟩ := inRange n u reads
    obtain ⟨-, unit, -, -, -, named, -⟩ := reads
    have := nanoseconds_pos (List.subset_append_right _ _) named
    have nonneg : 0 ≤ (n : Int) * u.nanoseconds := by positivity
    rw [wrap64_of_nonneg nonneg fits]
    exact ⟨fun value => ⟨pos, fits, value⟩, fun h => h.2.2⟩

/-- The blanks between the number and the unit do not matter. -/
theorem Reads.compact (h : Reads (sessionUnit lower) s n u) :
    Reads (sessionUnit lower) (s.filter (· ≠ ' ')) n u := by
  obtain ⟨digits, unit, rfl, ne, all, named, rfl⟩ := h
  have same : digits.filter (· ≠ ' ') = digits := by
    refine List.filter_eq_self.mpr fun c mem => ?_
    have digit := List.all_eq_true.mp all c mem
    rw [decide_eq_true_iff]
    rintro rfl
    cases digit
  have trimmed : trimSpace (unit.filter (· ≠ ' ')) = trimSpace unit := by
    obtain ⟨a, b, split, front, back⟩ := trimFunc_decomposition isSpace unit
    have plain : ∀ c ∈ trimFunc isSpace unit, isSpace c = false :=
      fun c mem => (plain_of_sessionUnit named mem).2
    have word : (trimFunc isSpace unit).filter (· ≠ ' ') = trimFunc isSpace unit := by
      refine List.filter_eq_self.mpr fun c mem => ?_
      rw [decide_eq_true_iff]
      rintro rfl
      cases plain _ mem
    conv_lhs => rw [split]
    rw [List.filter_append, List.filter_append, word]
    exact trimFunc_append (fun c mem => front c (List.mem_filter.mp mem).1) plain
      fun c mem => back c (List.mem_filter.mp mem).1
  refine ⟨digits, unit.filter (· ≠ ' '), by rw [List.filter_append, same], ne, all, ?_, rfl⟩
  rw [sessionUnit, trimmed]
  exact named

/-- No part of the unit belongs to a number. -/
theorem letters_of_sessionUnit (named : sessionUnit lower unit = some u) :
    ∀ c ∈ unit, GoDuration.isNumeric c = false := by
  obtain ⟨a, b, split, front, back⟩ := trimFunc_decomposition isSpace unit
  have spaces : ∀ c, isSpace c = true → GoDuration.isNumeric c = false := by
    intro c space
    by_contra numeric
    rw [not_isSpace_of_isNumeric (Bool.not_eq_false _ ▸ numeric)] at space
    cases space
  intro c mem
  rw [split, List.mem_append, List.mem_append] at mem
  rcases mem with mem | mem | mem
  · exact spaces c (front c mem)
  · exact (plain_of_sessionUnit named mem).1
  · exact spaces c (back c mem)

/-- The units of Go durations are lower-case words. -/
theorem map_toLower_of_goUnit (lower : LowerCase) {word : List Char} {k : Nat}
    (mem : (word, k) ∈ GoDuration.unitMap) : word.map lower.toLower = word := by
  have known : ∀ g ∈ GoDuration.unitMap, ∀ c ∈ g.1,
      c ∈ ['\u00b5', '\u03bc'] ∨ c.val < 128 ∧ c.toLower = c := by
    simp [GoDuration.unitMap]
  have fixed : ∀ c ∈ word, lower.toLower c = c := by
    intro c letter
    rcases known _ mem c letter with micro | ⟨ascii, low⟩
    · exact lower.micro c micro
    · rw [lower.ascii c ascii, low]
  exact (List.map_congr_left fixed).trans (List.map_id _)

theorem goUnits_agree : ∀ g ∈ GoDuration.unitMap, trimSpace g.1 = g.1 ∧
    ∀ u ∈ sessionUnits, String.ofList g.1 ∈ u.names → u.nanoseconds = g.2 := by
  decide

/-- A Go duration that is a number and a unit is that number of the unit. -/
theorem value_of_goDuration (h : Reads (sessionUnit lower) s n u) {d : Int}
    (go : GoDuration.parse fraction s = some d) :
    n * u.nanoseconds ≤ maxDuration ∧ d = n * u.nanoseconds := by
  obtain ⟨digits, unit, rfl, ne, all, named, rfl⟩ := h
  have spelt : digits ++ unit ≠ ['0'] := by
    intro zero
    have long := congrArg List.length zero
    have some : unit ≠ [] := by
      rintro rfl
      cases named
    have := List.length_pos_iff.mpr ne
    have := List.length_pos_iff.mpr some
    rw [List.length_append, List.length_singleton] at long
    omega
  rw [GoDuration.parse_single ne all (letters_of_sessionUnit named), if_neg spelt] at go
  split at go
  case h_1 => cases go
  case h_2 k found =>
    obtain ⟨front, back, split, -⟩ := List.lookup_eq_some_iff.mp found
    have mem : (unit, k) ∈ GoDuration.unitMap :=
      split ▸ List.mem_append_right front List.mem_cons_self
    obtain ⟨trimmed, agree⟩ := goUnits_agree _ mem
    rw [sessionUnit, trimmed, map_toLower_of_goUnit lower mem] at named
    rw [agree u (mem_switch named).1 (mem_switch named).2]
    obtain ⟨fits, value⟩ := Option.ite_none_right_eq_some.mp go
    exact ⟨fits, (Option.some.inj value).symm⟩

/-- Two words are the number and the unit of the text. -/
theorem append_of_words {num : List Char} (words : fields (trimSpace raw) = [num, unit]) :
    ∃ rest, trimSpace raw = num ++ rest ∧ trimSpace rest = trimSpace unit := by
  obtain ⟨gap, rest, split, spaces, -, others⟩ := fields_eq_cons words
  obtain ⟨gap', rest', rfl, spaces', plain, nothing⟩ := fields_eq_cons others
  have first : gap = [] := by
    cases gap with
    | nil => rfl
    | cons c gap =>
        have kept := head_trimFunc (p := isSpace) (s := raw) c (by
          rw [← trimSpace, split]
          rfl)
        rw [spaces c List.mem_cons_self] at kept
        cases kept
  refine ⟨_, by rw [split, first, List.nil_append], ?_⟩
  have alone : trimSpace unit = unit := by
    have := trimFunc_append (p := isSpace) (a := []) (b := []) (by simp) plain (by simp)
    rwa [List.nil_append, List.append_nil] at this
  rw [alone]
  exact trimFunc_append spaces' plain (isSpace_of_fields_eq_nil nothing)

theorem parseSessionDuration_of_go {d : Int}
    (go : GoDuration.parse fraction (trimSpace raw) = some d) :
    parseSessionDuration lower fraction raw = some d := by
  have ne : trimSpace raw ≠ [] := by
    intro empty
    rw [empty] at go
    cases go
  simp only [parseSessionDuration, if_neg ne, go]

theorem parseSessionDuration_of_not_go (go : GoDuration.parse fraction (trimSpace raw) = none)
    {v : Int} : parseSessionDuration lower fraction raw = some v ↔
      parseSessionNumberUnit lower ((trimSpace raw).filter (· ≠ ' ')) = some v ∨
        parseSessionNumberUnit lower ((trimSpace raw).filter (· ≠ ' ')) = none ∧
          ∃ num unit, fields (trimSpace raw) = [num, unit] ∧
            parseSessionNumberAndUnit lower num unit = some v := by
  by_cases empty : trimSpace raw = []
  · have none : parseSessionDuration lower fraction raw = none := by
      rw [parseSessionDuration, if_pos empty]
    rw [none, empty]
    refine iff_of_false (by simp) ?_
    rintro (h | ⟨-, num, unit, words, -⟩)
    · cases h
    · cases words
  · simp only [parseSessionDuration, if_neg empty, go]
    cases parseSessionNumberUnit lower ((trimSpace raw).filter (· ≠ ' ')) with
    | some d => simp
    | none =>
        simp only [reduceCtorEq, true_and, false_or]
        constructor
        · intro h
          split at h
          case h_1 num unit words => exact ⟨num, unit, words, h⟩
          case h_2 => cases h
        · rintro ⟨num, unit, words, h⟩
          simp only [words, h]

theorem Reads.isDigit_head {unitOf : List Char → Option Unit} {c : Char}
    (h : Reads unitOf (c :: s) n u) : c.isDigit = true := by
  obtain ⟨digits, unit, split, ne, all, -, -⟩ := h
  cases digits with
  | nil => exact absurd rfl ne
  | cons d digits =>
      obtain ⟨rfl, -⟩ := List.cons.inj split
      exact List.all_eq_true.mp all _ List.mem_cons_self

/-- Two words without a plus sign are a number and a unit. -/
theorem reads_of_words {num : List Char} (words : fields (trimSpace raw) = [num, unit])
    (numeral : Numeral num n) (named : sessionUnit lower unit = some u)
    (unsigned : ∀ digits, num ≠ '+' :: digits) :
    Reads (sessionUnit lower) (trimSpace raw) n u := by
  obtain ⟨rest, split, same⟩ := append_of_words words
  obtain ⟨digits, rfl | plus, ne, all, value⟩ := numeral
  · exact ⟨num, rest, split, ne, all, by rw [sessionUnit, same]; exact named, value⟩
  · exact absurd plus (unsigned digits)

theorem sessionExact_iff :
    SessionExact lower fraction raw ↔ SessionInRange lower fraction raw := by
  unfold SessionExact SessionInRange
  cases go : GoDuration.parse fraction (trimSpace raw) with
  | some d =>
      refine iff_of_true (fun v => ?_) (.inl rfl)
      rw [parseSessionDuration_of_go go]
      constructor
      · exact .inl
      · rintro (value | ⟨n, u, reads, -, -, rfl⟩)
        · exact value
        · rw [(value_of_goDuration reads go).2]
  | none =>
      simp only [parseSessionDuration_of_not_go go, reduceCtorEq, false_or, Option.isSome_none,
        Bool.false_eq_true]
      constructor
      · intro exact
        constructor
        · rintro ⟨digits, unit, words, n, u, numeral, named, pos, fits⟩
          obtain ⟨rest, split, -⟩ := append_of_words words
          have unread : ∀ n u, ¬ Reads (sessionUnit lower) (trimSpace raw) n u := by
            intro n u reads
            rw [split, List.cons_append] at reads
            cases reads.isDigit_head
          have refused : parseSessionNumberUnit lower ((trimSpace raw).filter (· ≠ ' ')) =
              none := by
            rw [split]
            rfl
          obtain ⟨n', u', reads, -⟩ := (exact _).mp (.inr ⟨refused, _, _, words,
            parseSessionNumberAndUnit_eq_some_iff.mpr ⟨n, u, numeral, named, pos, fits, rfl⟩⟩)
          exact unread n' u' reads
        · intro n u reads pos fits
          obtain ⟨n', u', reads', -, fits', -⟩ := (exact _).mp
            (.inl (parseSessionNumberUnit_eq_some_iff.mpr ⟨n, u, reads, pos, fits, rfl⟩))
          obtain ⟨rfl, rfl⟩ := reads.unique (sessionUnit_unmixed lower) reads'.compact
          exact ⟨reads', fits'⟩
      · rintro ⟨unsigned, inRange⟩ v
        constructor
        · intro h
          have compact : parseSessionNumberUnit lower ((trimSpace raw).filter (· ≠ ' ')) =
              some v := by
            rcases h with h | ⟨refused, num, unit, words, h⟩
            · exact h
            · obtain ⟨n, u, numeral, named, pos, fits, -⟩ :=
                parseSessionNumberAndUnit_eq_some_iff.mp h
              have plain : ∀ digits, num ≠ '+' :: digits := by
                rintro digits rfl
                exact unsigned ⟨digits, unit, words, n, u, numeral, named, pos, fits⟩
              have reads := (reads_of_words words numeral named plain).compact
              rw [parseSessionNumberUnit_eq_some_iff.mpr ⟨n, u, reads, pos, fits, rfl⟩] at refused
              cases refused
          obtain ⟨n, u, reads, pos, fits, rfl⟩ := parseSessionNumberUnit_eq_some_iff.mp compact
          obtain ⟨reads, small⟩ := inRange n u reads pos fits
          exact ⟨n, u, reads, pos, small,
            wrap64_of_nonneg (Int.mul_nonneg (by omega) reads.nanoseconds_pos.le) small⟩
        · rintro ⟨n, u, reads, pos, small, rfl⟩
          have le : (n : Int) ≤ n * u.nanoseconds := le_mul_nanoseconds reads.nanoseconds_pos
          rw [← wrap64_of_nonneg (Int.mul_nonneg (by omega) reads.nanoseconds_pos.le) small]
          exact .inl (parseSessionNumberUnit_eq_some_iff.mpr
            ⟨n, u, reads.compact, pos, by omega, rfl⟩)

end Exactness

/-- **Exact where nothing wraps** and nothing else is read. -/
theorem durations_exact_iff (lower : LowerCase) (fraction : List Char → Nat → Nat)
    (raw : List Char) :
    SessionExact lower fraction raw ∧ ThrottleExact raw ↔
      SessionInRange lower fraction raw ∧ ThrottleInRange raw :=
  and_congr sessionExact_iff throttleExact_iff

/-- Lower case in ASCII. -/
def asciiLower : LowerCase where
  toLower := Char.toLower
  ascii _ _ := rfl
  space c h := by
    have := toNat_of_isSpace h
    exact toLower_eq_self (by omega)
  micro := by simp

def longLifetime : List Char := "106752 days".toList

theorem longLifetime_reads : Reads (sessionUnit asciiLower) longLifetime 106752
    ⟨["d", "day", "days"], [24, hour]⟩ :=
  ⟨"106752".toList, " days".toList, rfl, by decide, rfl, rfl, rfl⟩

/-- A lifetime of three centuries becomes a negative duration. -/
theorem longLifetime_wraps :
    parseSessionDuration asciiLower (fun _ _ => 0) longLifetime = some (-9223371273709551616) ∧
      ¬ ∀ lower fraction raw, SessionExact lower fraction raw ∧ ThrottleExact raw := by
  have trimmed : trimSpace longLifetime = longLifetime := rfl
  have split : longLifetime = "106752".toList ++ [' ', 'd', 'a', 'y', 's'] := rfl
  have letters : ∀ c ∈ [' ', 'd', 'a', 'y', 's'], GoDuration.isNumeric c = false := by
    simp [GoDuration.isNumeric]
  have go : GoDuration.parse (fun _ _ => 0) (trimSpace longLifetime) = none := by
    rw [trimmed, split, GoDuration.parse_single (by decide) rfl letters]
    rfl
  have compact := parseSessionNumberUnit_eq_some_iff.mpr
    ⟨106752, _, (trimmed.symm ▸ longLifetime_reads).compact, by decide, by decide, rfl⟩
  have accepted := (parseSessionDuration_of_not_go go).mpr (.inl compact)
  have negative : wrap64 ((106752 : Nat) * (24 * (hour * 1))) = -9223371273709551616 := by decide
  refine ⟨accepted.trans (congrArg some negative), fun exact => ?_⟩
  rcases ((exact _ _ _).1 _).mp accepted with h | ⟨n, u, reads, -, fits, -⟩
  · rw [go] at h
    cases h
  · rw [trimmed] at reads
    obtain ⟨rfl, rfl⟩ := reads.unique (sessionUnit_unmixed _) longLifetime_reads
    revert fits
    decide

end Lazuli.Runtime.DurationLiterals
