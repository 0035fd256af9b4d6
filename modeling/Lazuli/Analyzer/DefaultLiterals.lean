import Lazuli.Codegen.GuardText
import Lazuli.Codegen.ValidatorTags

/-!
Defaults of fields against the constraints beside them (`validate_constraint_combinations`,
`validate_default_against_constraints` in `resource_validators.rs`).

The check does not see the type of the field. What stands between the quotes is taken for a number
where it reads as one and for a text where it does not, and a range is asked of numbers only. The
runtime measures a text by its characters and an integer by its value.
-/

namespace Lazuli.Analyzer.DefaultLiterals

open Lazuli.Runtime.InputTags General.Rounding
open General.Text (trim)
open Codegen (parseI64 stripQuotes)
open Codegen.ValidatorTags

/-! ### The checks -/

inductive AnalyzeError where
  | constraintConflict (field combo : String)
  | defaultViolatesConstraint (field value rule : String)

def validateConstraintCombinations (field : String) (c : FieldConstraints) :
    Except AnalyzeError Unit :=
  if c.length.isSome ∧ c.min.isSome then .error (.constraintConflict field "length+min")
  else if c.length.isSome ∧ c.max.isSome then .error (.constraintConflict field "length+max")
  else if c.between.isSome ∧ c.min.isSome then .error (.constraintConflict field "between+min")
  else if c.between.isSome ∧ c.max.isSome then .error (.constraintConflict field "between+max")
  else if c.inValues.isSome ∧ c.pattern.isSome then .error (.constraintConflict field "in+pattern")
  else .ok ()

section Rules

variable (c : FieldConstraints) (unquoted : List Char)

def brokenLength : Option String :=
  c.length.bind fun n =>
    if unquoted.length ≠ n.toNat then some ("length=" ++ toString n.toNat) else none

/-- What a minimum and a maximum are compared with. -/
def magnitude : ℤ := (parseI64 unquoted).getD unquoted.length

def brokenMin : Option String :=
  c.min.bind fun min =>
    if magnitude unquoted < min.toInt then some ("min=" ++ toString min.toInt) else none

def brokenMax : Option String :=
  c.max.bind fun max =>
    if max.toInt < magnitude unquoted then some ("max=" ++ toString max.toInt) else none

def brokenBetween : Option String :=
  (parseI64 unquoted).bind fun n => c.between.bind fun range =>
    if n < range.1.toInt ∨ range.2.toInt < n then
      some ("between=" ++ toString range.1.toInt ++ ".." ++ toString range.2.toInt)
    else none

def brokenIn : Option String :=
  c.inValues.bind fun values =>
    if String.ofList unquoted ∉ values then some ("in=[" ++ ", ".intercalate values ++ "]")
    else none

/-- A pattern is not matched here; only a default without characters is refused. -/
def brokenPattern : Option String :=
  c.pattern.bind fun pattern =>
    if unquoted = [] ∧ pattern ≠ "" then some ("pattern=\"" ++ pattern ++ "\"") else none

/-- The first rule that a default breaks. -/
def brokenRule : Option String :=
  (brokenLength c unquoted).or <| (brokenMin c unquoted).or <| (brokenMax c unquoted).or <|
    (brokenBetween c unquoted).or <| (brokenIn c unquoted).or <| brokenPattern c unquoted

end Rules

/-- A literal without the quotes around it. -/
def unquote (literal : List Char) : List Char := (stripQuotes literal).getD literal

def validateDefaultAgainstConstraints (field : String) (defaultRaw : List Char)
    (c : FieldConstraints) : Except AnalyzeError Unit :=
  match brokenRule c (unquote (trim defaultRaw)) with
  | none => .ok ()
  | some rule =>
      .error (.defaultViolatesConstraint field (String.ofList (trim defaultRaw)) rule)

/-! ### What a default denotes -/

inductive FieldType where
  | text
  | integer

/-- The value that a default gives to a field. No text is given by `nil`, and no integer by what
does not read as one without quotes. -/
def denotes : FieldType → List Char → Option Reflected
  | .text, raw =>
      if trim raw = "nil".toList then none
      else some (.string (String.ofList (unquote (trim raw))))
  | .integer, raw => (parseI64 (trim raw)).map fun n => .int (Int64.ofInt n)

/-- The measure of the runtime is in the bounds of the tag. -/
def InBounds (c : FieldConstraints) (v : Reflected) : Prop :=
  ∀ measure, rangeMeasure v = some measure →
    (∀ bound, c.lower = some bound → measure.lt (.ofInt bound.toInt) = false) ∧
      ∀ bound, c.upper = some bound → (Float64.ofInt bound.toInt).lt measure = false

/-- A text has as many characters as the constraints ask for. -/
def HasLength (c : FieldConstraints) (text : List Char) : Prop :=
  ∀ n, c.length = some n → text.length = n.toNat

/-- The list of the constraints has the text. -/
def Listed (c : FieldConstraints) (text : List Char) : Prop :=
  ∀ values, c.inValues = some values → String.ofList text ∈ values

/-- The list of the constraints has the value. -/
def ListsValue (c : FieldConstraints) : Reflected → Prop
  | .string s => Listed c s.toList
  | .int n => ∀ values, c.inValues = some values →
      ∃ entry ∈ values, parseI64 entry.toList = some n.toInt
  | _ => True

/-- A value satisfies the constraints as they are measured for its type. -/
structure Satisfies (c : FieldConstraints) (v : Reflected) : Prop where
  bounds : InBounds c v
  length : ∀ s, v = .string s → HasLength c s.toList
  listed : ListsValue c v

/-- The runtime finds a slot out of range exactly when its value is not in the bounds. -/
theorem rangeViolation_eq_none_iff (p : ParseFloat) {slot : BodySlot} (plain : slot.Plain)
    {value v : Reflected} (hv : value.deref = some v) :
    rangeViolation p.parse slot.row value = none ↔ InBounds slot.constraints v := by
  have hmin : tagRuleValue slot.row.validate "min" = _ := min_of_body plain
  have hmax : tagRuleValue slot.row.validate "max" = _ := max_of_body plain
  rw [rangeViolation, hmin, hmax, hv, InBounds]
  cases hmeasure : rangeMeasure v with
  | none => simp [hmeasure]
  | some measure =>
      have hbelow := breaks_iff p (fun measure bound => measure.lt bound) measure
        slot.constraints.lower
      have habove := breaks_iff p (fun measure bound => bound.lt measure) measure
        slot.constraints.upper
      have silent (lower upper : Bool) (low high : RangeViolation) :
          (if lower then some low else if upper then some high else none) = none ↔
            ¬ lower = true ∧ ¬ upper = true := by
        cases lower <;> cases upper <;> simp
      simp only [Option.bind_eq_bind, Option.bind_some, hmeasure]
      rw [silent, hbelow, habove]
      simp only [not_exists, not_and, Bool.not_eq_true, Option.some.injEq, forall_eq']

/-! ### What the check accepts -/

section Accepted

variable {c : FieldConstraints} {text : List Char} {field : String}

/-- The number is within the bounds. -/
def Within (c : FieldConstraints) (n : ℤ) : Prop :=
  (∀ bound, c.lower = some bound → bound.toInt ≤ n) ∧
    ∀ bound, c.upper = some bound → n ≤ bound.toInt

/-- A text under a pattern has characters. -/
def Patterned (c : FieldConstraints) (text : List Char) : Prop :=
  ∀ pattern, c.pattern = some pattern → pattern ≠ "" → text ≠ []

/-- A range stands alone. -/
theorem bounds_of_between (hc : validateConstraintCombinations field c = .ok ())
    (hbetween : c.between ≠ none) : c.min = none ∧ c.max = none := by
  have hsome : c.between.isSome = true := Option.isSome_iff_ne_none.mpr hbetween
  rw [validateConstraintCombinations] at hc
  split_ifs at hc with h₁ h₂ h₃ h₄ h₅
  exact ⟨Option.not_isSome_iff_eq_none.mp fun h => h₃ ⟨hsome, h⟩,
    Option.not_isSome_iff_eq_none.mp fun h => h₄ ⟨hsome, h⟩⟩

theorem unbroken_iff {α : Type} {o : Option α} {P : α → Prop} [DecidablePred P] {f : α → String} :
    (o.bind fun a => if P a then some (f a) else none) = none ↔ ∀ a, o = some a → ¬ P a := by
  cases o with
  | none => simp
  | some a => simp

theorem accepts_iff {raw : List Char} :
    validateDefaultAgainstConstraints field raw c = .ok () ↔
      brokenRule c (unquote (trim raw)) = none := by
  rw [validateDefaultAgainstConstraints]
  cases brokenRule c (unquote (trim raw)) with
  | none => exact iff_of_true rfl rfl
  | some rule => exact iff_of_false nofun nofun

/-- What of the constraints does not depend on how a text is measured. -/
theorem brokenRule_eq_none_iff :
    brokenRule c text = none ↔
      HasLength c text ∧ (brokenMin c text = none ∧ brokenMax c text = none ∧
        brokenBetween c text = none) ∧ Listed c text ∧ Patterned c text := by
  have hlength : brokenLength c text = none ↔ HasLength c text := by
    rw [brokenLength, unbroken_iff]
    simp only [ne_eq, not_not, HasLength]
  have hlisted : brokenIn c text = none ↔ Listed c text := by
    rw [brokenIn, unbroken_iff]
    simp only [not_not, Listed]
  have hpattern : brokenPattern c text = none ↔ Patterned c text := by
    rw [brokenPattern, unbroken_iff]
    simp only [Patterned, ne_eq, not_and']
  simp only [brokenRule, Option.or_eq_none_iff, hlength, hlisted, hpattern, and_assoc]

/-- What reads as a number is measured by its value. -/
theorem unbroken_of_number {n : ℤ} (hn : parseI64 text = some n)
    (hc : validateConstraintCombinations field c = .ok ()) :
    (brokenMin c text = none ∧ brokenMax c text = none ∧ brokenBetween c text = none) ↔
      Within c n := by
  rw [brokenMin, brokenMax, brokenBetween, unbroken_iff, unbroken_iff, magnitude, hn,
    Option.bind_some, unbroken_iff, Within, FieldConstraints.lower, FieldConstraints.upper]
  cases hbetween : c.between with
  | none => simp
  | some range =>
      obtain ⟨hmin, hmax⟩ := bounds_of_between hc (by rw [hbetween]; exact Option.some_ne_none _)
      simp [hmin, hmax]

/-- What does not is measured by its characters, and a range is passed over. -/
theorem unbroken_of_word (hn : parseI64 text = none)
    (hc : validateConstraintCombinations field c = .ok ()) :
    (brokenMin c text = none ∧ brokenMax c text = none ∧ brokenBetween c text = none) ↔
      (c.between = none → Within c text.length) := by
  rw [brokenMin, brokenMax, brokenBetween, unbroken_iff, unbroken_iff, magnitude, hn,
    Option.bind_none, Within, FieldConstraints.lower, FieldConstraints.upper]
  cases hbetween : c.between with
  | none => simp
  | some range =>
      obtain ⟨hmin, hmax⟩ := bounds_of_between hc (by rw [hbetween]; exact Option.some_ne_none _)
      simp [hmin, hmax]

end Accepted

/-! ### Where the check and the runtime differ -/

/-- The defaults for which the check and the measures of their type differ. -/
inductive Mistaken (c : FieldConstraints) : FieldType → List Char → Prop
  | number {text : List Char} {n : ℤ} : parseI64 text = some n → HasLength c text →
      Listed c text → ¬ (Within c n ↔ InBounds c (.string (String.ofList text))) →
      Mistaken c .text text
  | range {text : List Char} : parseI64 text = none → c.between ≠ none → HasLength c text →
      Listed c text → Patterned c text → ¬ InBounds c (.string (String.ofList text)) →
      Mistaken c .text text
  | pattern {text : List Char} : Satisfies c (.string (String.ofList text)) →
      ¬ Patterned c text → Mistaken c .text text
  | rounded {text : List Char} : parseI64 text = none → c.between = none →
      Satisfies c (.string (String.ofList text)) → ¬ Within c text.length → Mistaken c .text text
  | digits {text : List Char} {n : ℤ} : parseI64 text = some n →
      Satisfies c (.int (Int64.ofInt n)) → ¬ HasLength c text → Mistaken c .integer text
  | spelling {text : List Char} {n : ℤ} : parseI64 text = some n →
      Satisfies c (.int (Int64.ofInt n)) → ¬ Listed c text → Mistaken c .integer text
  | precision {text : List Char} {n : ℤ} : parseI64 text = some n →
      Satisfies c (.int (Int64.ofInt n)) → ¬ Within c n → Mistaken c .integer text

section Text

variable {c : FieldConstraints} {text : List Char} {field : String}

theorem satisfies_string :
    Satisfies c (.string (String.ofList text)) ↔
      InBounds c (.string (String.ofList text)) ∧ HasLength c text ∧ Listed c text := by
  constructor
  · intro h
    have hlength := h.length _ rfl
    have hlisted : Listed c (String.ofList text).toList := h.listed
    rw [String.toList_ofList] at hlength hlisted
    exact ⟨h.bounds, hlength, hlisted⟩
  · rintro ⟨hbounds, hlength, hlisted⟩
    refine ⟨hbounds, ?_, ?_⟩
    · rintro s ⟨⟩
      rwa [String.toList_ofList]
    · show Listed c (String.ofList text).toList
      rwa [String.toList_ofList]

theorem ofInt_not_lt {a b : ℤ} (h : b ≤ a) : (Float64.ofInt a).lt (.ofInt b) = false := by
  rw [← Bool.not_eq_true]
  simp only [Float64.ofInt, Float64.lt, decide_eq_true_eq, not_lt]
  rcases h.lt_or_eq with less | rfl
  · exact (isNearest_roundInt (p := 53) (by decide) b).le_of_lt
      (isNearest_roundInt (by decide) a) (by exact_mod_cast less)
  · exact le_refl _

theorem inBounds_of_within {v : Reflected} {n : ℤ} (hv : rangeMeasure v = some (.ofInt n))
    (h : Within c n) : InBounds c v := by
  intro measure hmeasure
  obtain rfl := Option.some_inj.mp (hv.symm.trans hmeasure)
  exact ⟨fun bound hbound => ofInt_not_lt (h.1 bound hbound),
    fun bound hbound => ofInt_not_lt (h.2 bound hbound)⟩

theorem measure_string (text : List Char) :
    rangeMeasure (.string (String.ofList text)) = some (.ofInt text.length) := by
  rw [rangeMeasure, String.length_ofList]

theorem patterned_of_number {n : ℤ} (hn : parseI64 text = some n) : Patterned c text := by
  rintro pattern - - rfl
  cases hn

theorem number_checked_iff {n : ℤ} (hn : parseI64 text = some n)
    (hc : validateConstraintCombinations field c = .ok ()) :
    (brokenRule c text = none ↔ Satisfies c (.string (String.ofList text))) ↔
      ¬ Mistaken c .text text := by
  rw [brokenRule_eq_none_iff, unbroken_of_number hn hc, satisfies_string]
  have hpattern : Patterned c text := patterned_of_number hn
  constructor
  · intro same mistaken
    cases mistaken with
    | number hn' hlength hlisted hne =>
        obtain rfl := Option.some_inj.mp (hn.symm.trans hn')
        exact hne ⟨fun h => (same.mp ⟨hlength, h, hlisted, hpattern⟩).1,
          fun h => (same.mpr ⟨h, hlength, hlisted⟩).2.1⟩
    | range hn' => cases hn.symm.trans hn'
    | pattern _ hne => exact hne hpattern
    | rounded hn' => cases hn.symm.trans hn'
  · intro agree
    have same (hlength : HasLength c text) (hlisted : Listed c text) :
        Within c n ↔ InBounds c (.string (String.ofList text)) :=
      not_not.mp fun hne => agree (.number hn hlength hlisted hne)
    constructor
    · rintro ⟨hlength, hwithin, hlisted, -⟩
      exact ⟨(same hlength hlisted).mp hwithin, hlength, hlisted⟩
    · rintro ⟨hbounds, hlength, hlisted⟩
      exact ⟨hlength, (same hlength hlisted).mpr hbounds, hlisted, hpattern⟩

theorem word_checked_iff (hn : parseI64 text = none)
    (hc : validateConstraintCombinations field c = .ok ()) :
    (brokenRule c text = none ↔ Satisfies c (.string (String.ofList text))) ↔
      ¬ Mistaken c .text text := by
  rw [brokenRule_eq_none_iff, unbroken_of_word hn hc]
  constructor
  · intro same mistaken
    cases mistaken with
    | number hn' => cases hn.symm.trans hn'
    | range _ hbetween hlength hlisted hpattern hne =>
        exact hne (same.mp
          ⟨hlength, fun none => absurd none hbetween, hlisted, hpattern⟩).bounds
    | pattern hsatisfies hne => exact hne (same.mpr hsatisfies).2.2.2
    | rounded _ hbetween hsatisfies hne => exact hne ((same.mpr hsatisfies).2.1 hbetween)
  · intro agree
    constructor
    · rintro ⟨hlength, hwithin, hlisted, hpattern⟩
      refine satisfies_string.mpr ⟨?_, hlength, hlisted⟩
      by_cases hbetween : c.between = none
      · exact inBounds_of_within (measure_string text) (hwithin hbetween)
      · by_contra hne
        exact agree (.range hn hbetween hlength hlisted hpattern hne)
    · intro hsatisfies
      obtain ⟨-, hlength, hlisted⟩ := satisfies_string.mp hsatisfies
      refine ⟨hlength, fun hbetween => ?_, hlisted, ?_⟩
      · by_contra hne
        exact agree (.rounded hn hbetween hsatisfies hne)
      · by_contra hne
        exact agree (.pattern hsatisfies hne)

end Text

section Integer

variable {c : FieldConstraints} {text : List Char} {field : String} {n : ℤ}

theorem unquote_of_number (hn : parseI64 text = some n) : unquote text = text := by
  rw [unquote]
  cases hquoted : stripQuotes text with
  | none => rfl
  | some inner =>
      have hmem : '"' ∈ text := by
        rw [Codegen.stripQuotes_eq_some hquoted]
        exact List.mem_cons_self
      rcases Codegen.sign_or_digit_of_parseI64 hn hmem with same | same | same <;> cases same

theorem toInt_of_number (hn : parseI64 text = some n) : (Int64.ofInt n).toInt = n := by
  obtain ⟨-, hrange⟩ := Option.filter_eq_some_iff.mp hn
  obtain ⟨low, high⟩ := of_decide_eq_true hrange
  exact Int64.toInt_ofInt_of_le low high

theorem integer_checked_iff (hn : parseI64 text = some n)
    (hc : validateConstraintCombinations field c = .ok ()) :
    (brokenRule c text = none ↔ Satisfies c (.int (Int64.ofInt n))) ↔
      ¬ Mistaken c .integer text := by
  rw [brokenRule_eq_none_iff, unbroken_of_number hn hc]
  constructor
  · intro same mistaken
    cases mistaken with
    | digits hn' hsatisfies hne =>
        obtain rfl := Option.some_inj.mp (hn.symm.trans hn')
        exact hne (same.mpr hsatisfies).1
    | spelling hn' hsatisfies hne =>
        obtain rfl := Option.some_inj.mp (hn.symm.trans hn')
        exact hne (same.mpr hsatisfies).2.2.1
    | precision hn' hsatisfies hne =>
        obtain rfl := Option.some_inj.mp (hn.symm.trans hn')
        exact hne (same.mpr hsatisfies).2.1
  · intro agree
    constructor
    · rintro ⟨-, hwithin, hlisted, -⟩
      refine ⟨inBounds_of_within (by rw [rangeMeasure, toInt_of_number hn]) hwithin, nofun,
        fun values hvalues => ⟨_, hlisted values hvalues, ?_⟩⟩
      rw [String.toList_ofList, toInt_of_number hn, hn]
    · intro hsatisfies
      refine ⟨?_, ?_, ?_, patterned_of_number hn⟩
      · by_contra hne
        exact agree (.digits hn hsatisfies hne)
      · by_contra hne
        exact agree (.precision hn hsatisfies hne)
      · by_contra hne
        exact agree (.spelling hn hsatisfies hne)

end Integer

/-- A default is accepted exactly when its value satisfies the constraints, unless it is one of the
defaults for which the check and the measures of the type differ. -/
theorem default_checked_iff (type : FieldType) (field : String) (raw : List Char)
    (c : FieldConstraints) (v : Reflected)
    (hc : validateConstraintCombinations field c = .ok ()) (hv : denotes type raw = some v) :
    (validateDefaultAgainstConstraints field raw c = .ok () ↔ Satisfies c v) ↔
      ¬ Mistaken c type (unquote (trim raw)) := by
  rw [accepts_iff]
  cases type with
  | text =>
      obtain ⟨-, hvalue⟩ := Option.ite_none_left_eq_some.mp hv
      obtain rfl := Option.some_inj.mp hvalue
      cases hn : parseI64 (unquote (trim raw)) with
      | none => exact word_checked_iff hn hc
      | some n => exact number_checked_iff hn hc
  | integer =>
      obtain ⟨n, hn, rfl⟩ := Option.map_eq_some_iff.mp hv
      rw [unquote_of_number hn]
      exact integer_checked_iff hn hc

theorem default_checked_handle :
    (validateDefaultAgainstConstraints "handle" "\"draft\"".toList { min := some 2 } = .ok () ↔
        Satisfies { min := some 2 } (.string "draft")) ↔
      ¬ Mistaken { min := some 2 } .text (unquote (trim "\"draft\"".toList)) :=
  default_checked_iff .text "handle" "\"draft\"".toList { min := some 2 } (.string "draft") rfl rfl

/-- A digit is accepted as a text of at least three characters, and five digits are refused as a
text of at most ten. -/
theorem digits_taken_for_number :
    (¬ ∀ type field raw c v, validateConstraintCombinations field c = .ok () →
      denotes type raw = some v →
        validateDefaultAgainstConstraints field raw c = .ok () → Satisfies c v) ∧
    ¬ ∀ type field raw c v, validateConstraintCombinations field c = .ok () →
      denotes type raw = some v →
        Satisfies c v → validateDefaultAgainstConstraints field raw c = .ok () := by
  constructor
  · intro sound
    have short := sound .text "code" "\"5\"".toList { min := some 3 } (.string "5") rfl rfl rfl
    have below := (short.bounds (.ofInt 1) rfl).1 3 rfl
    rw [← Bool.not_eq_true] at below
    exact below ((ofInt_lt_iff (by decide)).mpr (by decide))
  · intro complete
    have satisfied : Satisfies { max := some 10 } (.string "12345") := by
      refine satisfies_string.mpr ⟨inBounds_of_within (measure_string "12345".toList) ?_, nofun,
        nofun⟩
      exact ⟨nofun, fun bound hbound => by cases hbound; decide⟩
    have accepted := complete .text "code" "\"12345\"".toList { max := some 10 }
      (.string "12345") rfl rfl satisfied
    cases accepted

end Lazuli.Analyzer.DefaultLiterals
