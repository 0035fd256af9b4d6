import Mathlib
import Lazuli.General.Lines
import Lazuli.General.Rounding
import Lazuli.General.Text
import Lazuli.Runtime.Value

/-!
The check of an input against the tags of its fields (`validateInputTags` in
`runtime/go/lazuli/handle.go`).

An input is seen as `reflect` sees it: kinds, pointers, and fields with their tags. Of the rules in
a tag `required`, `min` and `max` are known. What bounds are compared with is a 64-bit float.
-/

namespace Lazuli.Runtime.InputTags

open General General.Rounding
open General.Text (trim)

/-! ### Floats -/

inductive Float64 where
  | finite (x : ℚ) (representable : x ∈ binary 53)
  | inf (negative : Bool)
  | nan

namespace Float64

theorem roundInt_mem (n : ℤ) : (roundInt 53 n : ℚ) ∈ binary 53 :=
  (isNearest_roundInt (by decide) n).mem

/-- The conversion of an integer. -/
def ofInt (n : ℤ) : Float64 := .finite (roundInt 53 n) (roundInt_mem n)

/-- Nothing is less than what is no number. -/
def lt : Float64 → Float64 → Bool
  | .finite x _, .finite y _ => x < y
  | .finite .., .inf negative => !negative
  | .inf negative, .finite .. => negative
  | .inf negative, .inf negative' => negative && !negative'
  | .nan, _ | _, .nan => false

def isZero : Float64 → Bool
  | .finite x _ => x = 0
  | .inf _ | .nan => false

end Float64

/-- `strconv.ParseFloat`: a 64-bit integer in decimal is read as the float next to it. -/
structure ParseFloat where
  parse : String → Option Float64
  parse_int : ∀ n : Int64, parse (toString n.toInt) = some (.ofInt n.toInt)

/-! ### Values -/

/-- What a struct type says of a field. -/
structure StructField where
  name : String
  json : String
  validate : String
  exported : Bool
  anonymous : Bool

mutual

/-- A value of some kind, as far as the check looks into it. An array or what else is `other`, with
whether it is the zero value of its type. -/
inductive Reflected where
  | bool (b : Bool)
  | int (n : Int64)
  | uint (n : UInt64)
  | float (x : Float64)
  | string (s : String)
  | slice (isNil : Bool) (length : Nat)
  | map (isNil : Bool) (length : Nat)
  | interface (isNil : Bool)
  | nilPointer
  | pointer (target : Reflected)
  | struct (fields : StructFields)
  | other (zero : Bool)

inductive StructFields where
  | nil
  | cons (field : StructField) (value : Reflected) (rest : StructFields)

end

def StructFields.ofList : List (StructField × Reflected) → StructFields
  | [] => .nil
  | (field, value) :: rest => .cons field value (ofList rest)

mutual

def Reflected.isZero : Reflected → Bool
  | .bool b => !b
  | .int n => n = 0
  | .uint n => n = 0
  | .float x => x.isZero
  | .string s => s = ""
  | .slice isNil _ => isNil
  | .map isNil _ => isNil
  | .interface isNil => isNil
  | .nilPointer => true
  | .pointer _ => false
  | .struct fields => fields.allZero
  | .other zero => zero

def StructFields.allZero : StructFields → Bool
  | .nil => true
  | .cons _ value rest => value.isZero && rest.allZero

end

def isZeroForValidation : Reflected → Bool
  | .nilPointer => true
  | .pointer _ => false
  | .interface isNil => isNil
  | .slice _ length => length = 0
  | .map _ length => length = 0
  | v => v.isZero

/-- What stands behind the pointers, unless one of them is nil. -/
def Reflected.deref : Reflected → Option Reflected
  | .pointer target => target.deref
  | .nilPointer => none
  | v => some v

/-! ### Rules of a tag -/

/-- The rules between the commas. -/
def tagParts (tag : String) : List (List Char) := (tag.toList.splitOn ',').map trim

/-- What a rule gives to the key. -/
def ruleArgument (key : String) (part : List Char) : Option String :=
  (part.dropPrefix? (key ++ "=").toList).map fun rest => String.ofList (trim rest)

def tagRuleValue (tag key : String) : Option String :=
  if tag = "" ∨ tag = "-" then none else (tagParts tag).findSome? (ruleArgument key)

def tagHasRule (tag rule : String) : Bool :=
  if tag = "" ∨ tag = "-" then false
  else (tagParts tag).any fun part => part = rule.toList

def StructField.wireName (field : StructField) : String :=
  let name := jsonTagName field.json
  if name = "" then field.name else name

/-! ### Missing fields -/

mutual

def collectMissingRequired : StructFields → List String
  | .nil => []
  | .cons field value rest =>
      (if !field.exported then []
        else if field.anonymous then embeddedMissing value
        else if tagHasRule field.validate "required" && isZeroForValidation value then
          [field.wireName]
        else []) ++ collectMissingRequired rest

/-- The fields of an embedded struct. -/
def embeddedMissing : Reflected → List String
  | .pointer target => embeddedMissing target
  | .struct fields => collectMissingRequired fields
  | _ => []

end

/-! ### Fields out of range -/

structure RangeViolation where
  field : String
  reason : String
  deriving DecidableEq

/-- The value of a number, and the length of a text in characters. -/
def rangeMeasure : Reflected → Option Float64
  | .int n => some (.ofInt n.toInt)
  | .uint n => some (.ofInt n.toNat)
  | .float x => some x
  | .string s => some (.ofInt s.length)
  | _ => none

def rangeReason (v : Reflected) (kind bound : String) : String :=
  let word := if kind = "min" then "be at least" else "be at most"
  match v with
  | .string _ => "length must " ++ word ++ " " ++ bound
  | _ => "must " ++ word ++ " " ++ bound

variable (parseFloat : String → Option Float64)

/-- Whether the measure is on the wrong side of a bound that is given and can be read. -/
def breaks (wrong : Float64 → Float64 → Bool) (measure : Float64) (bound : Option String) : Bool :=
  (bound.bind parseFloat).any fun bound => wrong measure bound

/-- The lower bound comes first. -/
def rangeViolation (field : StructField) (value : Reflected) : Option RangeViolation := do
  let min := tagRuleValue field.validate "min"
  let max := tagRuleValue field.validate "max"
  let v ← value.deref
  let measure ← rangeMeasure v
  if breaks parseFloat (fun measure bound => measure.lt bound) measure min then
    some ⟨field.wireName, rangeReason v "min" (min.getD "")⟩
  else if breaks parseFloat (fun measure bound => bound.lt measure) measure max then
    some ⟨field.wireName, rangeReason v "max" (max.getD "")⟩
  else none

mutual

def collectRangeViolations : StructFields → List RangeViolation
  | .nil => []
  | .cons field value rest =>
      (if !field.exported then []
        else if field.anonymous then embeddedRange value
        else (rangeViolation parseFloat field value).toList) ++ collectRangeViolations rest

def embeddedRange : Reflected → List RangeViolation
  | .pointer target => embeddedRange target
  | .struct fields => collectRangeViolations fields
  | _ => []

end

/-! ### The check -/

def CodeValidationFailed : String := "validation_failed"

/-- The answer to an input that is refused, with the fields in its data. -/
structure ValidationError where
  error : Error
  fields : List String
  deriving DecidableEq

def validationError (message : String) (fields : List String) : ValidationError where
  error :=
    { status := 400, code := CodeValidationFailed, message, messageKey := CodeValidationFailed }
  fields := fields

/-- What is missing comes before what is out of range. -/
def validateInputTags (input : Reflected) : Option ValidationError :=
  match input.deref with
  | some (.struct fields) =>
      let missing := collectMissingRequired fields
      if missing ≠ [] then
        let message :=
          if 1 < missing.length then "missing required fields" else "missing required field"
        some (validationError (message ++ ": " ++ ", ".intercalate missing) missing)
      else
        let ranges := collectRangeViolations parseFloat fields
        if ranges = [] then none
        else
          let details := ranges.map fun r => r.field ++ " " ++ r.reason
          some (validationError ("field out of range: " ++ "; ".intercalate details)
            (ranges.map (·.field)))
  | _ => none

theorem validateInputTags_isSome_iff (fields : StructFields) :
    (validateInputTags parseFloat (.struct fields)).isSome = true ↔
      collectMissingRequired fields ≠ [] ∨ collectRangeViolations parseFloat fields ≠ [] := by
  by_cases missing : collectMissingRequired fields = []
  · by_cases ranges : collectRangeViolations parseFloat fields = []
    · simp [validateInputTags, Reflected.deref, missing, ranges]
    · simp [validateInputTags, Reflected.deref, missing, ranges]
  · simp [validateInputTags, Reflected.deref, missing]

/-! ### Structs without embedded fields -/

section Flat

variable {l : List (StructField × Reflected)}
  (flat : ∀ e ∈ l, e.1.exported = true ∧ e.1.anonymous = false)

include flat

theorem collectMissingRequired_ofList :
    collectMissingRequired (.ofList l) ≠ [] ↔
      ∃ e ∈ l, tagHasRule e.1.validate "required" = true ∧ isZeroForValidation e.2 = true := by
  induction l with
  | nil => simp [StructFields.ofList, collectMissingRequired]
  | cons e l ih =>
      obtain ⟨⟨exported, anonymous⟩, rest⟩ := List.forall_mem_cons.mp flat
      rw [List.exists_mem_cons_iff, ← ih rest]
      simp only [StructFields.ofList, collectMissingRequired, exported, anonymous]
      cases tagHasRule e.1.validate "required" <;> cases isZeroForValidation e.2 <;> simp

theorem collectRangeViolations_ofList :
    collectRangeViolations parseFloat (.ofList l) ≠ [] ↔
      ∃ e ∈ l, (rangeViolation parseFloat e.1 e.2).isSome = true := by
  induction l with
  | nil => simp [StructFields.ofList, collectRangeViolations]
  | cons e l ih =>
      obtain ⟨⟨exported, anonymous⟩, rest⟩ := List.forall_mem_cons.mp flat
      rw [List.exists_mem_cons_iff, ← ih rest]
      simp only [StructFields.ofList, collectRangeViolations, exported, anonymous]
      cases rangeViolation parseFloat e.1 e.2 <;> simp

end Flat

/-! ### Measures and bounds -/

/-- A number, or the number of characters of a text, is less than the bound. -/
def Reflected.Below : Reflected → ℤ → Prop
  | .int n, bound => n.toInt < bound
  | .uint n, bound => n.toNat < bound
  | .string s, bound => s.length < bound
  | .float (.finite x _), bound => x < bound
  | .float (.inf negative), _ => negative = true
  | _, _ => False

def Reflected.Above : Reflected → ℤ → Prop
  | .int n, bound => bound < n.toInt
  | .uint n, bound => bound < n.toNat
  | .string s, bound => bound < s.length
  | .float (.finite x _), bound => bound < x
  | .float (.inf negative), _ => negative = false
  | _, _ => False

/-- The measure and the bound are the same float only if they are the same number. -/
def Reflected.ToldFrom : Reflected → ℤ → Prop
  | .int n, bound => roundInt 53 n.toInt = roundInt 53 bound → n.toInt = bound
  | .uint n, bound => roundInt 53 n.toNat = roundInt 53 bound → (n.toNat : ℤ) = bound
  | .string s, bound => roundInt 53 s.length = roundInt 53 bound → (s.length : ℤ) = bound
  | .float (.finite x _), bound => x = roundInt 53 bound → x = bound
  | _, _ => True

section Measures

theorem roundInt_lt_iff {a b : ℤ} (told : roundInt 53 a = roundInt 53 b ↔ a = b) :
    roundInt 53 a < roundInt 53 b ↔ a < b := by
  have h := (isNearest_roundInt (p := 53) (by decide) a).lt_iff
    (isNearest_roundInt (by decide) b) (by exact_mod_cast told)
  exact_mod_cast h

theorem ofInt_lt_iff {a b : ℤ} (told : roundInt 53 a = roundInt 53 b → a = b) :
    (Float64.ofInt a).lt (.ofInt b) = true ↔ a < b := by
  rw [← roundInt_lt_iff ⟨told, congrArg _⟩]
  simp [Float64.ofInt, Float64.lt]

theorem told_of_mem {x : ℚ} (hx : x ∈ binary 53) {bound : ℤ}
    (told : x = roundInt 53 bound → x = bound) : x = roundInt 53 bound ↔ x = bound := by
  refine ⟨told, ?_⟩
  rintro rfl
  exact ((isNearest_roundInt (by decide) bound).eq_of_mem hx).symm

/-- What the check asks of a measure and a bound. -/
structure Compared (v : Reflected) (measure : Float64) (bound : ℤ) : Prop where
  below : measure.lt (.ofInt bound) = true ↔ v.Below bound
  above : (Float64.ofInt bound).lt measure = true ↔ v.Above bound

theorem compared {v : Reflected} {measure : Float64} (h : rangeMeasure v = some measure)
    {bound : ℤ} (told : v.ToldFrom bound) : Compared v measure bound := by
  cases v with
  | int n =>
      obtain rfl := Option.some.inj h
      exact ⟨ofInt_lt_iff told, ofInt_lt_iff fun same => (told same.symm).symm⟩
  | uint n =>
      obtain rfl := Option.some.inj h
      exact ⟨ofInt_lt_iff told, ofInt_lt_iff fun same => (told same.symm).symm⟩
  | string s =>
      obtain rfl := Option.some.inj h
      exact ⟨ofInt_lt_iff told, ofInt_lt_iff fun same => (told same.symm).symm⟩
  | float x =>
      obtain rfl := Option.some.inj h
      cases x with
      | finite x hx =>
          have told := told_of_mem hx told
          have nearest := isNearest_roundInt (p := 53) (by decide) bound
          constructor
          · simp only [Float64.ofInt, Float64.lt, decide_eq_true_eq]
            exact (IsNearest.of_mem hx).lt_iff nearest told
          · simp only [Float64.ofInt, Float64.lt, decide_eq_true_eq]
            exact nearest.lt_iff (IsNearest.of_mem hx) (eq_comm.trans (told.trans eq_comm))
      | inf negative => exact ⟨Iff.rfl, by simp [Float64.ofInt, Float64.lt, Reflected.Above]⟩
      | nan => exact ⟨by simp [Float64.lt, Reflected.Below], by
          simp [Float64.ofInt, Float64.lt, Reflected.Above]⟩
  | _ => cases h

theorem not_below_of_unmeasured {v : Reflected} (h : rangeMeasure v = none) (bound : ℤ) :
    ¬ v.Below bound ∧ ¬ v.Above bound := by
  cases v <;> simp_all [rangeMeasure, Reflected.Below, Reflected.Above]

end Measures

end Lazuli.Runtime.InputTags
