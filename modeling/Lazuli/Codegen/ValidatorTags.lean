import Lazuli.Codegen.Readings
import Lazuli.Codegen.Schema
import Lazuli.General.Quoted
import Lazuli.Runtime.InputTags

/-!
The tags of an input and what they enforce (`emitter/validator_tags.rs`, `emit_input_struct` in
`emitter/command/emit_p2.rs`).

The constraints of a slot become the rules of one tag. Reading the tag again gives the bounds and
whether the slot is required, as long as no authored text holds a comma and such a rule behind it.
So an input is refused exactly when a required slot is missing or a present one is out of its bounds
(`refused_iff`); lengths, patterns and lists of values stand in the tag and are passed over.
-/

namespace Lazuli.Codegen.ValidatorTags

open Ir Lazuli.Runtime Lazuli.Runtime.InputTags General
open General.Text (trim isWhitespace)

/-! ### The emitter -/

/-- What a slot declares inline, of what the tag is made of. -/
structure FieldConstraints where
  min : Option Int64 := none
  max : Option Int64 := none
  pattern : Option String := none
  between : Option (Int64 × Int64) := none
  length : Option UInt64 := none
  inValues : Option (List String) := none

def minRule (n : Int64) : String := "min=" ++ toString n.toInt

def maxRule (n : Int64) : String := "max=" ++ toString n.toInt

/-- The texts that an author wrote. -/
def textRules (c : FieldConstraints) : List String :=
  (c.pattern.map fun pattern => "regexp=" ++ pattern).toList ++
    (c.inValues.map fun values => "oneof=" ++ " ".intercalate values).toList

def tagRules (c : FieldConstraints) (required : Bool) : List String :=
  (if required then ["required"] else []) ++ (c.min.map minRule).toList ++
    (c.max.map maxRule).toList ++ (c.length.map fun n => "len=" ++ toString n.toNat).toList ++
    (c.between.map fun range => [minRule range.1, maxRule range.2]).getD [] ++ textRules c

def validatorTagBody (c : FieldConstraints) (required : Bool) : String :=
  ",".intercalate (tagRules c required)

example : validatorTagBody { min := some 1, max := some 36 } true = "required,min=1,max=36" := by
  decide

/-- A slot of the path. -/
structure PathSlot extends RouteSlot where
  named : isName name = true

/-- A slot of the body with its constraints. -/
structure BodySlot extends TypedSlot where
  constraints : FieldConstraints
  named : isName name = true

def isExported (name : String) : Bool := name.toList.head?.any Char.isUpper

def PathSlot.row (slot : PathSlot) : StructField where
  name := pascalCase slot.name
  json := slot.name
  validate := validatorTagBody {} true
  exported := isExported (pascalCase slot.name)
  anonymous := false

def BodySlot.row (slot : BodySlot) : StructField where
  name := pascalCase slot.name
  json := if slot.required then slot.name else slot.name ++ ",omitempty"
  validate := validatorTagBody slot.constraints slot.required
  exported := isExported (pascalCase slot.name)
  anonymous := false

/-- The struct of an input with its values. -/
def inputStruct (path : List (PathSlot × Reflected)) (body : List (BodySlot × Reflected)) :
    Reflected :=
  .struct (.ofList (path.map (fun e => (e.1.row, e.2)) ++ body.map fun e => (e.1.row, e.2)))

/-! ### Bounds -/

namespace FieldConstraints

variable (c : FieldConstraints)

/-- Of a minimum and a range the minimum counts. -/
def lower : Option Int64 := c.min <|> c.between.map (·.1)

def upper : Option Int64 := c.max <|> c.between.map (·.2)

/-- What is present breaks a bound. -/
def OutOfBounds (value : Reflected) : Prop :=
  ∃ v, value.deref = some v ∧
    ((∃ n, c.lower = some n ∧ v.Below n.toInt) ∨ ∃ n, c.upper = some n ∧ v.Above n.toInt)

/-- What is present is told from the bounds. -/
def ToldFrom (value : Reflected) : Prop :=
  ∀ v, value.deref = some v →
    (∀ n, c.lower = some n → v.ToldFrom n.toInt) ∧ ∀ n, c.upper = some n → v.ToldFrom n.toInt

/-- The rules that a reader finds behind the commas of the authored texts. -/
def strayParts : List (List Char) :=
  (textRules c).flatMap fun rule => (rule.toList.splitOn ',').tail.map trim

end FieldConstraints

/-- No text holds a rule that the slot has not got. -/
structure BodySlot.Plain (slot : BodySlot) : Prop where
  required : slot.required = false →
    ∀ part ∈ slot.constraints.strayParts, part ≠ "required".toList
  lower : slot.constraints.lower = none →
    ∀ part ∈ slot.constraints.strayParts, ruleArgument "min" part = none
  upper : slot.constraints.upper = none →
    ∀ part ∈ slot.constraints.strayParts, ruleArgument "max" part = none

/-! ### The tag read again -/

section Reading

/-- No comma and no white space. -/
def Quiet (s : List Char) : Prop := ∀ c ∈ s, isWhitespace c = false ∧ c ≠ ','

theorem quiet_append {s t : List Char} (hs : Quiet s) (ht : Quiet t) : Quiet (s ++ t) :=
  List.forall_mem_append.mpr ⟨hs, ht⟩

theorem quiet_digit {c : Char} (h : c.isDigit = true) : isWhitespace c = false ∧ c ≠ ',' := by
  refine ⟨Text.isWhitespace_of_isDigit h, ?_⟩
  rintro rfl
  cases h

theorem quiet_int (n : ℤ) : Quiet (toString n).toList := by
  intro c hc
  rcases Text.isDigit_of_mem_toString_int hc with digit | rfl
  · exact quiet_digit digit
  · decide

theorem quiet_nat (n : ℕ) : Quiet (toString n).toList :=
  fun _ hc => quiet_digit (Text.isDigit_of_mem_toString_nat hc)

/-- What a reader finds of a rule. -/
def ruleParts (rule : String) : List (List Char) := (rule.toList.splitOn ',').map trim

theorem trim_of_quiet {s : List Char} (h : Quiet s) : trim s = s :=
  Text.trim_eq_self (fun c hc => (h c (List.mem_of_mem_head? hc)).1)
    fun c hc => (h c (List.mem_of_getLast? hc)).1

theorem ruleParts_of_quiet {rule : String} (h : Quiet rule.toList) :
    ruleParts rule = [rule.toList] := by
  have hcomma : ',' ∉ rule.toList := fun hmem => (h _ hmem).2 rfl
  rw [ruleParts, List.splitOn_eq_singleton hcomma, List.map_singleton, trim_of_quiet h]

/-- The first part of a rule begins with its key, and the others are stray. -/
theorem ruleParts_append {key : List Char} (hne : key ≠ []) (h : Quiet key) {rule : String}
    {text : List Char} (hrule : rule.toList = key ++ text) :
    ∃ rest, ruleParts rule = (key ++ rest) :: (rule.toList.splitOn ',').tail.map trim := by
  have hcomma : ',' ∉ key := fun hmem => (h _ hmem).2 rfl
  have hsplit := Lines.splitOn_append_of_notMem hcomma text
  rw [ruleParts, hrule, hsplit]
  cases hpieces : text.splitOn ',' with
  | nil => exact absurd hpieces (List.splitOn_ne_nil _ _)
  | cons piece pieces =>
      refine ⟨piece.rdropWhile isWhitespace, ?_⟩
      rw [List.modifyHead_cons, List.map_cons, List.tail_cons]
      congr 1
      exact Text.trim_append hne (fun c hc => (h c (List.mem_of_mem_head? hc)).1)
        (fun c hc => (h c (List.mem_of_getLast? hc)).1) piece

theorem toList_body (c : FieldConstraints) (required : Bool) :
    (validatorTagBody c required).toList =
      [','].intercalate ((tagRules c required).map String.toList) := by
  rw [validatorTagBody, String.toList_intercalate]
  rfl

theorem length_of_mem_tagRules {c : FieldConstraints} {required : Bool} {rule : String}
    (h : rule ∈ tagRules c required) : 4 ≤ rule.toList.length := by
  simp only [tagRules, textRules, minRule, maxRule, List.mem_append, Option.mem_toList,
    Option.map_eq_some_iff] at h
  rcases h with ((((h | ⟨_, -, rfl⟩) | ⟨_, -, rfl⟩) | ⟨_, -, rfl⟩) | h) | ⟨_, -, rfl⟩ | ⟨_, -, rfl⟩
  · cases required with
    | false => cases h
    | true =>
        rw [List.mem_singleton.mp h]
        decide
  · simp
  · simp
  · simp
  · cases hrange : c.between with
    | none => simp [hrange] at h
    | some range =>
        simp only [hrange, Option.map_some, Option.getD_some, List.mem_cons, List.not_mem_nil,
          or_false] at h
        rcases h with rfl | rfl <;> simp
  · simp
  · simp

/-- What a reader finds in the tag. -/
theorem tagParts_body {c : FieldConstraints} {required : Bool} (h : tagRules c required ≠ []) :
    validatorTagBody c required ≠ "" ∧ validatorTagBody c required ≠ "-" ∧
      tagParts (validatorTagBody c required) = (tagRules c required).flatMap ruleParts := by
  have hne : (tagRules c required).map String.toList ≠ [] := by simpa using h
  have htext := toList_body c required
  have hlength : 4 ≤ (validatorTagBody c required).toList.length := by
    obtain ⟨rule, hrule⟩ := List.exists_mem_of_ne_nil _ h
    have hsum := Lines.length_intercalate ',' hne
    have hmem : rule.toList.length + 1 ∈
        ((tagRules c required).map String.toList).map (·.length + 1) :=
      List.mem_map_of_mem (List.mem_map_of_mem hrule)
    have hpart := List.single_le_sum (by simp) _ hmem
    have hlong := length_of_mem_tagRules hrule
    rw [htext]
    omega
  refine ⟨?_, ?_, ?_⟩
  · intro same
    simp [same] at hlength
  · intro same
    simp [same] at hlength
  · rw [tagParts, htext, Lines.splitOn_intercalate_eq ',' hne, List.flatMap_map, List.map_flatMap]
    rfl

/-- The first rule that gives something to the key. -/
def answer (key : String) (rules : List String) : Option String :=
  (rules.flatMap ruleParts).findSome? (ruleArgument key)

theorem tagRuleValue_body (c : FieldConstraints) (required : Bool) (key : String) :
    tagRuleValue (validatorTagBody c required) key = answer key (tagRules c required) := by
  by_cases h : tagRules c required = []
  · rw [validatorTagBody, h]
    rfl
  · obtain ⟨hempty, hdash, hparts⟩ := tagParts_body h
    rw [tagRuleValue, if_neg (not_or.mpr ⟨hempty, hdash⟩), hparts]
    rfl

theorem tagHasRule_body (c : FieldConstraints) (required : Bool) (rule : String) :
    tagHasRule (validatorTagBody c required) rule =
      ((tagRules c required).flatMap ruleParts).any fun part => part = rule.toList := by
  by_cases h : tagRules c required = []
  · rw [validatorTagBody, h]
    rfl
  · obtain ⟨hempty, hdash, hparts⟩ := tagParts_body h
    rw [tagHasRule, if_neg (not_or.mpr ⟨hempty, hdash⟩), hparts]

theorem answer_append (key : String) (rules more : List String) :
    answer key (rules ++ more) = (answer key rules).or (answer key more) := by
  rw [answer, List.flatMap_append, List.findSome?_append]
  rfl

theorem answer_quiet {rule : String} (h : Quiet rule.toList) (key : String) :
    answer key [rule] = ruleArgument key rule.toList := by
  rw [answer, List.flatMap_singleton, ruleParts_of_quiet h, List.findSome?_singleton]

theorem ruleArgument_key (key : String) {text : List Char} (h : Quiet text) :
    ruleArgument key ((key ++ "=").toList ++ text) = some (String.ofList text) := by
  rw [ruleArgument, Quoted.dropPrefix_iff.mpr rfl, Option.map_some, trim_of_quiet h]

theorem quiet_minRule (n : Int64) : Quiet (minRule n).toList := by
  rw [minRule, String.toList_append]
  exact quiet_append (by simp [Quiet, isWhitespace]) (quiet_int _)

theorem quiet_maxRule (n : Int64) : Quiet (maxRule n).toList := by
  rw [maxRule, String.toList_append]
  exact quiet_append (by simp [Quiet, isWhitespace]) (quiet_int _)

theorem quiet_lengthRule (n : ℕ) : Quiet ("len=" ++ toString n).toList := by
  rw [String.toList_append]
  exact quiet_append (by simp [Quiet, isWhitespace]) (quiet_nat _)

theorem quiet_required : Quiet "required".toList := by
  simp [Quiet, isWhitespace]

/-- The rules that the slot has itself, and what is stray in its texts. -/
theorem answer_textRules {key : String}
    (hpattern : ∀ rest, ruleArgument key ("regexp=".toList ++ rest) = none)
    (hvalues : ∀ rest, ruleArgument key ("oneof=".toList ++ rest) = none) (c : FieldConstraints) :
    answer key (textRules c) = c.strayParts.findSome? (ruleArgument key) := by
  have hone {text : List Char} {keyed : List Char} (hne : keyed ≠ []) (hquiet : Quiet keyed)
      (hnone : ∀ rest, ruleArgument key (keyed ++ rest) = none) {rule : String}
      (hrule : rule.toList = keyed ++ text) :
      answer key [rule] =
        ((rule.toList.splitOn ',').tail.map trim).findSome? (ruleArgument key) := by
    obtain ⟨rest, hparts⟩ := ruleParts_append hne hquiet hrule
    rw [answer, List.flatMap_singleton, hparts, List.findSome?_cons, hnone]
  rw [textRules, answer_append, FieldConstraints.strayParts, textRules, List.flatMap_append,
    List.findSome?_append]
  congr 1
  · cases c.pattern with
    | none => rfl
    | some pattern =>
        simp only [Option.map_some, Option.toList_some, List.flatMap_singleton]
        exact hone (by simp) (by simp [Quiet, isWhitespace]) hpattern
          (String.toList_append (s := "regexp="))
  · cases c.inValues with
    | none => rfl
    | some values =>
        simp only [Option.map_some, Option.toList_some, List.flatMap_singleton]
        exact hone (by simp) (by simp [Quiet, isWhitespace]) hvalues
          (String.toList_append (s := "oneof="))

theorem answer_minRule (n : Int64) (key : String) :
    answer key [minRule n] = ruleArgument key (minRule n).toList :=
  answer_quiet (quiet_minRule n) key

theorem answer_maxRule (n : Int64) (key : String) :
    answer key [maxRule n] = ruleArgument key (maxRule n).toList :=
  answer_quiet (quiet_maxRule n) key

/-- What the rules in front of the authored texts give to a key. -/
theorem answer_tagRules {key : String} (hrequired : ruleArgument key "required".toList = none)
    (hlength : ∀ rest, ruleArgument key ("len=".toList ++ rest) = none) (c : FieldConstraints)
    (required : Bool) :
    answer key (tagRules c required) =
      (((c.min.bind fun n => ruleArgument key (minRule n).toList).or
        (c.max.bind fun n => ruleArgument key (maxRule n).toList)).or
        (c.between.bind fun range => (ruleArgument key (minRule range.1).toList).or
          (ruleArgument key (maxRule range.2).toList))).or (answer key (textRules c)) := by
  have hrange (range : Int64 × Int64) : answer key [minRule range.1, maxRule range.2] =
      (ruleArgument key (minRule range.1).toList).or
        (ruleArgument key (maxRule range.2).toList) := by
    rw [← answer_minRule, ← answer_maxRule, ← answer_append]
    rfl
  have hlen (n : UInt64) : answer key ["len=" ++ toString n.toNat] = none := by
    rw [answer_quiet (quiet_lengthRule _), String.toList_append]
    exact hlength _
  have hreq : answer key (if required then ["required"] else []) = none := by
    cases required with
    | false => rfl
    | true => exact (answer_quiet quiet_required key).trans hrequired
  have hmin : answer key (c.min.map minRule).toList =
      c.min.bind fun n => ruleArgument key (minRule n).toList := by
    cases c.min with
    | none => rfl
    | some n => exact answer_minRule n key
  have hmax : answer key (c.max.map maxRule).toList =
      c.max.bind fun n => ruleArgument key (maxRule n).toList := by
    cases c.max with
    | none => rfl
    | some n => exact answer_maxRule n key
  have hlens : answer key (c.length.map fun n => "len=" ++ toString n.toNat).toList = none := by
    cases c.length with
    | none => rfl
    | some n => exact hlen n
  have hbetween : answer key
      ((c.between.map fun range => [minRule range.1, maxRule range.2]).getD []) =
      c.between.bind fun range => (ruleArgument key (minRule range.1).toList).or
        (ruleArgument key (maxRule range.2).toList) := by
    cases c.between with
    | none => rfl
    | some range => exact hrange range
  rw [tagRules, answer_append, answer_append, answer_append, answer_append, answer_append, hreq,
    hmin, hmax, hlens, hbetween, Option.none_or, Option.or_none]

section Slot

variable {slot : BodySlot} (plain : slot.Plain)

include plain

theorem min_of_body :
    tagRuleValue (validatorTagBody slot.constraints slot.required) "min" =
      slot.constraints.lower.map fun n => toString n.toInt := by
  have hmin (n : Int64) : ruleArgument "min" (minRule n).toList = some (toString n.toInt) := by
    rw [minRule, String.toList_append]
    exact (ruleArgument_key "min" (quiet_int n.toInt)).trans (by rw [String.ofList_toList])
  have hmax (n : Int64) : ruleArgument "min" (maxRule n).toList = none := by
    rw [maxRule, String.toList_append]
    rfl
  rw [tagRuleValue_body, answer_tagRules rfl fun _ => rfl]
  simp only [hmin, hmax]
  have hstray := plain.lower
  rw [FieldConstraints.lower] at hstray ⊢
  cases hc : slot.constraints.min with
  | some n => simp
  | none =>
      cases hb : slot.constraints.between with
      | some range => simp
      | none =>
          rw [hc, hb] at hstray
          have hnone := hstray rfl
          rw [answer_textRules (fun _ => rfl) fun _ => rfl, List.findSome?_eq_none_iff.mpr hnone]
          cases slot.constraints.max <;> rfl

theorem max_of_body :
    tagRuleValue (validatorTagBody slot.constraints slot.required) "max" =
      slot.constraints.upper.map fun n => toString n.toInt := by
  have hmax (n : Int64) : ruleArgument "max" (maxRule n).toList = some (toString n.toInt) := by
    rw [maxRule, String.toList_append]
    exact (ruleArgument_key "max" (quiet_int n.toInt)).trans (by rw [String.ofList_toList])
  have hmin (n : Int64) : ruleArgument "max" (minRule n).toList = none := by
    rw [minRule, String.toList_append]
    rfl
  rw [tagRuleValue_body, answer_tagRules rfl fun _ => rfl]
  simp only [hmin, hmax]
  have hstray := plain.upper
  rw [FieldConstraints.upper] at hstray ⊢
  cases hc : slot.constraints.max with
  | some n => cases slot.constraints.min <;> simp
  | none =>
      cases hb : slot.constraints.between with
      | some range => cases slot.constraints.min <;> simp
      | none =>
          rw [hc, hb] at hstray
          have hnone := hstray rfl
          rw [answer_textRules (fun _ => rfl) fun _ => rfl, List.findSome?_eq_none_iff.mpr hnone]
          cases slot.constraints.min <;> rfl

theorem required_of_body :
    tagHasRule (validatorTagBody slot.constraints slot.required) "required" = slot.required := by
  rw [tagHasRule_body]
  cases hrequired : slot.required with
  | true =>
      refine List.any_eq_true.mpr ⟨"required".toList, ?_, by simp⟩
      refine List.mem_flatMap.mpr ⟨"required", by simp [tagRules], ?_⟩
      rw [ruleParts_of_quiet quiet_required]
      exact List.mem_singleton_self _
  | false =>
      refine List.any_eq_false.mpr fun part hpart => ?_
      rw [decide_eq_true_eq]
      obtain ⟨rule, hrule, hpart⟩ := List.mem_flatMap.mp hpart
      have hnumber {key number : String} (hquiet : Quiet (key ++ number).toList)
          (hne : ∀ rest, key.toList ++ rest ≠ "required".toList)
          (hpart : part ∈ ruleParts (key ++ number)) : part ≠ "required".toList := by
        rw [ruleParts_of_quiet hquiet, List.mem_singleton, String.toList_append] at hpart
        exact hpart ▸ hne _
      have htext {key text : String} (hkey : key.toList ≠ []) (hquiet : Quiet key.toList)
          (hne : ∀ rest, key.toList ++ rest ≠ "required".toList)
          (hmem : key ++ text ∈ textRules slot.constraints)
          (hpart : part ∈ ruleParts (key ++ text)) : part ≠ "required".toList := by
        obtain ⟨rest, hparts⟩ := ruleParts_append hkey hquiet (String.toList_append (s := key))
        rw [hparts] at hpart
        rcases List.mem_cons.mp hpart with rfl | hpart
        · exact hne rest
        · exact plain.required hrequired part (List.mem_flatMap.mpr ⟨_, hmem, hpart⟩)
      simp only [tagRules, List.mem_append] at hrule
      rcases hrule with ((((h | h) | h) | h) | h) | h
      · cases h
      · obtain ⟨n, -, rfl⟩ := Option.map_eq_some_iff.mp (Option.mem_toList.mp h)
        exact hnumber (quiet_minRule n) (by simp) hpart
      · obtain ⟨n, -, rfl⟩ := Option.map_eq_some_iff.mp (Option.mem_toList.mp h)
        exact hnumber (quiet_maxRule n) (by simp) hpart
      · obtain ⟨n, -, rfl⟩ := Option.map_eq_some_iff.mp (Option.mem_toList.mp h)
        exact hnumber (quiet_lengthRule _) (by simp) hpart
      · cases hrange : slot.constraints.between with
        | none => simp [hrange] at h
        | some range =>
            simp only [hrange, Option.map_some, Option.getD_some, List.mem_cons,
              List.not_mem_nil, or_false] at h
            rcases h with rfl | rfl
            · exact hnumber (quiet_minRule _) (by simp) hpart
            · exact hnumber (quiet_maxRule _) (by simp) hpart
      · have hmem := h
        simp only [textRules, List.mem_append, Option.mem_toList, Option.map_eq_some_iff] at h
        rcases h with ⟨pattern, -, rfl⟩ | ⟨values, -, rfl⟩
        · exact htext (by simp) (by simp [Quiet, isWhitespace]) (by simp) hmem hpart
        · exact htext (by simp) (by simp [Quiet, isWhitespace]) (by simp) hmem hpart

end Slot

end Reading

/-! ### What is refused -/

section Refused

open Lazuli.General.CamelCase in
theorem isExported_pascalCase {name : String} (h : isName name = true) :
    isExported (pascalCase name) = true := by
  obtain ⟨text, speakable, nonempty⟩ := exported_pascalCase h
  cases hwords : nameWords name with
  | nil => exact absurd hwords nonempty
  | cons w ws =>
      have hopens := speakable.first w (by rw [hwords]; rfl)
      rw [isExported, text, hwords, upperCamel_cons]
      cases w with
      | nil => cases hopens
      | cons c w =>
          have lower : c.isLower = true := hopens
          simp [capital, Char.isAlpha, lower]

theorem breaks_iff (p : ParseFloat) (wrong : Float64 → Float64 → Bool) (measure : Float64)
    (bound : Option Int64) :
    breaks p.parse wrong measure (bound.map fun n => toString n.toInt) = true ↔
      ∃ n, bound = some n ∧ wrong measure (.ofInt n.toInt) = true := by
  cases bound with
  | none => simp [breaks]
  | some n =>
      rw [breaks, Option.map_some, Option.bind_some, p.parse_int]
      simp

theorem rangeViolation_row (p : ParseFloat) {slot : BodySlot} (plain : slot.Plain)
    {value : Reflected} (told : slot.constraints.ToldFrom value) :
    (rangeViolation p.parse slot.row value).isSome = true ↔
      slot.constraints.OutOfBounds value := by
  have hmin : tagRuleValue slot.row.validate "min" = _ := min_of_body plain
  have hmax : tagRuleValue slot.row.validate "max" = _ := max_of_body plain
  rw [rangeViolation, hmin, hmax, FieldConstraints.OutOfBounds]
  cases hv : value.deref with
  | none => simp
  | some v =>
      obtain ⟨hlower, hupper⟩ := told v hv
      have present : (∃ w, some v = some w ∧
          ((∃ n, slot.constraints.lower = some n ∧ w.Below n.toInt) ∨
            ∃ n, slot.constraints.upper = some n ∧ w.Above n.toInt)) ↔
          (∃ n, slot.constraints.lower = some n ∧ v.Below n.toInt) ∨
            ∃ n, slot.constraints.upper = some n ∧ v.Above n.toInt := by
        simp
      rw [present]
      cases hmeasure : rangeMeasure v with
      | none =>
          simp only [Option.bind_eq_bind, Option.bind_some, hmeasure, Option.bind_none]
          simp [not_below_of_unmeasured hmeasure]
      | some measure =>
          have hbelow : breaks p.parse (fun measure bound => measure.lt bound) measure
              (slot.constraints.lower.map fun n => toString n.toInt) = true ↔
              ∃ n, slot.constraints.lower = some n ∧ v.Below n.toInt := by
            rw [breaks_iff]
            exact exists_congr fun n => and_congr_right fun hn =>
              (compared hmeasure (hlower n hn)).below
          have habove : breaks p.parse (fun measure bound => bound.lt measure) measure
              (slot.constraints.upper.map fun n => toString n.toInt) = true ↔
              ∃ n, slot.constraints.upper = some n ∧ v.Above n.toInt := by
            rw [breaks_iff]
            exact exists_congr fun n => and_congr_right fun hn =>
              (compared hmeasure (hupper n hn)).above
          rw [← hbelow, ← habove]
          simp only [Option.bind_eq_bind, Option.bind_some, hmeasure]
          split
          next below => exact ⟨fun _ => .inl below, fun _ => rfl⟩
          next inside =>
            split
            next above => exact ⟨fun _ => .inr above, fun _ => rfl⟩
            next within => exact ⟨nofun, fun h => absurd h (not_or.mpr ⟨inside, within⟩)⟩

/-- A slot of the path is required and has no constraints. -/
def PathSlot.toBody (slot : PathSlot) : BodySlot where
  name := slot.name
  typeRef := slot.typeRef
  required := true
  constraints := {}
  named := slot.named

theorem plain_toBody (slot : PathSlot) : slot.toBody.Plain where
  required := nofun
  lower _ part hpart := by cases hpart
  upper _ part hpart := by cases hpart

theorem not_outOfBounds_empty (value : Reflected) :
    ¬ FieldConstraints.OutOfBounds {} value := by
  rintro ⟨v, -, ⟨n, hn, -⟩ | ⟨n, hn, -⟩⟩ <;> cases hn

theorem BodySlot.exported_row (slot : BodySlot) : slot.row.exported = true := by
  simp only [BodySlot.row]
  exact isExported_pascalCase slot.named

theorem refused_iff_of_rows (p : ParseFloat) {l : List (BodySlot × Reflected)}
    (plain : ∀ e ∈ l, e.1.Plain) (told : ∀ e ∈ l, e.1.constraints.ToldFrom e.2) :
    (validateInputTags p.parse (.struct (.ofList (l.map fun e => (e.1.row, e.2))))).isSome =
        true ↔
      ∃ e ∈ l, e.1.required = true ∧ isZeroForValidation e.2 = true ∨
        e.1.constraints.OutOfBounds e.2 := by
  have flat : ∀ e ∈ l.map fun e => (e.1.row, e.2),
      e.1.exported = true ∧ e.1.anonymous = false := by
    intro e he
    obtain ⟨slot, -, rfl⟩ := List.mem_map.mp he
    exact ⟨slot.1.exported_row, rfl⟩
  rw [validateInputTags_isSome_iff, collectMissingRequired_ofList flat,
    collectRangeViolations_ofList _ flat]
  simp only [List.mem_map, exists_exists_and_eq_and]
  rw [← exists_or]
  refine exists_congr fun e => ?_
  rw [← and_or_left]
  refine and_congr_right fun he => or_congr ?_ (rangeViolation_row p (plain e he) (told e he))
  have hrequired : tagHasRule e.1.row.validate "required" = e.1.required :=
    required_of_body (plain e he)
  rw [hrequired]

end Refused

/-! ### A quantity and a code -/

/-- The digits of a number without a sign. -/
def readNat (s : List Char) : Option ℤ :=
  if s ≠ [] ∧ s.all Char.isDigit then some (Nat.ofDigitChars 10 s 0) else none

def readInt (s : List Char) : Option ℤ :=
  if s.head? = some '-' then (readNat s.tail).map (-·) else readNat s

theorem readNat_toString (n : ℕ) : readNat (toString n).toList = some (n : ℤ) := by
  have digits : (toString n).toList.all Char.isDigit = true :=
    List.all_eq_true.mpr fun _ => Text.isDigit_of_mem_toString_nat
  rw [readNat, if_pos ⟨Text.toString_nat_ne_empty n, digits⟩]
  have value : Nat.ofDigitChars 10 (toString n).toList 0 = n := by
    have hrepr : (toString n).toList = Nat.toDigits 10 n := by simp [Nat.repr]
    rw [hrepr, Nat.ofDigitChars_ten_toDigits]
  rw [value]

theorem readInt_toString (n : ℤ) : readInt (toString n).toList = some n := by
  cases n with
  | ofNat n =>
      have hsign : (toString n).toList.head? ≠ some '-' := by
        intro h
        have digit := Text.isDigit_of_mem_toString_nat (List.mem_of_mem_head? h)
        cases digit
      have htext : (toString (Int.ofNat n)).toList = (toString n).toList := rfl
      rw [readInt, htext, if_neg hsign, readNat_toString]
      rfl
  | negSucc n =>
      rw [readInt, Text.toList_toString_negSucc, List.head?_cons, if_pos rfl, List.tail_cons,
        readNat_toString]
      rfl

/-- Integers in decimal are all that is read. -/
def decimals : ParseFloat where
  parse s := (readInt s.toList).map .ofInt
  parse_int n := by rw [readInt_toString, Option.map_some]

def quantitySlot : BodySlot where
  name := "quantity"
  typeRef := .builtin .integer
  required := true
  constraints := { min := some 1, max := some 36 }
  named := by decide

/-- The text that an author writes for a value. -/
def authored : Reflected → Option String
  | .string s => some s
  | .int n => some (toString n.toInt)
  | .uint n => some (toString n.toNat)
  | _ => none

/-- What is present breaks one of the constraints, with `matchString` for a pattern and a text. -/
def FieldConstraints.Violates (c : FieldConstraints) (matchString : String → String → Bool)
    (v : Reflected) : Prop :=
  (∃ n, c.min = some n ∧ v.Below n.toInt) ∨ (∃ n, c.max = some n ∧ v.Above n.toInt) ∨
    (∃ a b, c.between = some (a, b) ∧ (v.Below a.toInt ∨ v.Above b.toInt)) ∨
    (∃ n, c.length = some n ∧ ∃ s, v = .string s ∧ s.length ≠ n.toNat) ∨
    (∃ pattern, c.pattern = some pattern ∧ ∃ s, v = .string s ∧ matchString pattern s = false) ∨
    ∃ values, c.inValues = some values ∧ ∃ s, authored v = some s ∧ s ∉ values

/-- An input is refused exactly when a required slot is missing or a constraint is broken. -/
def Enforced (p : ParseFloat) (matchString : String → String → Bool)
    (path : List (PathSlot × Reflected)) (body : List (BodySlot × Reflected)) : Prop :=
  (validateInputTags p.parse (inputStruct path body)).isSome = true ↔
    (∃ e ∈ path, isZeroForValidation e.2 = true) ∨
    ∃ e ∈ body, e.1.required = true ∧ isZeroForValidation e.2 = true ∨
      ∃ v, e.2.deref = some v ∧ e.1.constraints.Violates matchString v

def codeSlot : BodySlot where
  name := "code"
  typeRef := .builtin .text
  required := true
  constraints := { length := some 3 }
  named := by decide

end Lazuli.Codegen.ValidatorTags
