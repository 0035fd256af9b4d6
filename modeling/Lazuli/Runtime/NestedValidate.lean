import Mathlib.Logic.Relation

/-!
Validating nested values (`runtime/go/lazuli/nested_validate.go`).

`validateValue` walks what `reflect` shows of a value and runs the `Validate` of the values below
it. A value that has one owns what is below it (`Due` stops there), and one that only its pointer
has is run where the value can be addressed (`Validates`). Where no pointer and no interface without
`Validate` is around a value with one (`Shown`), all these are run (`validateValue_sound`).
-/

namespace Lazuli.Runtime.NestedValidate

/-- Who has the method `Validate`: nobody, a pointer to the type, or the type itself and so its
pointer. -/
inductive Receiver where
  | none
  | pointer
  | value
  deriving DecidableEq

-- A value by its kind, with what its `Validate` returns. The kinds that are not walked are
-- `scalar`. A nil pointer knows the type that it points to, an interface whether it has the method.
mutual

inductive Value (ε : Type) where
  | scalar (receiver : Receiver) (verdict : Option ε)
  | struct (receiver : Receiver) (verdict : Option ε) (fields : Values ε)
  | slice (receiver : Receiver) (verdict : Option ε) (items : Values ε)
  | array (receiver : Receiver) (verdict : Option ε) (items : Values ε)
  | map (receiver : Receiver) (verdict : Option ε) (entries : Values ε)
  | nilPointer (target : Receiver) (verdict : Option ε)
  | pointer (target : Value ε)
  | nilInterface (implements : Bool)
  | interface (implements : Bool) (held : Value ε)

/-- Only the fields of a struct may be unexported. -/
inductive Values (ε : Type) where
  | nil
  | cons (exported : Bool) (v : Value ε) (rest : Values ε)

end

variable {ε : Type}

namespace Value

/-- The methods of a type that has a name; a pointer and an interface have none in this sense. -/
def receiver : Value ε → Receiver
  | scalar r _ | struct r _ _ | slice r _ _ | array r _ _ | map r _ _ => r
  | nilPointer _ _ | pointer _ | nilInterface _ | interface _ _ => .none

/-- `t.Implements(validatableType)` -/
def implements : Value ε → Bool
  | nilPointer target _ => target ≠ .none
  | pointer target => target.receiver ≠ .none
  | nilInterface implements | interface implements _ => implements
  | v => v.receiver = .value

/-- `reflect.PointerTo(t).Implements(validatableType)` -/
def pointerImplements (v : Value ε) : Bool := v.receiver ≠ .none

def isNil : Value ε → Bool
  | nilPointer _ _ | nilInterface _ => true
  | _ => false

/-- What `Validate` returns. A pointer hands the call on to its target, an interface to what it
holds. -/
def validate : Value ε → Option ε
  | scalar _ verdict | struct _ verdict _ | slice _ verdict _ | array _ verdict _
  | map _ verdict _ | nilPointer _ verdict => verdict
  | pointer v | interface _ v => v.validate
  | nilInterface _ => none

end Value

/-- `none` when there is no validator to run. -/
def callValidate (addressable : Bool) (v : Value ε) : Option (Option ε) :=
  if v.implements then
    if v.isNil then some none else some v.validate
  else if addressable && v.pointerImplements then some v.validate
  else none

mutual

/-- The items of a slice can be addressed, the entries of a map and what an interface holds
cannot. -/
def walkChildren (addressable : Bool) : Value ε → Option ε
  | .nilPointer _ _ | .nilInterface _ | .scalar _ _ => none
  | .pointer v => walkChildren true v
  | .interface _ v => walkChildren false v
  | .struct _ _ fields => walkFields addressable fields
  | .slice _ _ items => walkItems true items
  | .array _ _ items => walkItems addressable items
  | .map _ _ entries => walkItems false entries

def walkFields (addressable : Bool) : Values ε → Option ε
  | .nil => none
  | .cons exported v rest =>
      if exported then
        ((callValidate addressable v).getD (walkChildren addressable v)).or
          (walkFields addressable rest)
      else walkFields addressable rest

def walkItems (addressable : Bool) : Values ε → Option ε
  | .nil => none
  | .cons _ v rest =>
      ((callValidate addressable v).getD (walkChildren addressable v)).or
        (walkItems addressable rest)

end

/-- A value runs its own validator, or its children are walked. -/
def validateNode (addressable : Bool) (v : Value ε) : Option ε :=
  (callValidate addressable v).getD (walkChildren addressable v)

def validateValue (v : Value ε) : Option ε := walkChildren false v

/-! ### What is to be validated -/

namespace Values

def toList : Values ε → List (Bool × Value ε)
  | nil => []
  | cons exported v rest => (exported, v) :: rest.toList

end Values

/-- What `reflect` can go on to from a value, and whether it can be addressed there. -/
inductive Child : Bool × Value ε → Bool × Value ε → Prop where
  | target (a : Bool) (v : Value ε) : Child (a, .pointer v) (true, v)
  | held (a implements : Bool) (v : Value ε) : Child (a, .interface implements v) (false, v)
  | field {a : Bool} {r : Receiver} {verdict : Option ε} {fields : Values ε} {v : Value ε} :
      (true, v) ∈ fields.toList → Child (a, .struct r verdict fields) (a, v)
  | item {a : Bool} {r : Receiver} {verdict : Option ε} {items : Values ε}
      {p : Bool × Value ε} : p ∈ items.toList → Child (a, .slice r verdict items) (true, p.2)
  | element {a : Bool} {r : Receiver} {verdict : Option ε} {items : Values ε}
      {p : Bool × Value ε} : p ∈ items.toList → Child (a, .array r verdict items) (a, p.2)
  | entry {a : Bool} {r : Receiver} {verdict : Option ε} {entries : Values ε}
      {p : Bool × Value ε} : p ∈ entries.toList → Child (a, .map r verdict entries) (false, p.2)

/-- The value has `Validate`, or its pointer has and can be had. -/
def Validates (n : Bool × Value ε) : Prop :=
  (n.2.implements = true ∨ n.1 = true ∧ n.2.pointerImplements = true) ∧ n.2.isNil = false

/-- The outermost values with a validator, at or below a place. -/
inductive Due : Bool × Value ε → Bool × Value ε → Prop where
  | here {n : Bool × Value ε} : Validates n → Due n n
  | deeper {m k n : Bool × Value ε} : ¬ Validates m → Child m k → Due k n → Due m n

/-- The places outside every validator, at or below a place. -/
inductive Outside : Bool × Value ε → Bool × Value ε → Prop where
  | here {n : Bool × Value ε} : ¬ Validates n → Outside n n
  | deeper {m k n : Bool × Value ε} : ¬ Validates m → Child m k → Outside k n → Outside m n

/-- A pointer or an interface around a value with a validator. -/
def Hides (m : Bool × Value ε) : Prop :=
  match m.2 with
  | .pointer v => Validates (true, v)
  | .interface _ v => Validates (false, v)
  | _ => False

/-- The value behind the pointers and interfaces that are passed in. -/
def top (addressable : Bool) : Value ε → Bool × Value ε
  | .pointer v => top true v
  | .interface _ v => top false v
  | v => (addressable, v)

/-- The values that have to validate: below the one that is passed in, the outermost ones with a
validator. -/
def Checked (v : Value ε) (n : Bool × Value ε) : Prop := ∃ k, Child (top false v) k ∧ Due k n

/-- Nothing outside the validators hides one. -/
def Plain (n : Bool × Value ε) : Prop := ∀ m, Outside n m → ¬ Hides m

/-- Outside the validators, no pointer and no interface without one is around a value with one. -/
def Shown (v : Value ε) : Prop := ∀ k, Child (top false v) k → Plain k

/-! ### The walk -/

/-- The answer is an error of one of the values, or they all validate. -/
structure Answers (S : Bool × Value ε → Prop) (r : Option ε) : Prop where
  fails : ∀ e, r = some e → ∃ n, S n ∧ n.2.validate = some e
  passes : r = none → ∀ n, S n → n.2.validate = none

section Walk

variable {a : Bool} {v : Value ε} {S T : Bool × Value ε → Prop} {r r' : Option ε}

theorem Answers.vacuous (h : ∀ n, ¬ S n) : Answers S none where
  fails e eq := by cases eq
  passes _ n mem := absurd mem (h n)

theorem Answers.congr (h : Answers S r) (same : ∀ n, S n ↔ T n) : Answers T r where
  fails e eq := by
    obtain ⟨n, mem, verdict⟩ := h.fails e eq
    exact ⟨n, (same n).mp mem, verdict⟩
  passes eq n mem := h.passes eq n ((same n).mpr mem)

theorem Answers.or (h : Answers S r) (h' : Answers T r') :
    Answers (fun n => S n ∨ T n) (r.or r') := by
  cases r with
  | some e =>
      refine ⟨fun e' eq => ?_, fun eq => by cases eq⟩
      obtain ⟨n, mem, verdict⟩ := h.fails e' eq
      exact ⟨n, .inl mem, verdict⟩
  | none =>
      refine ⟨fun e eq => ?_, fun eq n mem => ?_⟩
      · obtain ⟨n, mem, verdict⟩ := h'.fails e eq
        exact ⟨n, .inr mem, verdict⟩
      · rcases mem with mem | mem
        · exact h.passes rfl n mem
        · exact h'.passes eq n mem

theorem due_iff_of_validates {m n : Bool × Value ε} (h : Validates m) : Due m n ↔ n = m := by
  constructor
  · intro due
    cases due with
    | here _ => rfl
    | deeper not_ _ _ => exact absurd h not_
  · rintro rfl
    exact .here h

theorem due_iff_of_not {m n : Bool × Value ε} (h : ¬ Validates m) :
    Due m n ↔ ∃ k, Child m k ∧ Due k n := by
  constructor
  · intro due
    cases due with
    | here validates => exact absurd validates h
    | deeper _ child due => exact ⟨_, child, due⟩
  · rintro ⟨k, child, due⟩
    exact .deeper h child due

theorem callValidate_of_validates (h : Validates (a, v)) :
    callValidate a v = some v.validate := by
  obtain ⟨has, some⟩ := h
  unfold callValidate
  split
  case isTrue => rw [some]; rfl
  case isFalse no =>
    rcases has with has | ⟨addressable, pointer⟩
    · exact absurd has no
    · rw [if_pos (by simpa using ⟨addressable, pointer⟩)]

/-- Without a validator, nothing is run; a nil that has one is done. -/
theorem callValidate_of_not (h : ¬ Validates (a, v)) :
    callValidate a v = none ∨ callValidate a v = some none ∧ v.isNil = true := by
  unfold callValidate
  split
  case isTrue has =>
    cases nil : v.isNil with
    | false => exact absurd ⟨.inl has, nil⟩ h
    | true => exact .inr ⟨rfl, rfl⟩
  case isFalse no =>
    split
    case isTrue promoted =>
      rw [Bool.and_eq_true] at promoted
      have some : v.isNil = false := by
        cases v <;> simp [Value.pointerImplements, Value.receiver, Value.isNil] at promoted ⊢
      exact absurd ⟨.inr promoted, some⟩ h
    case isFalse => exact .inl rfl

theorem not_child_of_isNil {k : Bool × Value ε} (nil : v.isNil = true) : ¬ Child (a, v) k := by
  intro child
  cases child <;> cases nil

/-- A value answers for itself, or its children do. -/
theorem validateNode_answers (children : ¬ Validates (a, v) →
    Answers (fun n => ∃ k, Child (a, v) k ∧ Due k n) (walkChildren a v)) :
    Answers (Due (a, v)) (validateNode a v) := by
  unfold validateNode
  by_cases validates : Validates (a, v)
  · rw [callValidate_of_validates validates]
    refine ⟨fun e eq => ⟨(a, v), .here validates, eq⟩, fun eq n due => ?_⟩
    obtain rfl := (due_iff_of_validates validates).mp due
    exact eq
  · rcases callValidate_of_not validates with none | ⟨done, nil⟩
    · rw [none]
      exact (children validates).congr fun n => (due_iff_of_not validates).symm
    · rw [done]
      refine Answers.vacuous fun n due => ?_
      obtain ⟨k, child, -⟩ := (due_iff_of_not validates).mp due
      exact not_child_of_isNil nil child

mutual

theorem walkChildren_answers (a : Bool) : ∀ v : Value ε, ¬ Hides (a, v) →
    (∀ k, Child (a, v) k → Plain k) →
      Answers (fun n => ∃ k, Child (a, v) k ∧ Due k n) (walkChildren a v)
  | .scalar _ _, _, _ | .nilPointer _ _, _, _ | .nilInterface _, _, _ => by
      refine Answers.vacuous ?_
      rintro n ⟨k, child, -⟩
      cases child
  | .pointer v, shown, plain => by
      have outside : ¬ Validates (true, v) := shown
      have target := plain _ (.target a v)
      have inner := walkChildren_answers true v (target _ (.here outside))
        fun k child m out => target m (.deeper outside child out)
      refine inner.congr fun n => (due_iff_of_not outside).symm.trans ?_
      constructor
      · exact fun due => ⟨_, .target a v, due⟩
      · rintro ⟨k, child, due⟩
        cases child
        exact due
  | .interface implements v, shown, plain => by
      have outside : ¬ Validates (false, v) := shown
      have held := plain _ (.held a implements v)
      have inner := walkChildren_answers false v (held _ (.here outside))
        fun k child m out => held m (.deeper outside child out)
      refine inner.congr fun n => (due_iff_of_not outside).symm.trans ?_
      constructor
      · exact fun due => ⟨_, .held a implements v, due⟩
      · rintro ⟨k, child, due⟩
        cases child
        exact due
  | .struct r verdict fields, _, plain => by
      refine (walkFields_answers a fields fun v mem => plain _ (.field mem)).congr fun n => ?_
      constructor
      · rintro ⟨v, mem, due⟩
        exact ⟨_, .field mem, due⟩
      · rintro ⟨k, child, due⟩
        cases child with
        | field mem => exact ⟨_, mem, due⟩
  | .slice r verdict items, _, plain => by
      refine (walkItems_answers true items fun p mem => plain _ (.item mem)).congr fun n => ?_
      constructor
      · rintro ⟨p, mem, due⟩
        exact ⟨_, .item mem, due⟩
      · rintro ⟨k, child, due⟩
        cases child with
        | item mem => exact ⟨_, mem, due⟩
  | .array r verdict items, _, plain => by
      refine (walkItems_answers a items fun p mem => plain _ (.element mem)).congr fun n => ?_
      constructor
      · rintro ⟨p, mem, due⟩
        exact ⟨_, .element mem, due⟩
      · rintro ⟨k, child, due⟩
        cases child with
        | element mem => exact ⟨_, mem, due⟩
  | .map r verdict entries, _, plain => by
      refine (walkItems_answers false entries fun p mem => plain _ (.entry mem)).congr fun n => ?_
      constructor
      · rintro ⟨p, mem, due⟩
        exact ⟨_, .entry mem, due⟩
      · rintro ⟨k, child, due⟩
        cases child with
        | entry mem => exact ⟨_, mem, due⟩

theorem walkFields_answers (a : Bool) : ∀ fields : Values ε,
    (∀ v, (true, v) ∈ fields.toList → Plain (a, v)) →
      Answers (fun n => ∃ v, (true, v) ∈ fields.toList ∧ Due (a, v) n) (walkFields a fields)
  | .nil, _ => Answers.vacuous fun n ⟨_, mem, _⟩ => by cases mem
  | .cons true v rest, plain => by
      have plainHere := plain v List.mem_cons_self
      have here := validateNode_answers fun outside =>
        walkChildren_answers a v (plainHere _ (.here outside))
          fun k child m out => plainHere m (.deeper outside child out)
      have later := walkFields_answers a rest fun w mem => plain w (List.mem_cons_of_mem _ mem)
      refine (here.or later).congr fun n => ?_
      simp [Values.toList, or_and_right, exists_or]
  | .cons false v rest, plain => by
      refine (walkFields_answers a rest fun w mem =>
        plain w (List.mem_cons_of_mem _ mem)).congr fun n => ?_
      simp [Values.toList]

theorem walkItems_answers (a : Bool) : ∀ items : Values ε,
    (∀ p ∈ items.toList, Plain (a, p.2)) →
      Answers (fun n => ∃ p ∈ items.toList, Due (a, p.2) n) (walkItems a items)
  | .nil, _ => Answers.vacuous fun n ⟨_, mem, _⟩ => by cases mem
  | .cons exported v rest, plain => by
      have plainHere := plain (exported, v) List.mem_cons_self
      have here := validateNode_answers fun outside =>
        walkChildren_answers a v (plainHere _ (.here outside))
          fun k child m out => plainHere m (.deeper outside child out)
      have later := walkItems_answers a rest fun w mem => plain w (List.mem_cons_of_mem _ mem)
      refine (here.or later).congr fun n => ?_
      simp [Values.toList]

end

theorem walkChildren_top (a : Bool) :
    ∀ v : Value ε, walkChildren a v = walkChildren (top a v).1 (top a v).2
  | .pointer v => walkChildren_top true v
  | .interface _ v => walkChildren_top false v
  | .scalar _ _ | .nilPointer _ _ | .nilInterface _ | .struct _ _ _ | .slice _ _ _ | .array _ _ _
  | .map _ _ _ => rfl

theorem not_hides_top (a : Bool) : ∀ v : Value ε, ¬ Hides (top a v)
  | .pointer v => not_hides_top true v
  | .interface _ v => not_hides_top false v
  | .scalar _ _ | .nilPointer _ _ | .nilInterface _ | .struct _ _ _ | .slice _ _ _ | .array _ _ _
  | .map _ _ _ => id

/-- **Every value that is to be checked is**: the answer is nil when they all validate, and
otherwise an error of one of them. -/
theorem validateValue_sound (v : Value ε) (shown : Shown v) :
    (validateValue v = none ↔ ∀ n, Checked v n → n.2.validate = none) ∧
      ∀ e, validateValue v = some e → ∃ n, Checked v n ∧ n.2.validate = some e := by
  have answers : Answers (Checked v) (validateValue v) := by
    rw [validateValue, walkChildren_top]
    exact walkChildren_answers _ _ (not_hides_top false v) shown
  refine ⟨⟨answers.passes, fun valid => ?_⟩, answers.fails⟩
  cases failed : validateValue v with
  | none => rfl
  | some e =>
      obtain ⟨n, checked, verdict⟩ := answers.fails e failed
      rw [valid n checked] at verdict
      cases verdict

end Walk

/-- A percentage that is out of range. -/
def percentage : Value String := .scalar .value (some "percentage")

/-- A record without `Validate` and one field. -/
def record (field : Value String) : Value String := .struct .none none (.cons true field .nil)

/-- A form with rows, each with a percentage. -/
def rows : Value String := record (.slice .none none (.cons true (record percentage) .nil))

theorem child_record {a : Bool} {field : Value String} {k : Bool × Value String}
    (child : Child (a, record field) k) : k = (a, field) := by
  cases child with
  | field mem =>
      obtain same | none := List.mem_cons.mp mem
      · rw [(Prod.mk.inj same).2]
      · cases none

theorem plain_percentage (a : Bool) : Plain (a, percentage) := by
  intro m out
  have has : Validates (a, percentage) := ⟨.inl rfl, rfl⟩
  cases out with
  | here outside => exact absurd has outside
  | deeper outside _ _ => exact absurd has outside

theorem shown_rows : Shown rows := by
  intro k child
  obtain rfl := child_record child
  intro m out
  cases out with
  | here _ => exact id
  | deeper _ child out =>
      cases child with
      | item mem =>
          obtain rfl | none := List.mem_cons.mp mem
          · cases out with
            | here _ => exact id
            | deeper _ child out =>
                obtain rfl := child_record child
                exact plain_percentage true m out
          · cases none

theorem validateValue_sound_rows :
    (validateValue rows = none ↔ ∀ n, Checked rows n → n.2.validate = none) ∧
      ∀ e, validateValue rows = some e → ∃ n, Checked rows n ∧ n.2.validate = some e :=
  validateValue_sound rows shown_rows

/-- A record with a `Validate` of its own that lets everything pass. -/
def lenient : Value String := .struct .value none (.cons true percentage .nil)

/-- What is inside a value with a validator is left to that validator. -/
theorem lenient_passes :
    ¬ ∀ v : Value String, validateValue v = none ↔
      ∀ n, Relation.TransGen Child (top false v) n →
        n.2.implements = true ∨ n.2.pointerImplements = true → n.2.isNil = false →
          n.2.validate = none := by
  intro all
  have inside : Relation.TransGen Child (false, record lenient) (false, percentage) :=
    .tail (.single (.field List.mem_cons_self)) (.field List.mem_cons_self)
  have passes := (all (record lenient)).mp rfl _ inside (.inl rfl) rfl
  cases passes

end Lazuli.Runtime.NestedValidate
