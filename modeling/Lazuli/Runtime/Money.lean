import Lazuli.General.GoLiteral

/-!
Money values (`runtime/go/lazuli/money.go`).

`parseMoneyLiteral` reads the default literals `<ISO 4217>:<decimal>`, and `unmarshalJSON` the
values on the wire. `Literal` is the grammar of the literals. `Sound` is what the two decoders are
for: no other literal is accepted, what is accepted survives printing and parsing, and no decoded
value lacks its currency or its amount. `sound_iff` names the literals and the data for which that
holds.
-/

namespace Lazuli.Runtime.Money

open Lazuli.General

structure MoneyValue where
  amount : List Char
  currency : List Char
  deriving DecidableEq

/-- The errors, with the text that is quoted in them. -/
inductive MoneyError where
  | shape (literal : List Char)
  | currency (currency : List Char)
  | amount (amount : List Char)
  | wireCurrency
  | json (cause : String)
  deriving DecidableEq

/-- The format of an error's text. -/
def MoneyError.format : MoneyError → String
  | .shape _ => "money literal must be \"<ISO 4217>:<decimal>\" (got %q)"
  | .currency _ => "money literal currency must be 3-letter ISO 4217 uppercase (got %q)"
  | .amount _ => "money literal amount must contain a decimal point — bare integer rejected to " ++
      "prevent 100x errors (got %q)"
  | .wireCurrency => "lazuli: MoneyValue.Currency must be 3-letter ISO 4217 uppercase"
  | .json cause => cause

/-- `unicode.ToUpper`: in ASCII it raises the small letters. -/
structure UpperCase where
  toUpper : Char → Char
  ascii : ∀ c, c.val < 128 → toUpper c = c.toUpper

/-- `encoding/json`, for an object of the two texts: what it writes it can read. -/
structure Codec (Data : Type*) where
  marshal : MoneyValue → Data
  unmarshal : Data → Except String MoneyValue
  unmarshal_marshal : ∀ m, unmarshal (marshal m) = .ok m

section Decoders

variable {Data : Type*} (upper : UpperCase) (codec : Codec Data)

/-- Three bytes that `strings.ToUpper` leaves alone. -/
def isCurrency (currency : List Char) : Bool :=
  GoLiteral.size currency = 3 && currency = currency.map upper.toUpper

/-- The currency ends at the first colon. -/
def parseMoneyLiteral (literal : List Char) : Except MoneyError MoneyValue :=
  let currency := literal.takeWhile (· ≠ ':')
  let amount := (literal.dropWhile (· ≠ ':')).tail
  if currency = [] ∨ amount = [] then .error (.shape literal)
  else if isCurrency upper currency = false then .error (.currency currency)
  else if '.' ∉ amount then .error (.amount amount)
  else .ok ⟨amount, currency⟩

def marshalJSON (m : MoneyValue) : Data := codec.marshal m

def unmarshalJSON (data : Data) : Except MoneyError MoneyValue :=
  match codec.unmarshal data with
  | .error cause => .error (.json cause)
  | .ok wire =>
      if wire.currency ≠ [] ∧ isCurrency upper wire.currency = false then .error .wireCurrency
      else .ok wire

end Decoders

/-! ### What the decoders are for -/

/-- A number in decimal with digits on both sides of its point. -/
def Decimal (amount : List Char) : Prop :=
  ∃ whole part, amount = whole ++ '.' :: part ∧ whole ≠ [] ∧ part ≠ [] ∧
    whole.all Char.isDigit = true ∧ part.all Char.isDigit = true

/-- Three capital letters. -/
def Letters (currency : List Char) : Prop :=
  currency.length = 3 ∧ currency.all Char.isUpper = true

/-- `<ISO 4217>:<decimal>`. -/
def Literal (literal : List Char) : Prop :=
  ∃ currency amount, literal = currency ++ ':' :: amount ∧ Letters currency ∧ Decimal amount

/-- A value as a literal. -/
def MoneyValue.literal (m : MoneyValue) : List Char := m.currency ++ ':' :: m.amount

section Sound

variable {Data : Type*} (upper : UpperCase) (codec : Codec Data)

structure Sound (literal : List Char) (data : Data) : Prop where
  grammar : (∃ m, parseMoneyLiteral upper literal = .ok m) ↔ Literal literal
  roundTrip : ∀ m, parseMoneyLiteral upper literal = .ok m →
    parseMoneyLiteral upper m.literal = .ok m ∧
      unmarshalJSON upper codec (marshalJSON codec m) = .ok m
  whole : ∀ m, unmarshalJSON upper codec data = .ok m → m.currency ≠ [] ∧ m.amount ≠ []

/-- A currency that passes, with an amount that has a point, is of letters, and the amount is a
decimal. -/
def LiteralProper (literal : List Char) : Prop :=
  ∀ currency amount, literal = currency ++ ':' :: amount → ':' ∉ currency →
    isCurrency upper currency = true → '.' ∈ amount → Letters currency ∧ Decimal amount

/-- The object has a currency, and an amount unless the currency is refused. -/
def DataProper (data : Data) : Prop :=
  ∀ wire, codec.unmarshal data = .ok wire → wire.currency ≠ [] ∧
    (isCurrency upper wire.currency = true → wire.amount ≠ [])

end Sound

section Proofs

variable {Data : Type*} {upper : UpperCase} {codec : Codec Data}
  {literal currency amount : List Char} {data : Data} {m : MoneyValue}

theorem currency_ne_nil (h : isCurrency upper currency = true) : currency ≠ [] := by
  rintro rfl
  simp [isCurrency, GoLiteral.size] at h

/-- The parser takes the text apart at its first colon. -/
theorem parseMoneyLiteral_eq_ok_iff :
    parseMoneyLiteral upper literal = .ok m ↔
      literal = m.literal ∧ ':' ∉ m.currency ∧ isCurrency upper m.currency = true ∧
        '.' ∈ m.amount := by
  constructor
  · intro h
    simp only [parseMoneyLiteral] at h
    split at h
    case isTrue => cases h
    split at h
    case isTrue => cases h
    split at h
    case isTrue => cases h
    case isFalse parts passes point =>
      rw [Bool.not_eq_false] at passes
      rw [not_not] at point
      obtain rfl := Except.ok.inj h
      refine ⟨?_, fun mem => by simpa using List.mem_takeWhile_imp mem, passes, point⟩
      have split := List.takeWhile_append_dropWhile (p := (· ≠ ':')) (l := literal)
      have colon := List.head?_dropWhile_not (· ≠ ':') literal
      cases rest : literal.dropWhile (· ≠ ':') with
      | nil => exact absurd (.inr (by rw [rest]; rfl)) parts
      | cons c amount =>
          rw [rest] at split colon
          obtain rfl : c = ':' := by simpa using colon
          exact split.symm
  · rintro ⟨rfl, clean, passes, point⟩
    have each : ∀ c ∈ m.currency, decide (c ≠ ':') = true := by
      intro c mem
      rw [decide_eq_true_iff]
      rintro rfl
      exact clean mem
    have front : m.literal.takeWhile (· ≠ ':') = m.currency := by
      rw [MoneyValue.literal, List.takeWhile_append_of_pos each,
        List.takeWhile_cons_of_neg (by simp), List.append_nil]
    have back : (m.literal.dropWhile (· ≠ ':')).tail = m.amount := by
      rw [MoneyValue.literal, List.dropWhile_append_of_pos each,
        List.dropWhile_cons_of_neg (by simp), List.tail_cons]
    have ne : ¬ (m.currency = [] ∨ m.amount = []) := by
      rintro (none | none)
      · exact currency_ne_nil passes none
      · rw [none] at point
        cases point
    simp only [parseMoneyLiteral, front, back, if_neg ne, passes, point]
    rfl

theorem range_of_isUpper {c : Char} (h : c.isUpper = true) :
    65 ≤ c.val.toNat ∧ c.val.toNat ≤ 90 := by
  simp only [Char.isUpper, decide_eq_true_eq, ge_iff_le, UInt32.le_iff_toNat_le] at h
  exact h

theorem size_of_capitals (h : ∀ c ∈ currency, c.isUpper = true) :
    GoLiteral.size currency = currency.length := by
  induction currency with
  | nil => rfl
  | cons c currency ih =>
      obtain ⟨capital, rest⟩ := List.forall_mem_cons.mp h
      have byte : c.utf8Size = 1 := by
        have := range_of_isUpper capital
        exact Char.utf8Size_eq_one_iff.mpr (UInt32.le_iff_toNat_le.mpr
          (show c.val.toNat ≤ 127 by omega))
      rw [GoLiteral.size_cons, ih rest, byte, List.length_cons, Nat.add_comm]

/-- Capital letters are left alone, and take one byte each. -/
theorem isCurrency_of_letters (h : Letters currency) : isCurrency upper currency = true := by
  obtain ⟨three, capitals⟩ := h
  rw [List.all_eq_true] at capitals
  have fixed : ∀ c ∈ currency, upper.toUpper c = c := by
    intro c mem
    have range := range_of_isUpper (capitals c mem)
    rw [upper.ascii c (UInt32.lt_iff_toNat_lt.mpr (show c.val.toNat < 128 by omega))]
    exact Char.toUpper_eq_of_not_isLower (Char.not_isLower_of_isUpper (capitals c mem))
  have same : currency.map upper.toUpper = currency :=
    (List.map_congr_left fixed).trans (List.map_id _)
  simp [isCurrency, size_of_capitals capitals, three, same]

theorem not_mem_of_letters (h : Letters currency) : ':' ∉ currency := by
  intro mem
  cases List.all_eq_true.mp h.2 _ mem

theorem parse_of_letters (letters : Letters m.currency) (decimal : Decimal m.amount) :
    parseMoneyLiteral upper m.literal = .ok m := by
  obtain ⟨whole, part, split, -⟩ := decimal
  exact parseMoneyLiteral_eq_ok_iff.mpr ⟨rfl, not_mem_of_letters letters,
    isCurrency_of_letters letters, split ▸ List.mem_append_right whole List.mem_cons_self⟩

/-- The grammar is kept exactly when what passes is in it. -/
theorem grammar_iff : ((∃ m, parseMoneyLiteral upper literal = .ok m) ↔ Literal literal) ↔
    LiteralProper upper literal := by
  constructor
  · intro grammar currency amount split clean passes point
    have accepted : parseMoneyLiteral upper literal = .ok ⟨amount, currency⟩ :=
      parseMoneyLiteral_eq_ok_iff.mpr ⟨split, clean, passes, point⟩
    obtain ⟨currency', amount', same, letters, decimal⟩ := grammar.mp ⟨_, accepted⟩
    have parsed : parseMoneyLiteral upper literal = .ok ⟨amount', currency'⟩ :=
      same ▸ parse_of_letters (m := ⟨amount', currency'⟩) letters decimal
    obtain ⟨rfl, rfl⟩ := MoneyValue.mk.inj (Except.ok.inj (accepted.symm.trans parsed))
    exact ⟨letters, decimal⟩
  · intro proper
    constructor
    · rintro ⟨m, accepted⟩
      obtain ⟨split, clean, passes, point⟩ := parseMoneyLiteral_eq_ok_iff.mp accepted
      obtain ⟨letters, decimal⟩ := proper _ _ split clean passes point
      exact ⟨m.currency, m.amount, split, letters, decimal⟩
    · rintro ⟨currency, amount, rfl, letters, decimal⟩
      exact ⟨⟨amount, currency⟩, parse_of_letters (m := ⟨amount, currency⟩) letters decimal⟩

theorem unmarshalJSON_eq_ok_iff : unmarshalJSON upper codec data = .ok m ↔
    codec.unmarshal data = .ok m ∧ (m.currency = [] ∨ isCurrency upper m.currency = true) := by
  unfold unmarshalJSON
  cases codec.unmarshal data with
  | error cause => simp
  | ok wire =>
      simp only [Except.ok.injEq]
      constructor
      · intro h
        split at h
        case isTrue => cases h
        case isFalse passes =>
          cases h
          rw [not_and_or, not_not, Bool.not_eq_false] at passes
          exact ⟨rfl, passes⟩
      · rintro ⟨rfl, passes⟩
        rw [if_neg]
        rintro ⟨ne, refused⟩
        rcases passes with none | passes
        · exact ne none
        · rw [passes] at refused
          cases refused

/-- What is accepted survives printing and parsing, whatever it is. -/
theorem roundTrip (accepted : parseMoneyLiteral upper literal = .ok m) :
    parseMoneyLiteral upper m.literal = .ok m ∧
      unmarshalJSON upper codec (marshalJSON codec m) = .ok m := by
  obtain ⟨rfl, -, passes, -⟩ := parseMoneyLiteral_eq_ok_iff.mp accepted
  exact ⟨accepted, unmarshalJSON_eq_ok_iff.mpr ⟨codec.unmarshal_marshal m, .inr passes⟩⟩

theorem whole_iff : (∀ m, unmarshalJSON upper codec data = .ok m → m.currency ≠ [] ∧
    m.amount ≠ []) ↔ DataProper upper codec data := by
  simp only [unmarshalJSON_eq_ok_iff]
  constructor
  · intro whole wire decoded
    constructor
    · intro none
      exact (whole wire ⟨decoded, .inl none⟩).1 none
    · intro passes
      exact (whole wire ⟨decoded, .inr passes⟩).2
  · rintro proper m ⟨decoded, passes⟩
    obtain ⟨currency, amount⟩ := proper m decoded
    exact ⟨currency, amount (passes.resolve_left currency)⟩

end Proofs

/-- **The decoders are sound** where what passes is of letters and digits, and the object has its
currency and its amount. -/
theorem sound_iff {Data : Type*} (upper : UpperCase) (codec : Codec Data) (literal : List Char)
    (data : Data) : Sound upper codec literal data ↔
      LiteralProper upper literal ∧ DataProper upper codec data := by
  constructor
  · intro sound
    exact ⟨grammar_iff.mp sound.grammar, whole_iff.mp sound.whole⟩
  · rintro ⟨literal, data⟩
    exact ⟨grammar_iff.mpr literal, fun m accepted => roundTrip accepted, whole_iff.mpr data⟩

/-- Upper case in ASCII. -/
def asciiUpper : UpperCase where
  toUpper := Char.toUpper
  ascii _ _ := rfl

/-- Data that are the objects themselves. -/
def objectCodec : Codec MoneyValue where
  marshal m := m
  unmarshal m := .ok m
  unmarshal_marshal _ := rfl

/-- A lone point is an amount, and the empty object a value. -/
theorem lone_point_accepted :
    parseMoneyLiteral asciiUpper "BRL:.".toList = .ok ⟨['.'], "BRL".toList⟩ ∧
      unmarshalJSON asciiUpper objectCodec ⟨[], []⟩ = .ok ⟨[], []⟩ ∧
      ¬ ∀ literal data, Sound asciiUpper objectCodec literal data := by
  have accepted : parseMoneyLiteral asciiUpper "BRL:.".toList = .ok ⟨['.'], "BRL".toList⟩ := rfl
  refine ⟨accepted, rfl, fun sound => ?_⟩
  obtain ⟨currency, amount, split, ⟨three, -⟩, whole, part, rfl, some, some', -⟩ :=
    (sound "BRL:.".toList ⟨[], []⟩).grammar.mp ⟨_, accepted⟩
  have length := congrArg List.length split
  have := List.length_pos_iff.mpr some
  have := List.length_pos_iff.mpr some'
  simp only [List.length_append, List.length_cons, three] at length
  have five : "BRL:.".toList.length = 5 := rfl
  omega

end Lazuli.Runtime.Money
