import Lazuli.Codegen.Schema
import Lazuli.General.GoLiteral

/-!
The values of enums (`emitter/enums/mod.rs`; `generate/ts/format.rs`, `cross_feature.rs`, `zod.rs`
in `lazuli_cli`).

A variant is written three times: as a Go constant, in the union of the TypeScript type and in the
Zod schema. The two in TypeScript are the same literal. A variant without a value is its name in
Go, its name in small letters in TypeScript, and in an enum with a number the next number in Go.
Go decodes an enum with a number as any 64-bit integer.
-/

namespace Lazuli.Codegen.EnumValues

open Ir General

/-! ### Literals -/

/-- A literal as it is written: what stands between its quotes, or a number. -/
inductive Literal where
  | quoted (body : List Char)
  | number (n : Int)
  deriving DecidableEq

def Literal.text : Literal → String
  | .quoted body => "\"" ++ String.ofList body ++ "\""
  | .number n => toString n

/-- A value in JSON. -/
inductive Wire where
  | text (s : List Char)
  | number (n : Int)
  deriving DecidableEq

/-! ### TypeScript -/

def tsEscape (c : Char) : List Char :=
  if c = '\\' then ['\\', '\\']
  else if c = '"' then ['\\', '"']
  else if c = '\n' then ['\\', 'n']
  else if c = '\r' then ['\\', 'r']
  else [c]

def formatTsString (value : List Char) : Literal := .quoted (value.flatMap tsEscape)

def enumVariantTsLiteral (variant : EnumVariant) : Literal :=
  match variant.storageValue with
  | some (.string value) => formatTsString value.toList
  | some (.integer value) => .number value
  | none => formatTsString (variant.name.toList.map Char.toLower)

/-- The members of the union. -/
def tsValues (decl : EnumDecl) : List Literal := decl.variants.map enumVariantTsLiteral

inductive ZodBase where
  | never
  | enum (values : List Literal)
  | literal (value : Literal)
  | union (values : List Literal)

def ZodBase.text : ZodBase → String
  | .never => "z.never()"
  | .enum values => "z.enum([" ++ ", ".intercalate (values.map Literal.text) ++ "])"
  | .literal value => "z.literal(" ++ value.text ++ ")"
  | .union values => "z.union([" ++
      ", ".intercalate (values.map fun value => "z.literal(" ++ value.text ++ ")") ++ "])"

def ZodBase.values : ZodBase → List Literal
  | .never => []
  | .enum values | .union values => values
  | .literal value => [value]

def hasInteger (decl : EnumDecl) : Bool :=
  decl.variants.any fun variant =>
    match variant.storageValue with
    | some (.integer _) => true
    | _ => false

def zodBaseForEnumDecl (decl : EnumDecl) : ZodBase :=
  match decl.variants.map enumVariantTsLiteral with
  | [] => .never
  | values =>
      if !hasInteger decl then .enum values
      else
        match values with
        | [value] => .literal value
        | values => .union values

/-- The escapes of JavaScript that stand for one character. -/
def jsEscape : Char → Option Char
  | 'n' => some '\n'
  | 'r' => some '\r'
  | 't' => some '\t'
  | '"' => some '"'
  | '\\' => some '\\'
  | _ => none

def jsText : List Char → Option (List Char)
  | [] => some []
  | ['\\'] => none
  | '\\' :: c :: rest => (jsEscape c).bind fun c => (jsText rest).map (c :: ·)
  | c :: rest => if c = '"' ∨ c = '\n' ∨ c = '\r' then none else (jsText rest).map (c :: ·)

def Literal.tsValue : Literal → Option Wire
  | .quoted body => (jsText body).map .text
  | .number n => some (.number n)

/-! ### Go -/

inductive StorageKind where
  | int
  | string
  deriving DecidableEq

def classifyStorage (decl : EnumDecl) : StorageKind := if hasInteger decl then .int else .string

def maxInt64 : Int := 2 ^ 63 - 1

def saturatingSucc (n : Int) : Int := if n < maxInt64 then n + 1 else n

/-- The literals of the constants, from the next number on. -/
def constLiterals (storage : StorageKind) : Int → List EnumVariant → List Literal
  | _, [] => []
  | nextOrdinal, variant :: rest =>
      match storage, variant.storageValue with
      | .int, some (.integer n) => .number n :: constLiterals storage (saturatingSucc n) rest
      | .int, _ => .number nextOrdinal :: constLiterals storage (saturatingSucc nextOrdinal) rest
      | .string, some (.string s) => .quoted s.toList :: constLiterals storage nextOrdinal rest
      | .string, _ => .quoted variant.name.toList :: constLiterals storage nextOrdinal rest

def goConstants (decl : EnumDecl) : List Literal :=
  constLiterals (classifyStorage decl) 0 decl.variants

/-- The JSON of a constant. One whose bytes are no text has none that is read back. -/
def Literal.goValue : Literal → Option Wire
  | .quoted body => (GoLiteral.text body).map .text
  | .number n => some (.number n)

/-- What the server decodes into the type: one of the constants, and as a number any. -/
def serverAccepts (decl : EnumDecl) (w : Wire) : Prop :=
  match classifyStorage decl, w with
  | .string, w => ∃ constant ∈ goConstants decl, constant.goValue = some w
  | .int, .number n => -maxInt64 - 1 ≤ n ∧ n ≤ maxInt64
  | .int, .text _ => False

/-! ### Agreement -/

/-- Both literals have the same value. -/
def Agree (ts go : Literal) : Prop := ∃ w, ts.tsValue = some w ∧ go.goValue = some w

def listed (values : List Literal) (w : Wire) : Prop := ∃ value ∈ values, value.tsValue = some w

structure SameLiterals (decl : EnumDecl) : Prop where
  union : List.Forall₂ Agree (tsValues decl) (goConstants decl)
  zod : List.Forall₂ Agree (zodBaseForEnumDecl decl).values (goConstants decl)

/-- Every variant has one value, and the server takes what the SDK types and validates. -/
structure SameWire (decl : EnumDecl) : Prop extends SameLiterals decl where
  typed : ∀ w, serverAccepts decl w ↔ listed (tsValues decl) w
  validated : ∀ w, serverAccepts decl w ↔ listed (zodBaseForEnumDecl decl).values w

/-! ### When they agree -/

def IsNumber (variant : EnumVariant) : Prop := ∃ n, variant.storageValue = some (.integer n)

/-- The variant has a text that needs no escape; its name has no capitals. -/
def IsPlainText (variant : EnumVariant) : Prop :=
  match variant.storageValue with
  | some (.string value) => ∀ c ∈ value.toList, GoLiteral.isPlain c = true
  | some (.integer _) => False
  | none => ∀ c ∈ variant.name.toList, GoLiteral.isPlain c = true ∧ c.isUpper = false

/-- What the string form writes for a variant. -/
def textLiteral (variant : EnumVariant) : Literal :=
  match variant.storageValue with
  | some (.string value) => .quoted value.toList
  | _ => .quoted variant.name.toList

section Values

variable {decl : EnumDecl} {variant : EnumVariant} {variants : List EnumVariant}

theorem zodBase_values (decl : EnumDecl) : (zodBaseForEnumDecl decl).values = tsValues decl := by
  unfold zodBaseForEnumDecl tsValues
  split
  · rename_i h
    exact h.symm
  · split
    · rfl
    · split
      · rename_i h
        exact h.symm
      · rfl

theorem jsText_escape (s : List Char) : jsText (s.flatMap tsEscape) = some s := by
  induction s with
  | nil => rfl
  | cons c s ih =>
      rw [List.flatMap_cons, tsEscape]
      split
      · rename_i hc
        subst hc
        exact congrArg (Option.map _) ih
      split
      · rename_i hc
        subst hc
        exact congrArg (Option.map _) ih
      split
      · rename_i hc
        subst hc
        exact congrArg (Option.map _) ih
      split
      · rename_i hc
        subst hc
        exact congrArg (Option.map _) ih
      · rename_i hslash hquote hnewline hreturn
        rw [List.singleton_append, jsText, if_neg (by simp [hquote, hnewline, hreturn]), ih]
        · rfl
        · exact fun h => absurd h hslash
        · exact fun _ _ h => absurd h hslash

theorem tsValue_format (s : List Char) : (formatTsString s).tsValue = some (.text s) := by
  rw [formatTsString, Literal.tsValue, jsText_escape, Option.map_some]

theorem utf8Size_of_isAlpha {c : Char} (h : c.isAlpha = true) : c.utf8Size = 1 := by
  rw [Char.utf8Size_eq_one_iff]
  simp only [Char.isAlpha, Char.isUpper, Char.isLower, Bool.or_eq_true, decide_eq_true_eq,
    Bool.and_eq_true] at h
  rcases h with ⟨-, h⟩ | ⟨-, h⟩
  · exact UInt32.le_trans h (by decide)
  · exact UInt32.le_trans h (by decide)

theorem utf8Size_toLower (c : Char) : c.toLower.utf8Size = c.utf8Size := by
  cases hupper : c.isUpper with
  | false => rw [Char.toLower_eq_of_not_isUpper (by simp [hupper])]
  | true =>
      have hc : c.isAlpha = true := by simp [Char.isAlpha, hupper]
      have hlower : c.toLower.isAlpha = true := by simpa [Char.isAlpha] using hc
      rw [utf8Size_of_isAlpha hc, utf8Size_of_isAlpha hlower]

theorem size_toLower (s : List Char) : GoLiteral.size (s.map Char.toLower) = GoLiteral.size s := by
  induction s with
  | nil => rfl
  | cons c s ih => rw [List.map_cons, GoLiteral.size_cons, GoLiteral.size_cons, utf8Size_toLower, ih]

/-- A quoted constant agrees with a text that is as long when it is the text. -/
theorem agree_format {s body : List Char} (hsize : GoLiteral.size s = GoLiteral.size body) :
    Agree (formatTsString s) (.quoted body) ↔
      s = body ∧ ∀ c ∈ body, GoLiteral.isPlain c = true := by
  rw [← GoLiteral.text_eq_iff hsize]
  constructor
  · rintro ⟨w, hts, hgo⟩
    obtain rfl := Option.some_inj.mp ((tsValue_format s).symm.trans hts)
    obtain ⟨t, ht, heq⟩ := Option.map_eq_some_iff.mp hgo
    rw [ht, Wire.text.inj heq]
  · intro h
    exact ⟨.text s, tsValue_format s, by rw [Literal.goValue, h, Option.map_some]⟩

theorem toLower_eq_self {c : Char} : c.toLower = c ↔ c.isUpper = false := by
  constructor
  · intro h
    rw [← h]
    exact Char.isUpper_toLower_eq_false c
  · exact fun h => Char.toLower_eq_of_not_isUpper (by simp [h])

theorem map_toLower_eq_self {s : List Char} :
    s.map Char.toLower = s ↔ ∀ c ∈ s, c.isUpper = false := by
  induction s with
  | nil => simp
  | cons c s ih => rw [List.map_cons, List.cons.injEq, List.forall_mem_cons, ih, toLower_eq_self]

/-- Without a number a variant is one constant of the string form. -/
theorem agree_text (h : ¬ IsNumber variant) :
    Agree (enumVariantTsLiteral variant) (textLiteral variant) ↔ IsPlainText variant := by
  unfold enumVariantTsLiteral textLiteral IsPlainText
  cases hvalue : variant.storageValue with
  | none =>
      refine (agree_format (size_toLower _)).trans ?_
      rw [map_toLower_eq_self, ← forall₂_and]
      simp only [and_comm]
  | some value =>
      cases value with
      | integer n => exact absurd ⟨n, hvalue⟩ h
      | string value => exact (agree_format rfl).trans (and_iff_right rfl)

theorem constLiterals_string (next : Int) (variants : List EnumVariant) :
    constLiterals .string next variants = variants.map textLiteral := by
  induction variants with
  | nil => rfl
  | cons variant variants ih =>
      rw [List.map_cons, ← ih]
      unfold textLiteral
      cases hvalue : variant.storageValue with
      | none => simp only [constLiterals, hvalue]
      | some value => cases value <;> simp only [constLiterals, hvalue]

theorem agree_number {n : Int} :
    Agree (enumVariantTsLiteral variant) (.number n) ↔ variant.storageValue = some (.integer n) := by
  have quoted (s : List Char) : ¬ Agree (formatTsString s) (.number n) := by
    rintro ⟨w, hts, hgo⟩
    obtain rfl := Option.some_inj.mp ((tsValue_format s).symm.trans hts)
    cases hgo
  unfold enumVariantTsLiteral
  cases hvalue : variant.storageValue with
  | none => simp [quoted]
  | some value =>
      cases value with
      | string value => simp [quoted]
      | integer m => simp [Agree, Literal.tsValue, Literal.goValue, eq_comm]

/-- In the number form every constant is a number, the one of the variant if it has one. -/
theorem constLiterals_int (next : Int) (variant : EnumVariant) (variants : List EnumVariant) :
    ∃ n, constLiterals .int next (variant :: variants) =
        .number n :: constLiterals .int (saturatingSucc n) variants ∧
      (IsNumber variant ↔ variant.storageValue = some (.integer n)) := by
  unfold IsNumber
  cases hvalue : variant.storageValue with
  | none => exact ⟨next, by simp only [constLiterals, hvalue], by simp⟩
  | some value =>
      cases value with
      | string value => exact ⟨next, by simp only [constLiterals, hvalue], by simp⟩
      | integer n => exact ⟨n, by simp only [constLiterals, hvalue], by simp⟩

theorem agree_int (next : Int) (variants : List EnumVariant) :
    List.Forall₂ Agree (variants.map enumVariantTsLiteral) (constLiterals .int next variants) ↔
      ∀ variant ∈ variants, IsNumber variant := by
  induction variants generalizing next with
  | nil => simp [constLiterals]
  | cons variant variants ih =>
      obtain ⟨n, hconst, hnumber⟩ := constLiterals_int next variant variants
      rw [hconst, List.map_cons, List.forall₂_cons, ih, agree_number, List.forall_mem_cons, hnumber]

theorem agree_string (h : ∀ variant ∈ variants, ¬ IsNumber variant) :
    List.Forall₂ Agree (variants.map enumVariantTsLiteral) (variants.map textLiteral) ↔
      ∀ variant ∈ variants, IsPlainText variant := by
  induction variants with
  | nil => simp
  | cons variant variants ih =>
      obtain ⟨hfirst, hrest⟩ := List.forall_mem_cons.mp h
      rw [List.map_cons, List.map_cons, List.forall₂_cons, List.forall_mem_cons, ih hrest,
        agree_text hfirst]

theorem hasInteger_iff : hasInteger decl = true ↔ ∃ variant ∈ decl.variants, IsNumber variant := by
  rw [hasInteger, List.any_eq_true]
  refine exists_congr fun variant => and_congr_right fun _ => ?_
  unfold IsNumber
  cases variant.storageValue with
  | none => simp
  | some value => cases value <;> simp

theorem isNumber_of_plain (h : IsPlainText variant) : ¬ IsNumber variant := by
  rintro ⟨n, hn⟩
  unfold IsPlainText at h
  rw [hn] at h
  exact h

/-- Agreeing literals have the same values. -/
theorem agree_listed {ts go : List Literal} (h : List.Forall₂ Agree ts go) (w : Wire) :
    (∃ constant ∈ go, constant.goValue = some w) ↔ listed ts w := by
  unfold listed
  induction h with
  | nil => simp
  | cons hagree _ ih =>
      obtain ⟨v, hts, hgo⟩ := hagree
      rw [List.exists_mem_cons_iff, List.exists_mem_cons_iff, hts, hgo, ih]

theorem listed_numbers (h : ∀ variant ∈ decl.variants, IsNumber variant) (w : Wire) :
    listed (tsValues decl) w ↔
      ∃ n, w = .number n ∧ ∃ variant ∈ decl.variants, variant.storageValue = some (.integer n) := by
  constructor
  · rintro ⟨value, hmem, hvalue⟩
    obtain ⟨variant, hvariant, rfl⟩ := List.mem_map.mp hmem
    obtain ⟨n, hn⟩ := h variant hvariant
    rw [enumVariantTsLiteral, hn] at hvalue
    exact ⟨n, (Option.some_inj.mp hvalue).symm, variant, hvariant, hn⟩
  · rintro ⟨n, rfl, variant, hvariant, hn⟩
    refine ⟨.number n, List.mem_map.mpr ⟨variant, hvariant, ?_⟩, rfl⟩
    rw [enumVariantTsLiteral, hn]

theorem classifyStorage_string (h : hasInteger decl = false) : classifyStorage decl = .string := by
  rw [classifyStorage, h]
  rfl

theorem classifyStorage_int (h : hasInteger decl = true) : classifyStorage decl = .int := by
  rw [classifyStorage, h]
  rfl

theorem serverAccepts_string (h : hasInteger decl = false) (w : Wire) :
    serverAccepts decl w ↔ ∃ constant ∈ goConstants decl, constant.goValue = some w := by
  simp only [serverAccepts, classifyStorage_string h]

theorem serverAccepts_int (h : hasInteger decl = true) (w : Wire) :
    serverAccepts decl w ↔ ∃ n, w = .number n ∧ -maxInt64 - 1 ≤ n ∧ n ≤ maxInt64 := by
  cases w <;> simp [serverAccepts, classifyStorage_int h]

/-- The constants agree with the union when all variants have numbers, or all have plain texts. -/
theorem agree_iff (decl : EnumDecl) : List.Forall₂ Agree (tsValues decl) (goConstants decl) ↔
    (∀ variant ∈ decl.variants, IsNumber variant) ∨
      ∀ variant ∈ decl.variants, IsPlainText variant := by
  unfold tsValues goConstants
  cases hint : hasInteger decl with
  | false =>
      have hnone : ∀ variant ∈ decl.variants, ¬ IsNumber variant := fun variant hmem hnumber => by
        rw [hasInteger_iff.mpr ⟨variant, hmem, hnumber⟩] at hint
        cases hint
      rw [classifyStorage_string hint, constLiterals_string, agree_string hnone]
      refine (or_iff_right_of_imp fun hnumbers variant hmem => ?_).symm
      exact absurd (hnumbers variant hmem) (hnone variant hmem)
  | true =>
      obtain ⟨variant, hmem, hnumber⟩ := hasInteger_iff.mp hint
      rw [classifyStorage_int hint, agree_int]
      refine (or_iff_left fun hplain => ?_).symm
      exact isNumber_of_plain (hplain variant hmem) hnumber

theorem sameLiterals_iff (decl : EnumDecl) :
    SameLiterals decl ↔ List.Forall₂ Agree (tsValues decl) (goConstants decl) :=
  ⟨fun h => h.union, fun h => ⟨h, (zodBase_values decl).symm ▸ h⟩⟩

theorem sameWire_iff (decl : EnumDecl) : SameWire decl ↔
    SameLiterals decl ∧ ∀ w, serverAccepts decl w ↔ listed (tsValues decl) w :=
  ⟨fun h => ⟨h.toSameLiterals, h.typed⟩,
    fun ⟨hsame, htyped⟩ => ⟨hsame, htyped, (zodBase_values decl).symm ▸ htyped⟩⟩

theorem hasInteger_of_plain (h : ∀ variant ∈ decl.variants, IsPlainText variant) :
    hasInteger decl = false := by
  rw [Bool.eq_false_iff, Ne, hasInteger_iff]
  rintro ⟨variant, hmem, hnumber⟩
  exact isNumber_of_plain (h variant hmem) hnumber

/-- A text enum takes its constants and no more. -/
theorem sameWire_of_plain (h : ∀ variant ∈ decl.variants, IsPlainText variant) : SameWire decl := by
  have hagree := (agree_iff decl).mpr (.inr h)
  refine (sameWire_iff decl).mpr ⟨(sameLiterals_iff decl).mpr hagree, fun w => ?_⟩
  exact (serverAccepts_string (hasInteger_of_plain h) w).trans (agree_listed hagree w)

/-- A number enum takes every number, so that its variants have to be all numbers. -/
theorem sameWire_numbers (h : ∀ variant ∈ decl.variants, IsNumber variant)
    (hint : hasInteger decl = true) : SameWire decl ↔
      ∀ n : Int, -maxInt64 - 1 ≤ n ∧ n ≤ maxInt64 ↔
        ∃ variant ∈ decl.variants, variant.storageValue = some (.integer n) := by
  have hsame := (sameLiterals_iff decl).mpr ((agree_iff decl).mpr (.inl h))
  rw [sameWire_iff, and_iff_right hsame]
  simp only [serverAccepts_int hint, listed_numbers h]
  constructor
  · intro hall n
    simpa using hall (.number n)
  · intro hall w
    exact exists_congr fun n => and_congr_right fun _ => hall n

/-- **The literals of an enum are the same in both languages exactly when all its variants have
numbers, or all have texts that need no escape, a name standing for itself only when it has no
capitals. The server takes exactly what the client has when the texts are so, or the numbers are
all there are.** -/
theorem enum_values_agree (decl : EnumDecl) :
    (SameLiterals decl ↔ (∀ variant ∈ decl.variants, IsNumber variant) ∨
      ∀ variant ∈ decl.variants, IsPlainText variant) ∧
    (SameWire decl ↔ (∀ variant ∈ decl.variants, IsPlainText variant) ∨
      (∀ variant ∈ decl.variants, IsNumber variant) ∧
        ∀ n : Int, -maxInt64 - 1 ≤ n ∧ n ≤ maxInt64 ↔
          ∃ variant ∈ decl.variants, variant.storageValue = some (.integer n)) := by
  refine ⟨(sameLiterals_iff decl).trans (agree_iff decl), ?_⟩
  constructor
  · intro hwire
    rcases (agree_iff decl).mp ((sameLiterals_iff decl).mp hwire.toSameLiterals) with h | h
    · cases hint : hasInteger decl with
      | false =>
          refine .inl fun variant hmem => ?_
          rw [hasInteger_iff.mpr ⟨variant, hmem, h variant hmem⟩] at hint
          cases hint
      | true => exact .inr ⟨h, (sameWire_numbers h hint).mp hwire⟩
    · exact .inl h
  · rintro (h | ⟨h, hall⟩)
    · exact sameWire_of_plain h
    · obtain ⟨variant, hmem, -⟩ := (hall 0).mp (by decide)
      exact (sameWire_numbers h (hasInteger_iff.mpr ⟨variant, hmem, h variant hmem⟩)).mpr hall

end Values

/-- A stage that is only named. -/
def leadStage : EnumDecl := { name := "Stage", variants := [{ name := "Lead" }] }

/-- Its constant is `"Lead"`, and the client has `"lead"`. -/
theorem lead_written_two_ways : goConstants leadStage = [.quoted "Lead".toList] ∧
    tsValues leadStage = [.quoted "lead".toList] ∧
    (zodBaseForEnumDecl leadStage).values = [.quoted "lead".toList] ∧
    serverAccepts leadStage (.text "Lead".toList) ∧
    ¬ listed (tsValues leadStage) (.text "Lead".toList) ∧
    ¬ serverAccepts leadStage (.text "lead".toList) ∧ ¬ SameLiterals leadStage := by
  have hgo : (Literal.quoted "Lead".toList).goValue = some (.text "Lead".toList) := by
    rw [Literal.goValue, GoLiteral.text_plain (by simp [GoLiteral.isPlain, GoLiteral.isBarred])]
    rfl
  have hts : (Literal.quoted "lead".toList).tsValue = some (.text "lead".toList) := by decide
  have hne : Wire.text "lead".toList ≠ .text "Lead".toList := by decide
  refine ⟨by decide, by decide, by decide, ?_, ?_, ?_, ?_⟩
  · exact ⟨_, List.mem_cons_self, hgo⟩
  · rintro ⟨value, hmem, hvalue⟩
    obtain rfl := List.mem_singleton.mp hmem
    exact hne (Option.some_inj.mp (hts.symm.trans hvalue))
  · rintro ⟨constant, hmem, hvalue⟩
    obtain rfl := List.mem_singleton.mp hmem
    exact hne (Option.some_inj.mp (hgo.symm.trans hvalue)).symm
  · rintro ⟨hunion, -⟩
    obtain ⟨w, hw, hconst⟩ := (List.forall₂_cons.mp hunion).1
    exact hne (Option.some_inj.mp ((hts.symm.trans hw).trans (hconst.symm.trans hgo)))

end Lazuli.Codegen.EnumValues
