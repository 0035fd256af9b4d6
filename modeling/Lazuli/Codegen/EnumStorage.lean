import Lazuli.Codegen.Casing
import Lazuli.Codegen.EnumValues

/-!
What the variants of an enum are stored as (`emit_enum` and `classify_storage` in
`emitter/enums/mod.rs`).

In an enum with a number, every number starts a block: the variants behind it that have none
count on from it. Blocks know nothing of each other. In an enum of texts a variant without a
text is stored as its name, which may be the text of another one.
-/

namespace Lazuli.Codegen.EnumValues

open Ir General
open Lazuli.Runtime (pascalCase)

/-! ### Stored values -/

inductive Stored where
  | bytes (bs : List UInt8)
  | number (n : Int)
  deriving DecidableEq

def Literal.stored : Literal → Option Stored
  | .quoted body => (GoLiteral.bytes body).map .bytes
  | .number n => some (.number n)

/-- No two variants are written or stored alike. -/
structure Injective (decl : EnumDecl) : Prop where
  literals : (goConstants decl).Nodup
  stored : (goConstants decl).Pairwise fun a b => ∀ s, a.stored = some s → b.stored ≠ some s

/-! ### Blocks -/

/-- A number, and how many variants count from it. -/
structure Block where
  start : Int
  length : Nat
  deriving DecidableEq

def blocksFrom (start : Int) (length : Nat) : List EnumVariant → List Block
  | [] => [⟨start, length⟩]
  | variant :: rest =>
      match variant.storageValue with
      | some (.integer n) => ⟨start, length⟩ :: blocksFrom n 1 rest
      | _ => blocksFrom start (length + 1) rest

/-- The first block starts at zero and may be empty. -/
def blocks (decl : EnumDecl) : List Block := blocksFrom 0 0 decl.variants

/-- The last number of the block is one of 64 bits. -/
def Block.Fits (b : Block) : Prop := b.length ≤ 1 ∨ b.start + b.length ≤ maxInt64 + 1

def Block.Apart (a b : Block) : Prop :=
  a.length = 0 ∨ b.length = 0 ∨ a.start + a.length ≤ b.start ∨ b.start + b.length ≤ a.start

def Block.numbers (b : Block) : List Int :=
  (List.range b.length).map fun k => saturatingSucc^[k] b.start

/-! ### Texts -/

/-- The text of a variant, which is its name when it has none. -/
def textOf (variant : EnumVariant) : List Char :=
  match variant.storageValue with
  | some (.string value) => value.toList
  | _ => variant.name.toList

/-- Texts that Go reads alike because of an escape in one of them. -/
def EscapedAlike (s t : List Char) : Prop :=
  ('\\' ∈ s ∨ '\\' ∈ t) ∧ ∃ bs, GoLiteral.bytes s = some bs ∧ GoLiteral.bytes t = some bs

/-- Where the literals of an enum are distinct. -/
def Separate (decl : EnumDecl) : Prop :=
  match classifyStorage decl with
  | .int => (∀ b ∈ blocks decl, b.Fits) ∧ (blocks decl).Pairwise Block.Apart
  | .string =>
      (∀ bare ∈ decl.variants, bare.storageValue = none →
        ∀ variant ∈ decl.variants, variant.storageValue ≠ some (.string bare.name)) ∧
      (decl.variants.map textOf).Pairwise fun s t => ¬EscapedAlike s t

/-! ### Numbers of a block -/

section Numbers

variable {start : Int} {k : Nat} {a b : Block}

theorem iterate_saturatingSucc (fits : start + k ≤ maxInt64) :
    saturatingSucc^[k] start = start + k := by
  induction k with
  | zero => simp
  | succ k ih =>
      rw [Function.iterate_succ_apply', ih (by omega), saturatingSucc, if_pos (by omega)]
      omega

theorem le_iterate_saturatingSucc (large : maxInt64 ≤ start + k) :
    maxInt64 ≤ saturatingSucc^[k] start := by
  induction k with
  | zero => simpa using large
  | succ k ih =>
      rw [Function.iterate_succ_apply', saturatingSucc]
      rcases Int.lt_or_le (start + k) maxInt64 with small | reached
      · rw [iterate_saturatingSucc small.le, if_pos small]
        omega
      · have := ih reached
        split <;> omega

theorem nodup_numbers_iff : b.numbers.Nodup ↔ b.Fits := by
  constructor
  · intro nodup
    by_contra unfit
    obtain ⟨long, past⟩ : ¬b.length ≤ 1 ∧ ¬b.start + b.length ≤ maxInt64 + 1 := not_or.mp unfit
    have stuck : saturatingSucc^[b.length - 1] b.start = saturatingSucc^[b.length - 2] b.start := by
      have reached : maxInt64 ≤ saturatingSucc^[b.length - 2] b.start :=
        le_iterate_saturatingSucc (by omega)
      rw [show b.length - 1 = b.length - 2 + 1 by omega, Function.iterate_succ_apply',
        saturatingSucc, if_neg (not_lt.mpr reached)]
    have same := List.inj_on_of_nodup_map nodup (List.mem_range.mpr (by omega))
      (List.mem_range.mpr (by omega)) stuck
    omega
  · intro fits
    refine List.Nodup.map_on (fun i memI j memJ eq => ?_) List.nodup_range
    have boundI := List.mem_range.mp memI
    have boundJ := List.mem_range.mp memJ
    rcases fits with short | fits
    · omega
    · rw [iterate_saturatingSucc (by omega), iterate_saturatingSucc (by omega)] at eq
      omega

theorem mem_numbers (fits : b.Fits) {n : Int} :
    n ∈ b.numbers ↔ b.start ≤ n ∧ n < b.start + b.length := by
  have value : ∀ k < b.length, saturatingSucc^[k] b.start = b.start + k := by
    intro k bound
    rcases fits with short | fits
    · obtain rfl : k = 0 := by omega
      simp
    · exact iterate_saturatingSucc (by omega)
  rw [Block.numbers, List.mem_map]
  constructor
  · rintro ⟨k, mem, rfl⟩
    have bound := List.mem_range.mp mem
    rw [value k bound]
    omega
  · rintro ⟨low, high⟩
    refine ⟨(n - b.start).toNat, List.mem_range.mpr (by omega), ?_⟩
    rw [value _ (by omega)]
    omega

theorem disjoint_numbers_iff (fitsA : a.Fits) (fitsB : b.Fits) :
    List.Disjoint a.numbers b.numbers ↔ a.Apart b := by
  have disjoint : List.Disjoint a.numbers b.numbers ↔ ∀ n, a.start ≤ n ∧ n < a.start + a.length →
      ¬(b.start ≤ n ∧ n < b.start + b.length) := by
    simp only [List.Disjoint, mem_numbers fitsA, mem_numbers fitsB]
  rw [disjoint, Block.Apart]
  constructor
  · intro apart
    have := apart (max a.start b.start)
    omega
  · intro apart n
    omega

/-- The literals are the numbers of the blocks, one after the other. -/
theorem constLiterals_blocks (start : Int) (length : Nat) (variants : List EnumVariant) :
    (Block.numbers ⟨start, length⟩).map Literal.number ++
        constLiterals .int (saturatingSucc^[length] start) variants =
      ((blocksFrom start length variants).flatMap Block.numbers).map Literal.number := by
  induction variants generalizing start length with
  | nil => simp [blocksFrom, constLiterals]
  | cons variant variants ih =>
      have counted : Block.numbers ⟨start, length + 1⟩ =
          Block.numbers ⟨start, length⟩ ++ [saturatingSucc^[length] start] := by
        simp [Block.numbers, List.range_succ]
      have bare : (Block.numbers ⟨start, length⟩).map Literal.number ++
          .number (saturatingSucc^[length] start) ::
            constLiterals .int (saturatingSucc (saturatingSucc^[length] start)) variants =
          ((blocksFrom start (length + 1) variants).flatMap Block.numbers).map Literal.number := by
        rw [← ih, counted, List.map_append, List.append_assoc, Function.iterate_succ_apply']
        rfl
      cases value : variant.storageValue with
      | none => simpa only [constLiterals, blocksFrom, value] using bare
      | some storage =>
          cases storage with
          | string s => simpa only [constLiterals, blocksFrom, value] using bare
          | integer n =>
              simp only [constLiterals, blocksFrom, value, List.flatMap_cons, List.map_append]
              rw [← ih]
              rfl

end Numbers

/-! ### Texts of an enum -/

section Texts

variable {decl : EnumDecl} {s t : List Char}

theorem textLiteral_eq (variant : EnumVariant) :
    textLiteral variant = .quoted (textOf variant) := by
  unfold textLiteral textOf
  cases variant.storageValue with
  | none => rfl
  | some storage => cases storage <;> rfl

theorem quoted_injective : Function.Injective Literal.quoted :=
  fun _ _ eq => Literal.quoted.inj eq

/-- Without escapes Go reads different texts differently. -/
theorem eq_of_bytes_eq {bs : List UInt8} (plainS : '\\' ∉ s) (plainT : '\\' ∉ t)
    (readS : GoLiteral.bytes s = some bs) (readT : GoLiteral.bytes t = some bs) : s = t := by
  have same : GoLiteral.text s = GoLiteral.text t := by
    rw [GoLiteral.text, GoLiteral.text, readS, readT]
  rw [GoLiteral.text_plain (GoLiteral.plain_of_bytes readS plainS),
    GoLiteral.text_plain (GoLiteral.plain_of_bytes readT plainT)] at same
  exact Option.some_inj.mp same

theorem stored_apart_iff (ne : s ≠ t) :
    (∀ v, (Literal.quoted s).stored = some v → (Literal.quoted t).stored ≠ some v) ↔
      ¬EscapedAlike s t := by
  constructor
  · rintro apart ⟨-, bs, readS, readT⟩
    have storedS : (Literal.quoted s).stored = some (.bytes bs) := by rw [Literal.stored, readS]; rfl
    have storedT : (Literal.quoted t).stored = some (.bytes bs) := by rw [Literal.stored, readT]; rfl
    exact apart _ storedS storedT
  · intro unlike v storedS storedT
    obtain ⟨bs, readS, rfl⟩ := Option.map_eq_some_iff.mp storedS
    obtain ⟨_, readT, eq⟩ := Option.map_eq_some_iff.mp storedT
    cases eq
    by_cases escaped : '\\' ∈ s ∨ '\\' ∈ t
    · exact unlike ⟨escaped, bs, readS, readT⟩
    · obtain ⟨plainS, plainT⟩ := not_or.mp escaped
      exact ne (eq_of_bytes_eq plainS plainT readS readT)

theorem goConstants_string (texts : hasInteger decl = false) :
    goConstants decl = (decl.variants.map textOf).map .quoted := by
  rw [goConstants, classifyStorage_string texts, constLiterals_string, List.map_map]
  exact List.map_congr_left fun variant _ => textLiteral_eq variant

theorem injective_string_iff (texts : hasInteger decl = false) : Injective decl ↔
    (decl.variants.map textOf).Nodup ∧
      (decl.variants.map textOf).Pairwise fun s t => ¬EscapedAlike s t := by
  constructor
  · rintro ⟨literals, stored⟩
    rw [goConstants_string texts] at literals stored
    have nodup := (List.nodup_map_iff quoted_injective).mp literals
    refine ⟨nodup, ?_⟩
    exact nodup.imp₂ (fun _ _ ne apart => (stored_apart_iff ne).mp apart)
      (List.pairwise_map.mp stored)
  · rintro ⟨nodup, unlike⟩
    constructor
    · rw [goConstants_string texts]
      exact (List.nodup_map_iff quoted_injective).mpr nodup
    · rw [goConstants_string texts]
      exact List.pairwise_map.mpr
        (nodup.imp₂ (fun _ _ ne apart => (stored_apart_iff ne).mpr apart) unlike)

/-- Names and texts are distinct among themselves, so only a name can be the text of another
variant. -/
theorem nodup_texts_iff
    (names : (decl.variants.map fun variant => pascalCase variant.name).Nodup)
    (explicit : (decl.variants.filterMap EnumVariant.storageValue).Nodup)
    (texts : hasInteger decl = false) :
    (decl.variants.map textOf).Nodup ↔ ∀ bare ∈ decl.variants, bare.storageValue = none →
      ∀ variant ∈ decl.variants, variant.storageValue ≠ some (.string bare.name) := by
  constructor
  · intro nodup bare memBare none variant mem text
    have same : textOf variant = textOf bare := by
      simp only [textOf, text, none]
    have eq := List.inj_on_of_nodup_map nodup mem memBare same
    rw [eq, none] at text
    cases text
  · intro apart
    have pairs := (List.pairwise_map.mp names).and (List.pairwise_filterMap.mp explicit)
    refine List.pairwise_map.mpr (pairs.imp_of_mem fun {a b} memA memB h => ?_)
    have number : ∀ v ∈ decl.variants, ∀ n, v.storageValue ≠ some (.integer n) := by
      intro v mem n value
      have : hasInteger decl = true := hasInteger_iff.mpr ⟨v, mem, n, value⟩
      rw [texts] at this
      cases this
    intro same
    cases valueA : a.storageValue with
    | none =>
        cases valueB : b.storageValue with
        | none =>
            simp only [textOf, valueA, valueB] at same
            exact h.1 (congrArg pascalCase (String.toList_injective same))
        | some storage =>
            cases storage with
            | integer n => exact number b memB n valueB
            | string text =>
                simp only [textOf, valueA, valueB] at same
                exact apart a memA valueA b memB
                  (by rw [valueB, String.toList_injective same])
    | some storage =>
        cases storage with
        | integer n => exact number a memA n valueA
        | string text =>
            cases valueB : b.storageValue with
            | none =>
                simp only [textOf, valueA, valueB] at same
                exact apart b memB valueB a memA
                  (by rw [valueA, String.toList_injective same])
            | some storage =>
                cases storage with
                | integer n => exact number b memB n valueB
                | string other =>
                    simp only [textOf, valueA, valueB] at same
                    exact h.2 _ valueA _ valueB (by rw [String.toList_injective same])

end Texts

/-! ### Distinct values -/

theorem injective_int_iff {decl : EnumDecl} (numbers : hasInteger decl = true) :
    Injective decl ↔ (∀ b ∈ blocks decl, b.Fits) ∧ (blocks decl).Pairwise Block.Apart := by
  have literals : goConstants decl = ((blocks decl).flatMap Block.numbers).map .number := by
    rw [goConstants, classifyStorage_int numbers, blocks, ← constLiterals_blocks]
    rfl
  have injective : Function.Injective Literal.number := fun _ _ eq => Literal.number.inj eq
  have nodup_iff : (goConstants decl).Nodup ↔ ((blocks decl).flatMap Block.numbers).Nodup := by
    rw [literals]
    exact List.nodup_map_iff injective
  have apart_iff : ((blocks decl).flatMap Block.numbers).Nodup ↔
      (∀ b ∈ blocks decl, b.Fits) ∧ (blocks decl).Pairwise Block.Apart := by
    rw [List.nodup_flatMap]
    simp only [nodup_numbers_iff]
    refine and_congr_right fun fits => ?_
    exact List.Pairwise.iff_of_mem fun {a b} memA memB =>
      disjoint_numbers_iff (fits a memA) (fits b memB)
  rw [← apart_iff, ← nodup_iff]
  refine ⟨fun h => h.literals, fun nodup => ⟨nodup, ?_⟩⟩
  rw [literals] at nodup ⊢
  refine List.pairwise_map.mpr ((List.pairwise_map.mp nodup).imp fun ne s storedA storedB => ?_)
  exact ne (congrArg Literal.number (Stored.number.inj (Option.some_inj.mp
    (storedA.trans storedB.symm))))

/-- Variants are written and stored differently when the blocks of numbers lie apart, or when no
name is the text of another variant and no escape makes two texts alike. -/
theorem injective_iff {decl : EnumDecl}
    (names : (decl.variants.map fun variant => pascalCase variant.name).Nodup)
    (explicit : (decl.variants.filterMap EnumVariant.storageValue).Nodup) :
    Injective decl ↔ Separate decl := by
  cases numbers : hasInteger decl with
  | true =>
      simp only [Separate, classifyStorage_int numbers]
      exact injective_int_iff numbers
  | false =>
      simp only [Separate, classifyStorage_string numbers]
      rw [injective_string_iff numbers, nodup_texts_iff names explicit numbers]

/-- A stage between two numbers. -/
def mixedStage : EnumDecl where
  name := "Mixed"
  variants := [⟨"lead", some (.integer 10)⟩, ⟨"paused", none⟩, ⟨"done", some (.integer 30)⟩]

theorem injective_iff_of_mixed : Injective mixedStage ↔ Separate mixedStage :=
  injective_iff (by decide) (by decide)

/-- A first variant without a number, and a second one with its ordinal. -/
theorem zero_twice :
    let decl : EnumDecl := ⟨"Level", [⟨"low", none⟩, ⟨"high", some (.integer 0)⟩]⟩
    (decl.variants.map fun variant => pascalCase variant.name).Nodup ∧
      (decl.variants.filterMap EnumVariant.storageValue).Nodup ∧ ¬Injective decl := by
  intro decl
  refine ⟨by decide, by decide, fun injective => ?_⟩
  exact absurd injective.literals (by decide)

end Lazuli.Codegen.EnumValues
