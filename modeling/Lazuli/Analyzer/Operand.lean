import Lazuli.Analyzer.Operators

/-!
The operands of the predicate language (`docs/grammar.lzi.md`, sections 2 and 20), and how
the analyzer reads a text as one.

`Operand` is the grammar: strings, integers, `true`, `false`, `nil`, single words and dotted
paths. What a single word stands for depends on where it is read. `literalOf` is the part that
`expr_from_text` and `filter_rhs_expr` share; whatever is no literal is taken as a path or a
word by both, grammatical or not.
-/

namespace Lazuli.Analyzer

open General.Quoted General.Text
open Codegen (isOpChar isOrdinary stripQuotes parseI64 digitsValue isAsciiDigit exprFromText)
open Ir (Expr)

/-! ### The grammar -/

/-- `IDENT_LOWER` begins with this. -/
def isWordStart (c : Char) : Bool := c.isLower || c = '_'

def isWordChar (c : Char) : Bool := isWordStart c || isAsciiDigit c

/-- `IDENT_LOWER`. -/
def isWord : List Char → Bool
  | [] => false
  | c :: cs => isWordStart c && cs.all isWordChar

def keywords : List (List Char) := ["true".toList, "false".toList, "nil".toList]

/-- A path may begin with a reference namespace, `@role.admin`. -/
def isRoot : List Char → Bool
  | '@' :: cs => isWord cs
  | cs => isWord cs

def dotted (segments : List (List Char)) : List Char := ['.'].intercalate segments

def pathOf (segments : List (List Char)) : Expr := .path { segments := segments.map String.ofList }

inductive Literal : List Char → Expr → Prop where
  | string {inner : List Char} : '"' ∉ inner →
      Literal ('"' :: (inner ++ ['"'])) (.string (String.ofList inner))
  | integer {s : List Char} {n : Int} : parseI64 s = some n → Literal s (.integer n)
  | yes : Literal "true".toList (.boolean true)
  | no : Literal "false".toList (.boolean false)
  | nil : Literal "nil".toList .nil

/-- The text of an operand and what it says, where `bare` is what a single word stands for. -/
inductive Operand (bare : List Char → Expr) : List Char → Expr → Prop where
  | literal {s : List Char} {e : Expr} : Literal s e → Operand bare s e
  | word {w : List Char} : isWord w = true → w ∉ keywords → Operand bare w (bare w)
  | path {root : List Char} {rest : List (List Char)} : isRoot root = true → rest ≠ [] →
      (∀ segment ∈ rest, isWord segment = true) →
      Operand bare (dotted (root :: rest)) (pathOf (root :: rest))

/-! ### The reader -/

/-- The literals of `expr_from_text` and `filter_rhs_expr`. -/
def literalOf (text : List Char) : Option Expr :=
  match stripQuotes text with
  | some stripped => some (.string (String.ofList stripped))
  | none =>
      match parseI64 text with
      | some n => some (.integer n)
      | none =>
          if text = "true".toList then some (.boolean true)
          else if text = "false".toList then some (.boolean false)
          else if text = "nil".toList then some .nil
          else none

theorem exprFromText_eq (text : List Char) :
    exprFromText text = (literalOf (trim text)).getD (pathOf ((trim text).splitOn '.')) := by
  unfold exprFromText literalOf
  dsimp only
  cases stripQuotes (trim text) with
  | some stripped => rfl
  | none =>
      cases parseI64 (trim text) with
      | some n => rfl
      | none =>
          dsimp only
          by_cases yes : trim text = "true".toList
          · rw [if_pos yes, if_pos yes]
            rfl
          by_cases no : trim text = "false".toList
          · rw [if_neg yes, if_neg yes, if_pos no, if_pos no]
            rfl
          by_cases nil : trim text = "nil".toList
          · rw [if_neg yes, if_neg yes, if_neg no, if_neg no, if_pos nil, if_pos nil]
            rfl
          rw [if_neg yes, if_neg yes, if_neg no, if_neg no, if_neg nil, if_neg nil]
          rfl

theorem pathOf_injective : Function.Injective pathOf := by
  intro segments segments' h
  have injective : Function.Injective String.ofList := fun _ _ => String.ofList_injective
  exact List.map_injective_iff.mpr injective (Ir.Path.mk.inj (Expr.path.inj h))

/-! ### Characters -/

section Characters

variable {c : Char} {s : List Char}

theorem isOrdinary_of_isWordStart (h : isWordStart c = true) : isOrdinary c = true := by
  apply Codegen.isOrdinary_of_isPathChar
  unfold isWordStart at h
  unfold Codegen.isPathChar Char.isAlphanum Char.isAlpha
  simp only [Bool.or_eq_true] at h ⊢
  rcases h with lower | under
  · exact .inl (.inl (.inl (.inr lower)))
  · exact .inl (.inr under)

theorem isOrdinary_of_isWordChar (h : isWordChar c = true) : isOrdinary c = true := by
  unfold isWordChar at h
  rcases Bool.or_eq_true_iff.mp h with start | digit
  · exact isOrdinary_of_isWordStart start
  · exact Codegen.isOrdinary_of_isAsciiDigit digit

theorem isWordChar_of_isWord (h : isWord s = true) : ∀ c ∈ s, isWordChar c = true := by
  cases s with
  | nil => cases h
  | cons d ds =>
      obtain ⟨start, rest⟩ := Bool.and_eq_true_iff.mp h
      intro c hc
      cases hc with
      | head => exact Bool.or_eq_true_iff.mpr (.inl start)
      | tail _ hc => exact List.all_eq_true.mp rest c hc

theorem dot_notMem_of_isWord (h : isWord s = true) : '.' ∉ s := by
  intro hdot
  have hword := isWordChar_of_isWord h _ hdot
  cases hword

theorem isWord_of_isRoot (h : isRoot s = true) : isWord s = true ∨ ∃ cs, s = '@' :: cs ∧
    isWord cs = true := by
  unfold isRoot at h
  split at h
  next cs => exact .inr ⟨cs, rfl, h⟩
  · exact .inl h

theorem isOrdinary_of_isWord (h : isWord s = true) : ∀ c ∈ s, isOrdinary c = true :=
  fun c hc => isOrdinary_of_isWordChar (isWordChar_of_isWord h c hc)

theorem isOrdinary_of_isRoot (h : isRoot s = true) : ∀ c ∈ s, isOrdinary c = true := by
  rcases isWord_of_isRoot h with word | ⟨cs, rfl, word⟩
  · exact isOrdinary_of_isWord word
  · intro c hc
    cases hc with
    | head => rfl
    | tail _ hc => exact isOrdinary_of_isWord word c hc

theorem dot_notMem_of_isRoot (h : isRoot s = true) : '.' ∉ s := by
  rcases isWord_of_isRoot h with word | ⟨cs, rfl, word⟩
  · exact dot_notMem_of_isWord word
  · intro hdot
    cases hdot with
    | tail _ hdot => exact dot_notMem_of_isWord word hdot

theorem dot_notMem_path {rest : List (List Char)} (root : isRoot s = true)
    (words : ∀ segment ∈ rest, isWord segment = true) : ∀ segment ∈ s :: rest, '.' ∉ segment := by
  intro segment hsegment
  cases hsegment with
  | head => exact dot_notMem_of_isRoot root
  | tail _ hsegment => exact dot_notMem_of_isWord (words segment hsegment)

theorem mem_dotted {segments : List (List Char)} (hc : c ∈ dotted segments) :
    c = '.' ∨ ∃ segment ∈ segments, c ∈ segment := by
  unfold dotted at hc
  induction segments with
  | nil => cases hc
  | cons segment rest ih =>
      cases rest with
      | nil =>
          rw [List.intercalate_singleton] at hc
          exact .inr ⟨segment, List.mem_cons_self, hc⟩
      | cons next rest =>
          rw [List.intercalate_cons_cons, List.mem_append, List.mem_append] at hc
          rcases hc with (here | dot) | later
          · exact .inr ⟨segment, List.mem_cons_self, here⟩
          · exact .inl (List.mem_singleton.mp dot)
          · rcases ih later with dot | ⟨other, hother, there⟩
            · exact .inl dot
            · exact .inr ⟨other, List.mem_cons_of_mem _ hother, there⟩

theorem splitOn_dotted {segments : List (List Char)} (ne : segments ≠ [])
    (h : ∀ segment ∈ segments, '.' ∉ segment) : (dotted segments).splitOn '.' = segments :=
  List.splitOn_intercalate '.' h ne

end Characters

/-! ### Operands are sides -/

section Sides

variable {s t : List Char} {e : Expr} {bare : List Char → Expr}

theorem Side.append (left : Side s) (right : Side t) : Side (s ++ t) := by
  constructor
  · rw [clear_append, left.closed]
    exact ⟨left.clear, right.clear⟩
  · rw [endsInside_append, left.closed]
    exact right.closed

theorem side_of_ordinary (h : ∀ c ∈ s, isOrdinary c = true) : Side s := by
  constructor
  · exact clear_of_forall fun c hc => Codegen.isOpChar_of_isOrdinary (h c hc)
  · exact endsInside_of_notMem fun hq => Codegen.ne_quote_of_isOrdinary (h _ hq) rfl

theorem side_of_trim (h : Side (trim s)) : Side s := by
  obtain ⟨w, w', hs, hw, hw'⟩ := trim_decomposition s
  rw [hs]
  have blank {u : List Char} (hu : ∀ c ∈ u, isWhitespace c = true) : Side u :=
    side_of_ordinary fun c hc => Codegen.isOrdinary_of_isWhitespace (hu c hc)
  exact (blank hw).append (h.append (blank hw'))

theorem side_quoted (h : '"' ∉ s) : Side ('"' :: (s ++ ['"'])) := by
  constructor
  · rw [Clear, if_pos rfl, clear_append, Bool.not_false]
    refine ⟨clear_inside h, ?_⟩
    rw [Clear, if_pos rfl]
    trivial
  · rw [endsInside, if_pos rfl, endsInside_append, endsInside_of_notMem h]
    rfl

theorem side_keyword (h : s ∈ keywords) : Side s := by
  have all : keywords.all (fun k => k.all isOrdinary) = true := rfl
  exact side_of_ordinary (List.all_eq_true.mp (List.all_eq_true.mp all s h))

theorem Literal.side (literal : Literal s e) : Side s := by
  cases literal with
  | string h => exact side_quoted h
  | integer h => exact side_of_ordinary fun c hc => Codegen.isOrdinary_of_parseI64 h hc
  | yes => exact side_keyword (by simp [keywords])
  | no => exact side_keyword (by simp [keywords])
  | nil => exact side_keyword (by simp [keywords])

theorem side_dotted {segments : List (List Char)}
    (h : ∀ segment ∈ segments, ∀ c ∈ segment, isOrdinary c = true) : Side (dotted segments) := by
  apply side_of_ordinary
  intro c hc
  rcases mem_dotted hc with rfl | ⟨segment, hsegment, there⟩
  · rfl
  · exact h segment hsegment c there

theorem Operand.side (operand : Operand bare s e) : Side s := by
  cases operand with
  | literal literal => exact literal.side
  | word word _ => exact side_of_ordinary (isOrdinary_of_isWord word)
  | path root _ words =>
      apply side_dotted
      intro segment hsegment
      cases hsegment with
      | head => exact isOrdinary_of_isRoot root
      | tail _ hsegment => exact isOrdinary_of_isWord (words segment hsegment)

theorem Operand.ne_nil (operand : Operand bare s e) : s ≠ [] := by
  rintro rfl
  generalize hs : ([] : List Char) = s at operand
  cases operand with
  | literal literal =>
      cases literal with
      | string _ => cases hs
      | integer h =>
          rw [← hs] at h
          cases h
      | yes => cases hs
      | no => cases hs
      | nil => cases hs
  | word word _ =>
      rw [← hs] at word
      cases word
  | path root ne words =>
      have same := splitOn_dotted (List.cons_ne_nil _ _) (dot_notMem_path root words)
      rw [← hs] at same
      exact ne (List.cons.inj same).2.symm

end Sides

/-! ### Reading an operand -/

section Reading

variable {s : List Char} {e : Expr} {bare : List Char → Expr} {c : Char}

theorem stripQuotes_quoted (inner : List Char) :
    stripQuotes ('"' :: (inner ++ ['"'])) = some inner := by
  have opening : ('"' :: (inner ++ ['"'])).dropPrefix? ['"'] = some (inner ++ ['"']) :=
    dropPrefix_iff.mpr rfl
  unfold stripQuotes
  rw [opening, Option.bind_some, List.dropSuffix?_eq_some_iff]
  exact ⟨['"'], rfl, rfl⟩

theorem stripQuotes_none (h : '"' ∉ s) : stripQuotes s = none := by
  cases hs : stripQuotes s with
  | none => rfl
  | some inner =>
      rw [Codegen.stripQuotes_eq_some hs] at h
      exact absurd List.mem_cons_self h

theorem Literal.literalOf (literal : Literal s e) : literalOf s = some e := by
  unfold Analyzer.literalOf
  cases literal with
  | string _ => rw [stripQuotes_quoted]
  | integer h =>
      have noQuote : '"' ∉ s := by
        intro hq
        exact Codegen.ne_quote_of_isOrdinary (Codegen.isOrdinary_of_parseI64 h hq) rfl
      rw [stripQuotes_none noQuote, h]
  | yes => rfl
  | no => rfl
  | nil => rfl

theorem noDigit_of_isWordStart (h : isWordStart c = true) : isAsciiDigit c = false := by
  apply Bool.eq_false_iff.mpr
  intro digit
  obtain ⟨-, high⟩ := of_decide_eq_true digit
  rcases Bool.or_eq_true_iff.mp h with lower | under
  · obtain ⟨low, -⟩ := Bool.and_eq_true_iff.mp lower
    have low : 'a'.val ≤ c.val := of_decide_eq_true low
    exact absurd (UInt32.le_trans low high) (by decide)
  · obtain rfl := of_decide_eq_true under
    exact absurd high (by decide)

theorem parseI64_none {cs : List Char} (digit : isAsciiDigit c = false) (minus : c ≠ '-')
    (plus : c ≠ '+') : parseI64 (c :: cs) = none := by
  have noValue : digitsValue (c :: cs) = none := by
    unfold digitsValue
    rw [List.all_cons, digit]
    rfl
  unfold parseI64
  split
  next same =>
    exact absurd (List.cons.inj same).1 minus
  next same =>
    exact absurd (List.cons.inj same).1 plus
  · rw [noValue]
    rfl

theorem literalOf_none {cs : List Char} (quote : c ≠ '"') (digit : isAsciiDigit c = false)
    (minus : c ≠ '-') (plus : c ≠ '+') (hk : c :: cs ∉ keywords) : literalOf (c :: cs) = none := by
  have noString : stripQuotes (c :: cs) = none := by
    cases hs : stripQuotes (c :: cs) with
    | none => rfl
    | some inner => exact absurd (List.cons.inj (Codegen.stripQuotes_eq_some hs)).1 quote
  simp only [keywords, List.mem_cons, List.not_mem_nil, or_false, not_or] at hk
  unfold literalOf
  rw [noString, parseI64_none digit minus plus]
  dsimp only
  rw [if_neg hk.1, if_neg hk.2.1, if_neg hk.2.2]

theorem literalOf_word {w : List Char} (word : isWord w = true) (hk : w ∉ keywords) :
    literalOf w = none := by
  cases w with
  | nil => cases word
  | cons c cs =>
      have start : isWordStart c = true := (Bool.and_eq_true_iff.mp word).1
      apply literalOf_none (Codegen.ne_quote_of_isOrdinary (isOrdinary_of_isWordStart start))
        (noDigit_of_isWordStart start) _ _ hk
      · rintro rfl
        cases start
      · rintro rfl
        cases start

theorem dot_mem_dotted {root : List Char} {rest : List (List Char)} (ne : rest ≠ []) :
    '.' ∈ dotted (root :: rest) := by
  cases rest with
  | nil => exact absurd rfl ne
  | cons next rest =>
      unfold dotted
      rw [List.intercalate_cons_cons]
      exact List.mem_append_left _ (List.mem_append_right _ List.mem_cons_self)

theorem literalOf_path {root : List Char} {rest : List (List Char)} (hroot : isRoot root = true)
    (ne : rest ≠ []) : literalOf (dotted (root :: rest)) = none := by
  have hk : dotted (root :: rest) ∉ keywords := by
    have noDot : ∀ k ∈ keywords, '.' ∉ k := by decide
    exact fun h => noDot _ h (dot_mem_dotted ne)
  cases rest with
  | nil => exact absurd rfl ne
  | cons next rest =>
      rw [dotted, List.intercalate_cons_cons] at hk ⊢
      cases root with
      | nil => cases hroot
      | cons c cs =>
          rcases isWord_of_isRoot hroot with word | ⟨cs', same, -⟩
          · have start : isWordStart c = true := (Bool.and_eq_true_iff.mp word).1
            apply literalOf_none
              (Codegen.ne_quote_of_isOrdinary (isOrdinary_of_isWordStart start))
              (noDigit_of_isWordStart start) _ _ hk
            · rintro rfl
              cases start
            · rintro rfl
              cases start
          · obtain ⟨rfl, -⟩ := List.cons.inj same
            exact literalOf_none (by decide) (by decide) (by decide) (by decide) hk

/-- What a text that is read as a literal says, if it is a literal. -/
theorem literal_of_literalOf (h : literalOf s = some e)
    (plain : ∀ inner, e = .string (String.ofList inner) → '"' ∉ inner) : Literal s e := by
  unfold literalOf at h
  split at h
  next inner hs =>
    obtain rfl := Option.some.inj h
    rw [Codegen.stripQuotes_eq_some hs]
    exact .string (plain inner rfl)
  · split at h
    next n hn =>
      obtain rfl := Option.some.inj h
      exact .integer hn
    · split at h
      next same =>
        obtain rfl := Option.some.inj h
        exact same ▸ .yes
      · split at h
        next same =>
          obtain rfl := Option.some.inj h
          exact same ▸ .no
        · split at h
          next same =>
            obtain rfl := Option.some.inj h
            exact same ▸ .nil
          · cases h

end Reading

end Lazuli.Analyzer
