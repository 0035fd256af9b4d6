import Mathlib.Tactic.Common
import Lazuli.Codegen.ConditionalPolicy
import Lazuli.Codegen.PolicyCorrect
import Lazuli.General.Quoted

/-!
What a predicate text says, and what the emitter makes of it.

`readComparison` is the comparison that the analyzer's parser reads, when it is plain: a
path of identifier characters, and no quote inside a string literal. The emitter looks for
an operator anywhere in the text, so an operator inside the literal can mislead it; but
then what follows that operator ends in a quote that nothing opens, which is no literal.
Hence `renderWhenText_of_comparison`: a plain comparison is rendered as it is or not at all.
-/

namespace Lazuli.Codegen

open Lazuli.General.Text
open Lazuli.General.Quoted (dropPrefix_iff)
open Lazuli.Runtime (PolicyWhen Value)
open Lazuli.Ir (Comparison CompareOp EvalPredicate)

/-! ### Plain comparisons -/

def isPathChar (c : Char) : Bool := c.isAlphanum || c = '_' || c = '.'

def plainComparison (c : Comparison) : Bool :=
  c.path.toList.all isPathChar &&
    match c.literal with
    | .string s => !s.toList.contains '"'
    | _ => true

def readComparison (text : String) : Option Comparison :=
  (parseClosedPredicate text).comparison?.filter plainComparison

/-! ### Characters -/

/-- The characters that operators are made of. -/
def isOpChar (c : Char) : Bool := c ∈ ['<', '>', '=', '!']

/-- No operator and no string begins or ends with this character. -/
def isOrdinary (c : Char) : Bool := !isOpChar c && c ≠ '"'

section Characters

variable {c : Char}

theorem isOpChar_cases (h : isOpChar c = true) : c = '<' ∨ c = '>' ∨ c = '=' ∨ c = '!' := by
  simpa [isOpChar] using h

theorem isWhitespace_of_isOpChar (h : isOpChar c = true) : isWhitespace c = false := by
  rcases isOpChar_cases h with rfl | rfl | rfl | rfl <;> rfl

theorem ne_quote_of_isOpChar (h : isOpChar c = true) : c ≠ '"' := by
  rcases isOpChar_cases h with rfl | rfl | rfl | rfl <;> decide

theorem isOrdinary_of_isWhitespace (h : isWhitespace c = true) : isOrdinary c = true := by
  unfold isOrdinary
  cases hop : isOpChar c with
  | true => rw [isWhitespace_of_isOpChar hop] at h; cases h
  | false =>
      have hquote : c ≠ '"' := by
        rintro rfl
        cases h
      simp [hquote]

theorem isOrdinary_of_isPathChar (h : isPathChar c = true) : isOrdinary c = true := by
  unfold isOrdinary
  cases hop : isOpChar c with
  | true =>
      rcases isOpChar_cases hop with rfl | rfl | rfl | rfl <;> cases h
  | false =>
      have hquote : c ≠ '"' := by
        rintro rfl
        cases h
      simp [hquote]

theorem isOrdinary_of_isAsciiDigit (h : isAsciiDigit c = true) : isOrdinary c = true := by
  unfold isOrdinary
  cases hop : isOpChar c with
  | true =>
      rcases isOpChar_cases hop with rfl | rfl | rfl | rfl <;> cases h
  | false =>
      have hquote : c ≠ '"' := by
        rintro rfl
        cases h
      simp [hquote]

theorem isOpChar_of_isOrdinary (h : isOrdinary c = true) : isOpChar c = false := by
  unfold isOrdinary at h
  cases hop : isOpChar c with
  | true => rw [hop] at h; cases h
  | false => rfl

theorem ne_quote_of_isOrdinary (h : isOrdinary c = true) : c ≠ '"' := by
  rintro rfl
  cases h

end Characters

/-! ### Searching -/

theorem dropInfix_eq_some_append {l i p s : List Char} (h : l.dropInfix? i = some (p, s)) :
    l = p ++ (i ++ s) := by
  obtain ⟨⟨i', hl, hi⟩, -⟩ := List.dropInfix?_eq_some_iff.mp h
  rw [hl, eq_of_beq hi, List.append_assoc]

theorem findTopLevelOperator_append {op s before after : List Char} {inQuote : Bool}
    (h : findTopLevelOperator op inQuote s = some (before, after)) :
    s = before ++ (op ++ after) := by
  induction s generalizing inQuote before with
  | nil => cases h
  | cons b rest ih =>
      have hnext {q : Bool} (hq : (findTopLevelOperator op q rest).map
          (fun split => (b :: split.1, split.2)) = some (before, after)) :
          b :: rest = before ++ (op ++ after) := by
        obtain ⟨⟨before', after'⟩, hfind, heq⟩ := Option.map_eq_some_iff.mp hq
        obtain ⟨rfl, rfl⟩ := Prod.mk.inj heq
        rw [ih hfind, List.cons_append]
      rw [findTopLevelOperator] at h
      split at h
      · exact hnext h
      · split at h
        · exact hnext h
        · split at h
          case h_1 rest' hprefix =>
            obtain ⟨hbefore, hafter⟩ := Prod.mk.inj (Option.some.inj h)
            rw [← hbefore, ← hafter, List.nil_append]
            exact dropPrefix_iff.mp hprefix
          case h_2 => exact hnext h

/-- The first place of `i` is the one behind characters that do not begin it. -/
theorem dropInfix_append {l r i : List Char} {c : Char} (hi : c ∈ i.head?) (hl : c ∉ l) :
    (l ++ (i ++ r)).dropInfix? i = some (l, r) := by
  obtain ⟨cs, rfl⟩ : ∃ cs, i = c :: cs := by
    cases i with
    | nil => cases hi
    | cons d ds =>
        obtain rfl := Option.some.inj hi
        exact ⟨ds, rfl⟩
  rw [List.dropInfix?_eq_some_iff]
  refine ⟨⟨c :: cs, by simp, beq_self_eq_true _⟩, ?_⟩
  intro p' i' s' heq hi'
  rw [eq_of_beq hi', List.append_assoc] at heq
  by_contra hlt
  -- an earlier place would lie inside `l`
  rcases List.append_eq_append_iff.mp heq with ⟨d, hp', -⟩ | ⟨d, hl', hd⟩
  · rw [hp', List.length_append] at hlt
    exact hlt (Nat.le_add_right _ _)
  · cases d with
    | nil =>
        rw [hl', List.append_nil] at hlt
        exact hlt (Nat.le_refl _)
    | cons e d =>
        injection hd with hce
        exact hl (hl' ▸ hce ▸ List.mem_append_right p' List.mem_cons_self)

/-! ### Literals -/

theorem stripQuotes_eq_some {s inner : List Char} (h : stripQuotes s = some inner) :
    s = '"' :: (inner ++ ['"']) := by
  obtain ⟨t, hpre, hsuf⟩ := Option.bind_eq_some_iff.mp h
  obtain ⟨q, ht, hq⟩ := List.dropSuffix?_eq_some_iff.mp hsuf
  rw [dropPrefix_iff.mp hpre, ht, eq_of_beq hq]
  rfl

theorem isAsciiDigit_of_digitsValue {digits : List Char} {n : Int} {c : Char}
    (h : digitsValue digits = some n) (hc : c ∈ digits) : isAsciiDigit c = true := by
  unfold digitsValue at h
  split at h
  · cases h
  · next hdigits =>
      simp only [Bool.or_eq_true, Bool.not_eq_true', not_or, Bool.not_eq_false] at hdigits
      exact List.all_eq_true.mp hdigits.2 c hc

/-- An integer is written with digits, after a sign. -/
theorem sign_or_digit_of_parseI64 {s : List Char} {n : Int} {c : Char} (h : parseI64 s = some n)
    (hc : c ∈ s) : c = '-' ∨ c = '+' ∨ isAsciiDigit c = true := by
  unfold parseI64 at h
  obtain ⟨hparse, -⟩ := Option.filter_eq_some_iff.mp h
  split at hparse
  · obtain ⟨m, hm, -⟩ := Option.map_eq_some_iff.mp hparse
    rcases List.mem_cons.mp hc with rfl | hc
    · exact .inl rfl
    · exact .inr (.inr (isAsciiDigit_of_digitsValue hm hc))
  · rcases List.mem_cons.mp hc with rfl | hc
    · exact .inr (.inl rfl)
    · exact .inr (.inr (isAsciiDigit_of_digitsValue hparse hc))
  · exact .inr (.inr (isAsciiDigit_of_digitsValue hparse hc))

theorem isOrdinary_of_parseI64 {s : List Char} {n : Int} {c : Char} (h : parseI64 s = some n)
    (hc : c ∈ s) : isOrdinary c = true := by
  rcases sign_or_digit_of_parseI64 h hc with rfl | rfl | digit
  · rfl
  · rfl
  · exact isOrdinary_of_isAsciiDigit digit

/-- The text of a literal: a string between quotes, or ordinary characters. -/
theorem renderWhenLiteral_cases {s : List Char} {v : Value} (h : renderWhenLiteral s = some v) :
    (∃ inner, s = '"' :: (inner ++ ['"']) ∧ v = .string (String.ofList inner)) ∨
      ∀ c ∈ s, isOrdinary c = true := by
  unfold renderWhenLiteral at h
  split at h
  case h_1 inner hinner =>
    exact .inl ⟨inner, stripQuotes_eq_some hinner, (Option.some.inj h).symm⟩
  case h_2 =>
    refine .inr ?_
    split at h
    next hs =>
      rw [hs]
      exact List.all_eq_true.mp rfl
    · split at h
      next hs =>
        rw [hs]
        exact List.all_eq_true.mp rfl
      · split at h
        next hs =>
          rw [hs]
          exact List.all_eq_true.mp rfl
        · obtain ⟨n, hn, -⟩ := Option.map_eq_some_iff.mp h
          exact fun c hc => isOrdinary_of_parseI64 hn hc

/-- A single quote is neither a string nor part of anything else. -/
theorem renderWhenLiteral_one_quote {s : List Char} (h : s.count '"' = 1) :
    renderWhenLiteral s = none := by
  cases hs : renderWhenLiteral s with
  | none => rfl
  | some v =>
      have hmem : '"' ∈ s := List.count_pos_iff.mp (by rw [h]; exact Nat.one_pos)
      rcases renderWhenLiteral_cases hs with ⟨inner, hinner, -⟩ | hord
      · rw [hinner, List.count_cons_self, List.count_append, List.count_cons_self] at h
        omega
      · exact absurd rfl (ne_quote_of_isOrdinary (hord _ hmem))

/-- The two readers of literals agree. -/
theorem exprFromText_eq_literal {s : List Char} {v : Value}
    (h : (exprFromText s).literal? = some v) : renderWhenLiteral (trim s) = some v := by
  unfold exprFromText at h
  simp only at h
  unfold renderWhenLiteral
  split at h
  · next stripped hs => simpa [hs, Ir.Expr.literal?] using h
  · split at h
    · next n hn =>
      -- a number is none of the three words
      have hne {u : List Char} (hu : parseI64 u = none) : trim s ≠ u := by
        intro heq
        rw [heq, hu] at hn
        cases hn
      have htrue : trim s ≠ "true".toList := hne (by decide)
      have hfalse : trim s ≠ "false".toList := hne (by decide)
      have hnil : trim s ≠ "nil".toList := hne (by decide)
      rw [if_neg htrue, if_neg hfalse, if_neg hnil, hn]
      exact h
    · split at h
      · next htrue => simpa [htrue, Ir.Expr.literal?] using h
      · split at h
        · next hfalse => simpa [hfalse, Ir.Expr.literal?] using h
        · split at h
          · next hnil => simpa [hnil, Ir.Expr.literal?] using h
          · cases h

theorem exprFromText_path {s : List Char} {p : Ir.Path} (h : exprFromText s = .path p) :
    p.text.toList = trim s := by
  unfold exprFromText at h
  simp only at h
  split at h
  · cases h
  · split at h
    · cases h
    · split_ifs at h
      injection h with h
      have hid : (String.toList ∘ String.ofList : List Char → List Char) = id :=
        funext fun l => String.toList_ofList
      have hdot : ".".toList = ['.'] := rfl
      rw [← h, Ir.Path.text, String.toList_intercalate, List.map_map, hid, List.map_id, hdot,
        List.intercalate_splitOn]

/-! ### An operator inside the literal -/

/-- The two sides of the operator that the analyzer found. -/
structure Sides (text : List Char) (token : List Char) (c : Comparison) where
  lhs : List Char
  rhs : List Char
  text_eq : text = lhs ++ (token ++ rhs)
  path : c.path = String.ofList (trim lhs)
  lhs_plain : ∀ ch ∈ lhs, isOrdinary ch = true
  literal : renderWhenLiteral (trim rhs) = some c.literal
  literal_plain : ∀ s, c.literal = .string s → '"' ∉ s.toList
  lhs_ne : (trim lhs).isEmpty = false
  rhs_ne : (trim rhs).isEmpty = false

namespace Sides

variable {text token : List Char} {c : Comparison} (sides : Sides text token c)

include sides

/-- What follows the operator is a string between quotes, or ordinary to its end. -/
theorem rhs_cases :
    (∃ w inner w', sides.rhs = w ++ '"' :: (inner ++ '"' :: w') ∧ '"' ∉ inner ∧
      (∀ ch ∈ w, isWhitespace ch = true) ∧ ∀ ch ∈ w', isWhitespace ch = true) ∨
    ∀ ch ∈ sides.rhs, isOrdinary ch = true := by
  obtain ⟨w, w', hrhs, hw, hw'⟩ := trim_decomposition sides.rhs
  rcases renderWhenLiteral_cases sides.literal with ⟨inner, hinner, hlit⟩ | hord
  · refine .inl ⟨w, inner, w', ?_, ?_, hw, hw'⟩
    · rw [hrhs, hinner]
      simp
    · simpa using sides.literal_plain _ hlit
  · refine .inr fun ch hch => ?_
    rw [hrhs] at hch
    rcases List.mem_append.mp hch with hch | hch
    · exact isOrdinary_of_isWhitespace (hw ch hch)
    · rcases List.mem_append.mp hch with hch | hch
      · exact hord ch hch
      · exact isOrdinary_of_isWhitespace (hw' ch hch)

theorem head_rhs_ne {ch : Char} {rest : List Char} (h : sides.rhs = ch :: rest) :
    isOpChar ch = false := by
  rcases sides.rhs_cases with ⟨w, inner, w', hrhs, -, hw, -⟩ | hord
  · rw [h] at hrhs
    cases w with
    | nil =>
        injection hrhs with hch
        subst hch
        rfl
    | cons d w =>
        injection hrhs with hch
        exact isOpChar_of_isOrdinary
          (isOrdinary_of_isWhitespace (hw ch (hch ▸ List.mem_cons_self)))
  · exact isOpChar_of_isOrdinary (hord ch (h ▸ List.mem_cons_self))

/-- Behind an operator inside the right side stands no literal. -/
theorem no_literal_inside {a i after : List Char} (hi : i ≠ [])
    (hop : ∀ ch ∈ i, isOpChar ch = true) (h : sides.rhs = a ++ (i ++ after)) :
    renderWhenLiteral (trim after) = none := by
  obtain ⟨x, xs, rfl⟩ := List.exists_cons_of_ne_nil hi
  have hx : isOpChar x = true := hop x List.mem_cons_self
  rcases sides.rhs_cases with ⟨w, inner, w', hrhs, hinner, hw, hw'⟩ | hord
  · have hnot {u : List Char} (hu : ∀ ch ∈ u, isWhitespace ch = true) {y : Char}
        (hy : isOpChar y = true) : y ∉ u := by
      intro hmem
      have hws := hu y hmem
      rw [isWhitespace_of_isOpChar hy] at hws
      cases hws
    have hcount {u : List Char} (hu : ∀ ch ∈ u, isWhitespace ch = true) : u.count '"' = 0 := by
      rw [List.count_eq_zero]
      intro hmem
      cases hu _ hmem
    -- the opening quote stands before the operator
    have hopen : '"' ∈ a := by
      apply mem_of_append_eq _ (hnot hw hx) (ne_quote_of_isOpChar hx)
      · exact inner ++ '"' :: w'
      · exact xs ++ after
      · rw [← hrhs, h]
        simp
    -- and the closing one after it, by the same argument from the other end
    have hclose : '"' ∈ after := by
      obtain ⟨y, ys, hys⟩ := List.exists_cons_of_ne_nil
        (List.reverse_ne_nil_iff.mpr (List.cons_ne_nil x xs))
      have hy : isOpChar y = true :=
        hop y (List.mem_reverse.mp (hys ▸ List.mem_cons_self))
      rw [← List.mem_reverse]
      apply mem_of_append_eq _ (hnot _ hy) (ne_quote_of_isOpChar hy)
      · exact w'.reverse
      · exact inner.reverse ++ '"' :: w.reverse
      · exact ys ++ a.reverse
      · have hrev := congrArg List.reverse (hrhs.symm.trans h)
        rw [List.reverse_append, List.reverse_append, List.reverse_append, hys] at hrev
        simpa using hrev
      · intro ch hch
        exact hw' ch (List.mem_reverse.mp hch)
    have hi0 : (x :: xs).count '"' = 0 := by
      rw [List.count_eq_zero]
      intro hmem
      exact ne_quote_of_isOpChar (hop _ hmem) rfl
    have htotal : sides.rhs.count '"' = 2 := by
      rw [hrhs, List.count_append, hcount hw, List.count_cons_self, List.count_append,
        List.count_eq_zero.mpr hinner, List.count_cons_self, hcount hw']
    rw [h, List.count_append, List.count_append, hi0] at htotal
    have ha : 0 < a.count '"' := List.count_pos_iff.mpr hopen
    have hafter : 0 < after.count '"' := List.count_pos_iff.mpr hclose
    apply renderWhenLiteral_one_quote
    rw [count_trim (by rfl)]
    omega
  · have hmem : x ∈ sides.rhs := by
      rw [h]
      exact List.mem_append_right _ (List.mem_append_left _ List.mem_cons_self)
    rw [isOpChar_of_isOrdinary (hord x hmem)] at hx
    cases hx

/-- A token that is not part of the operator found can only stand inside the right side. -/
theorem inside_of_dropInfix {i before after : List Char} (hi : i ≠ [])
    (hop : ∀ ch ∈ i, isOpChar ch = true) (hnot : ¬ i <:+: token)
    (h : text.dropInfix? i = some (before, after)) :
    ∃ a, sides.rhs = a ++ (i ++ after) := by
  obtain ⟨x, xs, rfl⟩ := List.exists_cons_of_ne_nil hi
  have hx : isOpChar x = true := hop x List.mem_cons_self
  have heq := (dropInfix_eq_some_append h).symm.trans sides.text_eq
  -- it does not start inside the left side
  obtain ⟨d, hd⟩ : ∃ d, token ++ sides.rhs = d ++ (x :: xs ++ after) := by
    rcases List.append_eq_append_iff.mp heq with ⟨d, hlhs, hd⟩ | ⟨d, -, hd⟩
    · cases d with
      | nil => exact ⟨[], hd.symm⟩
      | cons y d =>
          injection hd with hxy
          have hmem : x ∈ sides.lhs := by
            rw [hlhs, hxy]
            exact List.mem_append_right _ List.mem_cons_self
          rw [isOpChar_of_isOrdinary (sides.lhs_plain x hmem)] at hx
          cases hx
    · exact ⟨d, hd⟩
  -- nor inside the operator
  rcases List.append_eq_append_iff.mp hd with ⟨a, -, ha⟩ | ⟨e, htoken, he⟩
  · exact ⟨a, ha⟩
  · cases e with
    | nil => exact ⟨[], he.symm⟩
    | cons y e =>
        exfalso
        rcases List.append_eq_append_iff.mp he with ⟨f, hf, -⟩ | ⟨f, hf, hrest⟩
        · exact hnot ⟨d, f, by rw [htoken, hf, List.append_assoc]⟩
        · cases f with
          | nil =>
              rw [List.append_nil] at hf
              exact hnot ⟨d, [], by rw [htoken, hf, List.append_nil]⟩
          | cons z f =>
              have hz := sides.head_rhs_ne hrest
              rw [hop z (hf ▸ List.mem_append_right _ List.mem_cons_self)] at hz
              cases hz

end Sides

/-! ### Rendering a plain comparison -/

/-- The sides at the operator that `parseClosedWith` stops at. -/
theorem sides_of_parse {text : String} {trimmed : List Char}
    {operators : List (String × CompareOp)} {c : Comparison}
    (h : (parseClosedWith text trimmed operators).comparison?.filter plainComparison = some c) :
    ∃ token, (token, c.op) ∈ operators ∧ Nonempty (Sides trimmed token.toList c) := by
  obtain ⟨hparse, hplain⟩ := Option.filter_eq_some_iff.mp h
  clear h
  induction operators with
  | nil => cases hparse
  | cons entry operators ih =>
      obtain ⟨token, op⟩ := entry
      rw [parseClosedWith] at hparse
      split at hparse
      case h_2 =>
        obtain ⟨token', hmem, hsides⟩ := ih hparse
        exact ⟨token', List.mem_cons_of_mem _ hmem, hsides⟩
      case h_1 lhs rhs hfind =>
        split at hparse
        · cases hparse
        · next hne =>
          rw [Bool.or_eq_true, not_or, Bool.not_eq_true, Bool.not_eq_true] at hne
          unfold EvalPredicate.comparison? at hparse
          split at hparse
          case h_2 => cases hparse
          case h_1 p op' right heq =>
            injection heq with heq
            injection heq with hpath hop hright
            obtain ⟨literal, hlit, rfl⟩ := Option.map_eq_some_iff.mp hparse
            unfold plainComparison at hplain
            rw [Bool.and_eq_true] at hplain
            have hp : p.text.toList = trim lhs := by
              rw [exprFromText_path hpath, trim_trim]
            have hlhs : ∀ ch ∈ lhs, isOrdinary ch = true := by
              intro ch hch
              cases hws : isWhitespace ch with
              | true => exact isOrdinary_of_isWhitespace hws
              | false =>
                  rw [← mem_trim_iff hws, ← hp] at hch
                  exact isOrdinary_of_isPathChar (List.all_eq_true.mp hplain.1 ch hch)
            refine ⟨token, hop ▸ List.mem_cons_self, ⟨?_⟩⟩
            exact {
              lhs := lhs
              rhs := rhs
              text_eq := findTopLevelOperator_append hfind
              path := by rw [← hp, String.ofList_toList]
              lhs_plain := hlhs
              literal := by
                rw [← hright] at hlit
                have hrender := exprFromText_eq_literal hlit
                rwa [trim_trim] at hrender
              literal_plain := by
                intro s hs
                simp only at hs
                rw [hs] at hplain
                simpa using hplain.2
              lhs_ne := hne.1
              rhs_ne := hne.2 }

namespace Sides

variable {text : List Char} {token : String} {c : Comparison}
  (sides : Sides text token.toList c)

include sides

/-- At the operator itself the comparison is rendered as it is, unless its path starts with
a digit. -/
theorem renderWhenWith_found {ch : Char} (hch : ch ∈ token.toList.head?)
    (hop : isOpChar ch = true) (operators : List (String × String)) :
    renderWhenWith text ((token, opText c.op) :: operators) = none ∨
      renderWhenWith text ((token, opText c.op) :: operators) = some (comparisonGuard c) := by
  have hnot : ch ∉ sides.lhs := by
    intro hmem
    rw [isOpChar_of_isOrdinary (sides.lhs_plain ch hmem)] at hop
    cases hop
  have hfind := dropInfix_append (r := sides.rhs) hch hnot
  rw [← sides.text_eq] at hfind
  rw [renderWhenWith, hfind]
  simp only [whenSides, sides.lhs_ne, sides.rhs_ne, sides.literal, Bool.or_self,
    Bool.false_eq_true, if_false]
  split
  · exact .inl rfl
  · refine .inr ?_
    rw [Option.map_some, ← sides.path]
    rfl

/-- A token that is no part of the operator is passed over, or nothing is rendered. -/
theorem renderWhenWith_other {other : String} (hne : other.toList ≠ [])
    (hop : ∀ ch ∈ other.toList, isOpChar ch = true)
    (hnot : ¬ other.toList <:+: token.toList) (op : String) (operators : List (String × String)) :
    renderWhenWith text ((other, op) :: operators) = none ∨
      renderWhenWith text ((other, op) :: operators) = renderWhenWith text operators := by
  rw [renderWhenWith]
  cases hfind : text.dropInfix? other.toList with
  | none => exact .inr rfl
  | some parts =>
      obtain ⟨before, after⟩ := parts
      obtain ⟨a, ha⟩ := sides.inside_of_dropInfix hne hop hnot hfind
      refine .inl ?_
      simp only [whenSides, sides.no_literal_inside hne hop ha, Option.map_none, ite_self]

end Sides

/-- A plain comparison is rendered as it is, or not at all. -/
theorem renderWhenText_of_comparison {text : String} {c : Comparison}
    (h : readComparison text = some c) :
    renderWhenText text = none ∨ renderWhenText text = some (comparisonGuard c) := by
  obtain ⟨token, hmem, ⟨sides⟩⟩ := sides_of_parse h
  unfold renderWhenText whenOperators
  have step {other : String}
      (apart : other.toList ≠ [] ∧ other.toList.all isOpChar = true ∧
        ¬ other.toList <:+: token.toList) {op : String} {operators : List (String × String)}
      (hrest : renderWhenWith (trim text.toList) operators = none ∨
        renderWhenWith (trim text.toList) operators = some (comparisonGuard c)) :
      renderWhenWith (trim text.toList) ((other, op) :: operators) = none ∨
        renderWhenWith (trim text.toList) ((other, op) :: operators) =
          some (comparisonGuard c) := by
    obtain ⟨hne, hop, hnot⟩ := apart
    rcases sides.renderWhenWith_other hne (List.all_eq_true.mp hop) hnot op operators with
      hnone | hpass
    · exact .inl hnone
    · rwa [hpass]
  -- the tokens tried before the operator's own are no part of it
  simp only [closedOperators, List.mem_cons, Prod.mk.injEq, List.not_mem_nil, or_false] at hmem
  rcases hmem with ⟨rfl, hop⟩ | ⟨rfl, hop⟩ | ⟨rfl, hop⟩ | ⟨rfl, hop⟩ | ⟨rfl, hop⟩ | ⟨rfl, hop⟩
  all_goals have hfound := sides.renderWhenWith_found rfl rfl; rw [hop] at hfound
  case inl => exact hfound _
  case inr.inl => exact step (by decide) (hfound _)
  case inr.inr.inl => exact step (by decide) (step (by decide) (hfound _))
  case inr.inr.inr.inl =>
    exact step (by decide) (step (by decide) (step (by decide) (step (by decide) (hfound _))))
  case inr.inr.inr.inr.inl =>
    exact step (by decide) (step (by decide) (step (by decide) (step (by decide)
      (step (by decide) (hfound _)))))
  case inr.inr.inr.inr.inr =>
    exact step (by decide) (step (by decide) (step (by decide) (hfound _)))

end Lazuli.Codegen
