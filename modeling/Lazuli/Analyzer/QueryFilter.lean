import Lazuli.Analyzer.Operand
import Mathlib.Data.List.Forall2

/-!
The `filters` block of a query (`lower_query_filter_lines` in `query.rs`).

A line becomes one comparison of a column with a constant or a runtime path, or nothing: what
cannot be split at an operator is dropped, and nobody hears of it. `Line.Written` is what the
documentation says a line may be (`docs/canonical-semantics.md`, `docs/grammar.lzi.md`): fields,
comparisons, `has`, `AND`, `OR`, `NOT`, and a guard `when params.x`, with a short form. Both
sides of the question mean something in a `Scene`: a row, the parameters, and a database, whose
comparisons are its own.

The block keeps its meaning exactly when every line of it is a comment or a single comparison.
-/

namespace Lazuli.Analyzer

open General.Quoted General.Text
open Codegen (closedOperators)
open Ir (Expr CompareOp Predicate Filter)

/-! ### Lowering -/

/-- The left side is always a column reference. -/
def filterLhsExpr (text : List Char) : Expr := pathOf (text.splitOn '.')

/-- A single word is an enum variant. -/
def variant (w : List Char) : Expr := .enum (String.ofList w)

def filterRhsExpr (text : List Char) : Expr :=
  let text := trim text
  match literalOf text with
  | some e => e
  | none => if '.' ∈ text then pathOf (text.splitOn '.') else variant text

/-- The body of the loop, for the operator that is found, and the end of the function. -/
def comparisonFilter : Option (CompareOp × List Char × List Char) → Option Filter
  | none => none
  | some (op, lhs, rhs) =>
      if (trim lhs).isEmpty || (trim rhs).isEmpty then none
      else some
        { predicate := .comparison (filterLhsExpr (trim lhs)) op (filterRhsExpr (trim rhs))
          when := none }

/-- Blank, or a comment. -/
def isComment (text : String) : Bool :=
  (trim text.toList).isEmpty || (trim text.toList).head? = some '#'

def parseQueryFilterLine (text : String) : Except Panic (Option Filter) :=
  if isComment text then .ok none
  else (firstOperator (trim text.toList) closedOperators).map comparisonFilter

def lowerQueryFilterLines : List String → Except Panic (List Filter)
  | [] => .ok []
  | line :: lines =>
      match parseQueryFilterLine line with
      | .error panic => .error panic
      | .ok parsed => (lowerQueryFilterLines lines).map (parsed.toList ++ ·)

/-! ### What a filter and a line mean -/

/-- A row, the parameters of a call and the database they are compared in. -/
structure Scene (V : Type) where
  column : Expr → V
  value : Expr → V
  compares : CompareOp → V → V → Prop
  contains : V → V → Prop
  isTrue : V → Prop
  present : String → Prop

variable {V : Type}

mutual

def Scene.holds (s : Scene V) : Predicate → Prop
  | .comparison left op right => s.compares op (s.column left) (s.value right)
  | .has collection element => s.contains (s.column collection) (s.value element)
  | .and terms => s.allHold terms
  | .or terms => s.anyHolds terms

def Scene.allHold (s : Scene V) : List Predicate → Prop
  | [] => True
  | p :: ps => s.holds p ∧ s.allHold ps

def Scene.anyHolds (s : Scene V) : List Predicate → Prop
  | [] => False
  | p :: ps => s.holds p ∨ s.anyHolds ps

end

/-- A guarded filter does not apply without its parameter. -/
def Scene.satisfies (s : Scene V) (f : Filter) : Prop :=
  (∀ name, f.when = some name → s.present name) → s.holds f.predicate

inductive Clause where
  | truth (field : Expr)
  | compare (left : Expr) (op : CompareOp) (right : Expr)
  | has (collection element : Expr)
  | both (p q : Clause)
  | either (p q : Clause)
  | negated (p : Clause)

def Clause.Holds (s : Scene V) : Clause → Prop
  | .truth field => s.isTrue (s.column field)
  | .compare left op right => s.compares op (s.column left) (s.value right)
  | .has collection element => s.contains (s.column collection) (s.value element)
  | .both p q => p.Holds s ∧ q.Holds s
  | .either p q => p.Holds s ∨ q.Holds s
  | .negated p => ¬ p.Holds s

structure Line where
  clause : Clause
  when : Option String

def Line.Holds (s : Scene V) (l : Line) : Prop :=
  (∀ name, l.when = some name → s.present name) → l.clause.Holds s

/-! ### What may be written -/

/-- Words with dots between them. -/
def FieldPath (s : List Char) : Prop := ∀ segment ∈ s.splitOn '.', isWord segment = true

inductive Level where
  | factor
  | term
  | clause
  deriving DecidableEq

inductive Clause.Written : Level → List Char → Clause → Prop where
  | truth {t : List Char} : FieldPath (trim t) →
      Written .factor t (.truth (filterLhsExpr (trim t)))
  | compare {lhs rhs : List Char} {op : CompareOp} {right : Expr} : FieldPath (trim lhs) →
      Operand variant (trim rhs) right →
      Written .factor (lhs ++ (token op ++ rhs)) (.compare (filterLhsExpr (trim lhs)) op right)
  | has {lhs rhs : List Char} {right : Expr} : FieldPath (trim lhs) →
      Operand variant (trim rhs) right →
      Written .factor (lhs ++ (" has ".toList ++ rhs)) (.has (filterLhsExpr (trim lhs)) right)
  | group {t inner : List Char} {p : Clause} : trim t = '(' :: (inner ++ [')']) →
      Written .clause inner p → Written .factor t p
  | negated {t inner : List Char} {p : Clause} : trim t = "NOT ".toList ++ inner →
      Written .factor inner p → Written .factor t (.negated p)
  | factor {t : List Char} {p : Clause} : Written .factor t p → Written .term t p
  | both {t u : List Char} {p q : Clause} : Written .factor t p → Written .term u q →
      Written .term (t ++ (" AND ".toList ++ u)) (.both p q)
  | term {t : List Char} {p : Clause} : Written .term t p → Written .clause t p
  | either {t u : List Char} {p q : Clause} : Written .term t p → Written .clause u q →
      Written .clause (t ++ (" OR ".toList ++ u)) (.either p q)

inductive Line.Written : List Char → Line → Prop where
  | always {t : List Char} {p : Clause} : p.Written .clause t → Written t ⟨p, none⟩
  | guarded {t name : List Char} {p : Clause} : p.Written .clause t → isWord name = true →
      Written (t ++ (" when params.".toList ++ name)) ⟨p, some (String.ofList name)⟩
  /-- `status when params.status` compares the field with the parameter. -/
  | short {field name : List Char} : FieldPath (trim field) → isWord name = true →
      Written (field ++ (" when params.".toList ++ name))
        ⟨.compare (filterLhsExpr (trim field)) .eq (pathOf ["params".toList, name]),
          some (String.ofList name)⟩

/-- The filter is true exactly when the line is. -/
def Means (line : String) (f : Filter) : Prop :=
  ∃ l, Line.Written (trim line.toList) l ∧ ∀ (V : Type) (s : Scene V), s.satisfies f ↔ l.Holds s

/-- Lowering ends, and there is a filter for every line that is no comment, in their order,
which means what the line means. -/
def KeepsMeaning (lines : List String) : Prop :=
  ∃ filters, lowerQueryFilterLines lines = .ok filters ∧
    List.Forall₂ Means (lines.filter fun line => !isComment line) filters

/-- A comment, or one comparison of a field with an operand. -/
def Plain (line : String) : Prop :=
  isComment line = true ∨ Sliceable (trim line.toList) ∧ ∃ lhs op rhs right,
    trim line.toList = lhs ++ (token op ++ rhs) ∧ FieldPath (trim lhs) ∧
      Operand variant (trim rhs) right

/-! ### Operands -/

section Operands

variable {s t : List Char} {e : Expr}

theorem FieldPath.dotted_splitOn (s : List Char) : dotted (s.splitOn '.') = s :=
  List.intercalate_splitOn '.'

theorem FieldPath.side (path : FieldPath s) : Side s := by
  rw [← FieldPath.dotted_splitOn s]
  exact side_dotted fun segment hsegment => isOrdinary_of_isWord (path segment hsegment)

theorem FieldPath.ne_nil (path : FieldPath s) : s ≠ [] := by
  rintro rfl
  exact absurd (path [] List.mem_cons_self) Bool.false_ne_true

/-- The column of a text that is no field path is the column of none. -/
theorem FieldPath.of_eq (path : FieldPath t) (h : filterLhsExpr s = filterLhsExpr t) :
    FieldPath s := by
  have same : s.splitOn '.' = t.splitOn '.' := pathOf_injective h
  unfold FieldPath
  rw [same]
  exact path

theorem filterRhsExpr_operand (operand : Operand variant (trim s) e) :
    filterRhsExpr (trim s) = e := by
  unfold filterRhsExpr
  dsimp only
  rw [trim_trim]
  generalize trim s = t at operand
  cases operand with
  | literal literal => rw [literal.literalOf]
  | word word hk =>
      rw [literalOf_word word hk]
      exact if_neg (dot_notMem_of_isWord word)
  | path root ne words =>
      rw [literalOf_path root ne]
      dsimp only
      rw [if_pos (dot_mem_dotted ne),
        splitOn_dotted (List.cons_ne_nil _ _) (dot_notMem_path root words)]

/-- What a text that is no operand is lowered to is no operand either. -/
theorem operand_of_filterRhsExpr (operand : Operand variant t (filterRhsExpr (trim s))) :
    ∃ e, Operand variant (trim s) e := by
  unfold filterRhsExpr at operand
  dsimp only at operand
  rw [trim_trim] at operand
  generalize trim s = u at operand
  cases hlit : literalOf u with
  | some e =>
      rw [hlit] at operand
      dsimp only at operand
      refine ⟨e, .literal (literal_of_literalOf hlit ?_)⟩
      rintro inner rfl
      generalize he : Expr.string (String.ofList inner) = e at operand
      cases operand with
      | literal literal =>
          cases literal with
          | string plain =>
              rw [String.ofList_injective (Expr.string.inj he)]
              exact plain
          | integer _ => cases he
          | yes => cases he
          | no => cases he
          | nil => cases he
      | word _ _ => cases he
      | path _ _ _ => cases he
  | none =>
      rw [hlit] at operand
      dsimp only at operand
      split at operand
      · generalize he : pathOf (u.splitOn '.') = e at operand
        cases operand with
        | literal literal => cases literal <;> cases he
        | word _ _ => cases he
        | @path root rest hroot ne words =>
            refine ⟨pathOf (root :: rest), ?_⟩
            rw [← FieldPath.dotted_splitOn u, pathOf_injective he]
            exact .path hroot ne words
      · generalize he : variant u = e at operand
        cases operand with
        | literal literal => cases literal <;> cases he
        | word word hk =>
            rw [String.ofList_injective (Expr.enum.inj he)]
            exact ⟨_, .word word hk⟩
        | path _ _ _ => cases he

end Operands

/-! ### One line -/

section Meaning

variable {t : List Char} {p : Clause} {l : Line} {line : String} {f : Filter}

/-- Two scenes with the same database, and with the same values of what can be written. -/
structure Scene.Agrees (s s' : Scene V) : Prop where
  column : ∀ path, FieldPath path → s.column (filterLhsExpr path) = s'.column (filterLhsExpr path)
  value : ∀ t e, Operand variant t e → s.value e = s'.value e
  compares : s.compares = s'.compares
  contains : s.contains = s'.contains
  isTrue : s.isTrue = s'.isTrue
  present : s.present = s'.present

theorem Clause.Written.congr {level : Level} {s s' : Scene V} (agrees : s.Agrees s')
    (written : p.Written level t) : p.Holds s ↔ p.Holds s' := by
  induction written with
  | truth path =>
      unfold Clause.Holds
      rw [agrees.column _ path, agrees.isTrue]
  | compare path operand =>
      unfold Clause.Holds
      rw [agrees.column _ path, agrees.value _ _ operand, agrees.compares]
  | has path operand =>
      unfold Clause.Holds
      rw [agrees.column _ path, agrees.value _ _ operand, agrees.contains]
  | group _ _ ih => exact ih
  | negated _ _ ih => exact not_congr ih
  | factor _ ih => exact ih
  | both _ _ ih ih' => exact and_congr ih ih'
  | term _ ih => exact ih
  | either _ _ ih ih' => exact or_congr ih ih'

theorem Line.Written.congr {s s' : Scene V} (agrees : s.Agrees s') (written : Line.Written t l) :
    l.Holds s ↔ l.Holds s' := by
  cases written with
  | always clause => 
      unfold Line.Holds
      rw [agrees.present, clause.congr agrees]
  | guarded clause _ =>
      unfold Line.Holds
      rw [agrees.present, clause.congr agrees]
  | @short field name path word =>
      have operand : Operand variant (dotted ["params".toList, name])
          (pathOf ["params".toList, name]) := by
        refine .path rfl (List.cons_ne_nil _ _) ?_
        intro segment hsegment
        exact List.mem_singleton.mp hsegment ▸ word
      unfold Line.Holds Clause.Holds
      rw [agrees.present, agrees.column _ path, agrees.value _ _ operand, agrees.compares]

/-- A filter that means a line cannot tell the scenes apart either. -/
theorem Means.congr {s s' : Scene V} (means : Means line f) (agrees : s.Agrees s') :
    s.satisfies f ↔ s'.satisfies f := by
  obtain ⟨l, written, same⟩ := means
  rw [same V s, same V s', written.congr agrees]

theorem satisfies_comparison {s : Scene V} {left right : Expr} {op : CompareOp} :
    s.satisfies ⟨.comparison left op right, none⟩ ↔
      s.compares op (s.column left) (s.value right) := by
  unfold Scene.satisfies Scene.holds
  exact forall_prop_of_true fun _ no => by cases no

theorem holds_always {s : Scene V} : Line.Holds s ⟨p, none⟩ ↔ p.Holds s :=
  forall_prop_of_true fun _ no => by cases no

/-- A filter that means a line compares a field with an operand. -/
theorem operands_of_means {lhs rhs : List Char} {op : CompareOp} (means : Means line
    ⟨.comparison (filterLhsExpr (trim lhs)) op (filterRhsExpr (trim rhs)), none⟩) :
    FieldPath (trim lhs) ∧ ∃ right, Operand variant (trim rhs) right := by
  constructor
  · by_contra noPath
    -- only the comparisons of that column are true, then none is
    let s : Scene Prop := ⟨fun e => e = filterLhsExpr (trim lhs), fun _ => True,
      fun _ a _ => a, fun _ _ => True, fun _ => True, fun _ => True⟩
    have agrees : s.Agrees { s with column := fun _ => False } := by
      refine ⟨fun path hpath => ?_, fun _ _ _ => rfl, rfl, rfl, rfl, rfl⟩
      exact propext ⟨fun heq => noPath (hpath.of_eq heq.symm), False.elim⟩
    have flipped := means.congr agrees
    rw [satisfies_comparison, satisfies_comparison] at flipped
    exact flipped.mp rfl
  · by_contra noOperand
    -- only the comparisons with that value are true, then none is
    let s : Scene Prop := ⟨fun _ => True, fun e => e = filterRhsExpr (trim rhs),
      fun _ _ b => b, fun _ _ => True, fun _ => True, fun _ => True⟩
    have agrees : s.Agrees { s with value := fun _ => False } := by
      refine ⟨fun _ _ => rfl, fun t e operand => ?_, rfl, rfl, rfl, rfl⟩
      refine propext ⟨fun heq => noOperand ?_, False.elim⟩
      have heq : e = filterRhsExpr (trim rhs) := heq
      rw [heq] at operand
      exact operand_of_filterRhsExpr operand
    have flipped := means.congr agrees
    rw [satisfies_comparison, satisfies_comparison] at flipped
    exact flipped.mp rfl

/-- The ways of a line that is no comment. -/
theorem parseQueryFilterLine_cases (h : isComment line = false) :
    ¬ Sliceable (trim line.toList) ∧ parseQueryFilterLine line = .error .charBoundary ∨
    Sliceable (trim line.toList) ∧ (∀ op lhs rhs, ¬ Decides (trim line.toList) op lhs rhs) ∧
      parseQueryFilterLine line = .ok none ∨
    Sliceable (trim line.toList) ∧ ∃ op lhs rhs, Decides (trim line.toList) op lhs rhs ∧
      parseQueryFilterLine line = .ok (comparisonFilter (some (op, lhs, rhs))) := by
  unfold parseQueryFilterLine
  rw [h]
  rcases firstOperator_cases (trim line.toList) with ⟨bad, hfirst⟩ | ⟨good, none, hfirst⟩ |
    ⟨good, op, lhs, rhs, decides, hfirst⟩
  · exact .inl ⟨bad, by rw [hfirst]; rfl⟩
  · exact .inr (.inl ⟨good, none, by rw [hfirst]; rfl⟩)
  · exact .inr (.inr ⟨good, op, lhs, rhs, decides, by rw [hfirst]; rfl⟩)

/-- A line that is no comment becomes a filter that means it exactly when it is plain. -/
theorem means_iff_plain (h : isComment line = false) :
    (∃ f, parseQueryFilterLine line = .ok (some f) ∧ Means line f) ↔ Plain line := by
  have plain_iff : Plain line ↔ Sliceable (trim line.toList) ∧ ∃ lhs op rhs right,
      trim line.toList = lhs ++ (token op ++ rhs) ∧ FieldPath (trim lhs) ∧
        Operand variant (trim rhs) right := by
    unfold Plain
    rw [h]
    exact or_iff_right Bool.false_ne_true
  rw [plain_iff]
  constructor
  · rintro ⟨f, hparse, means⟩
    rcases parseQueryFilterLine_cases h with ⟨-, hcase⟩ | ⟨-, -, hcase⟩ |
      ⟨good, op, lhs, rhs, decides, hcase⟩
    · rw [hparse] at hcase
      cases hcase
    · rw [hparse] at hcase
      cases hcase
    · rw [hparse, comparisonFilter] at hcase
      by_cases blank : ((trim lhs).isEmpty || (trim rhs).isEmpty) = true
      · rw [if_pos blank] at hcase
        cases hcase
      · rw [if_neg blank] at hcase
        obtain rfl := Option.some.inj (Except.ok.inj hcase)
        obtain ⟨path, right, operand⟩ := operands_of_means means
        exact ⟨good, lhs, op, rhs, right, decides.split, path, operand⟩
  · rintro ⟨good, lhs, op, rhs, right, ht, path, operand⟩
    have written : Decides (trim line.toList) op lhs rhs :=
      ht ▸ decides_of_single (side_of_trim path.side) (side_of_trim operand.side)
    rcases parseQueryFilterLine_cases h with ⟨bad, -⟩ | ⟨-, none, -⟩ |
      ⟨-, op', lhs', rhs', decides, hcase⟩
    · exact absurd good bad
    · exact absurd written (none op lhs rhs)
    · obtain ⟨rfl, rfl, rfl⟩ := written.unique decides
      have full : ¬ ((trim lhs).isEmpty || (trim rhs).isEmpty) = true := by
        simp [path.ne_nil, operand.ne_nil]
      rw [comparisonFilter, if_neg full, filterRhsExpr_operand operand] at hcase
      refine ⟨_, hcase, ⟨.compare (filterLhsExpr (trim lhs)) op right, none⟩, ?_, ?_⟩
      · rw [ht]
        exact .always (.term (.factor (.compare path operand)))
      · intro V s
        rw [satisfies_comparison, holds_always]
        rfl

end Meaning

/-! ### The block -/

section Block

variable {line : String} {lines : List String} {filters : List Filter}

theorem lower_cons (h : lowerQueryFilterLines (line :: lines) = .ok filters) :
    ∃ parsed rest, parseQueryFilterLine line = .ok parsed ∧
      lowerQueryFilterLines lines = .ok rest ∧ filters = parsed.toList ++ rest := by
  rw [lowerQueryFilterLines] at h
  cases hline : parseQueryFilterLine line with
  | error panic =>
      rw [hline] at h
      cases h
  | ok parsed =>
      rw [hline] at h
      cases hrest : lowerQueryFilterLines lines with
      | error panic =>
          rw [hrest] at h
          cases h
      | ok rest =>
          rw [hrest] at h
          exact ⟨parsed, rest, rfl, rfl, (Except.ok.inj h).symm⟩

theorem parse_comment (h : isComment line = true) : parseQueryFilterLine line = .ok none := by
  unfold parseQueryFilterLine
  rw [h]
  rfl

/-- There are at most as many filters as lines that are no comment. -/
theorem length_lower (h : lowerQueryFilterLines lines = .ok filters) :
    filters.length ≤ (lines.filter fun line => !isComment line).length := by
  induction lines generalizing filters with
  | nil =>
      obtain rfl := Except.ok.inj h
      exact Nat.le_refl _
  | cons line lines ih =>
      obtain ⟨parsed, rest, hline, hrest, rfl⟩ := lower_cons h
      have fewer := ih hrest
      cases comment : isComment line with
      | true =>
          rw [parse_comment comment] at hline
          obtain rfl := Except.ok.inj hline
          rw [List.filter_cons_of_neg (by simp [comment])]
          exact fewer
      | false =>
          rw [List.filter_cons_of_pos (by simp [comment]), List.length_append, List.length_cons,
            Nat.add_comm]
          exact Nat.add_le_add fewer (by cases parsed <;> simp)

theorem keepsMeaning_cons : KeepsMeaning (line :: lines) ↔ Plain line ∧ KeepsMeaning lines := by
  cases comment : isComment line with
  | true =>
      have same : KeepsMeaning (line :: lines) ↔ KeepsMeaning lines := by
        have lower : lowerQueryFilterLines (line :: lines) = lowerQueryFilterLines lines := by
          rw [lowerQueryFilterLines, parse_comment comment]
          cases lowerQueryFilterLines lines <;> rfl
        unfold KeepsMeaning
        rw [lower, List.filter_cons_of_neg (by simp [comment])]
      rw [same]
      exact (and_iff_right (.inl comment)).symm
  | false =>
      rw [← means_iff_plain comment]
      unfold KeepsMeaning
      rw [List.filter_cons_of_pos (by simp [comment])]
      constructor
      · rintro ⟨filters, h, all⟩
        obtain ⟨parsed, rest, hline, hrest, rfl⟩ := lower_cons h
        cases parsed with
        | none =>
            -- one filter is missing
            have length := all.length_eq
            have fewer := length_lower hrest
            simp only [Option.toList_none, List.nil_append, List.length_cons] at length
            omega
        | some f =>
            obtain ⟨means, others⟩ := List.forall₂_cons.mp all
            exact ⟨⟨f, hline, means⟩, rest, hrest, others⟩
      · rintro ⟨⟨f, hline, means⟩, rest, hrest, others⟩
        refine ⟨f :: rest, ?_, .cons means others⟩
        rw [lowerQueryFilterLines, hline, hrest]
        rfl

/-- **A `filters` block keeps its meaning exactly when all its lines are plain.** -/
theorem keeps_meaning_iff (lines : List String) :
    KeepsMeaning lines ↔ ∀ line ∈ lines, Plain line := by
  induction lines with
  | nil => exact ⟨fun _ _ h => absurd h List.not_mem_nil, fun _ => ⟨[], rfl, .nil⟩⟩
  | cons line lines ih => rw [keepsMeaning_cons, ih, List.forall_mem_cons]

/-- The short form of a guarded filter is dropped: the query returns what it should filter. -/
theorem guarded_filter_dropped : ¬ KeepsMeaning ["status when params.status"] := by
  rintro ⟨filters, h, all⟩
  have dropped : lowerQueryFilterLines ["status when params.status"] = .ok [] := rfl
  rw [dropped] at h
  obtain rfl := Except.ok.inj h
  have kept : (["status when params.status"].filter fun line => !isComment line) =
      ["status when params.status"] := rfl
  rw [kept] at all
  cases all

end Block

end Lazuli.Analyzer
