import Lazuli.Analyzer.Operand

/-!
Closed predicates (`parse_closed_predicate` in `agent.rs`): the guards of `unique … when`,
`invariant when`, `restrict … where` and conditional policy atoms.

The parser promises the subset `<path> <op> <literal>` and leaves richer shapes `Unparsed`. It
splits at the operator that `Decides` the text and takes each side for an operand, whatever it
is. So a text is read as it is written exactly when the operator that decides it has operands on
its sides, or nothing on one side; a conjunction of two comparisons has not.
-/

namespace Lazuli.Analyzer

open General.Quoted General.Text
open Codegen (closedOperators exprFromText)
open Ir (Expr CompareOp EvalPredicate)

/-- The body of the loop, for the operator that is found, and the end of the function. -/
def closedOrUnparsed (text : String) : Option (CompareOp × List Char × List Char) → EvalPredicate
  | none => .unparsed text
  | some (op, lhs, rhs) =>
      if (trim lhs).isEmpty || (trim rhs).isEmpty then .unparsed text
      else .closed (.comparison (exprFromText (trim lhs)) op (exprFromText (trim rhs)))

def parseClosedPredicate (text : String) : Except Panic EvalPredicate :=
  (firstOperator (trim text.toList) closedOperators).map (closedOrUnparsed text)

theorem firstOperator_codegen {text : String} {t : List Char}
    {operators : List (String × CompareOp)} {r : Option (CompareOp × List Char × List Char)}
    (h : firstOperator t operators = .ok r) :
    Codegen.parseClosedWith text t operators = closedOrUnparsed text r := by
  induction operators with
  | nil =>
      obtain rfl := Except.ok.inj h
      rfl
  | cons x operators ih =>
      obtain ⟨name, op⟩ := x
      rw [firstOperator] at h
      cases found : findTopLevelOperator t name.toList with
      | stuck =>
          rw [found] at h
          cases h
      | «at» lhs rhs =>
          have ends : findTopLevelOperator t name.toList ≠ .stuck := by simp [found]
          have same : Codegen.findTopLevelOperator name.toList false t = some (lhs, rhs) :=
            (search_eq ends).trans (congrArg sides found)
          rw [found] at h
          obtain rfl := Except.ok.inj h
          rw [Codegen.parseClosedWith, same]
          rfl
      | nowhere =>
          have ends : findTopLevelOperator t name.toList ≠ .stuck := by simp [found]
          have same : Codegen.findTopLevelOperator name.toList false t = none :=
            (search_eq ends).trans (congrArg sides found)
          rw [found] at h
          rw [Codegen.parseClosedWith, same]
          exact ih h

/-- Without a panic this is the parser that the emitter's guards go through. -/
theorem parseClosedPredicate_codegen {text : String} {p : EvalPredicate}
    (h : parseClosedPredicate text = .ok p) : Codegen.parseClosedPredicate text = p := by
  unfold parseClosedPredicate at h
  cases hr : firstOperator (trim text.toList) closedOperators with
  | error panic =>
      rw [hr] at h
      cases h
  | ok r =>
      rw [hr] at h
      unfold Codegen.parseClosedPredicate
      rw [firstOperator_codegen hr]
      exact Except.ok.inj h

/-! ### Reading what is written -/

/-- A single word is a path of one segment. -/
def wordPath (w : List Char) : Expr := pathOf [w]

/-- The text is one comparison of two operands. -/
def SingleComparison (t : List Char) (left : Expr) (op : CompareOp) (right : Expr) : Prop :=
  ∃ lhs rhs, t = lhs ++ (token op ++ rhs) ∧ Operand wordPath (trim lhs) left ∧
    Operand wordPath (trim rhs) right

/-- No panic; a text that is not one comparison is kept as it is, and one that is taken for a
comparison is that comparison. -/
def ReadAsWritten (text : String) : Prop :=
  parseClosedPredicate text = .ok (.unparsed text) ∨ ∃ left op right,
    parseClosedPredicate text = .ok (.closed (.comparison left op right)) ∧
      SingleComparison (trim text.toList) left op right

/-- What stands outside quotes is ASCII, up to the first `<=`, and the operator that decides the
text has nothing on one side, or operands on both. -/
structure Legible (t : List Char) : Prop where
  sliceable : Sliceable t
  sides : ∀ op lhs rhs, Decides t op lhs rhs → trim lhs = [] ∨ trim rhs = [] ∨
    (∃ left, Operand wordPath (trim lhs) left) ∧ ∃ right, Operand wordPath (trim rhs) right

section Reading

variable {text : String} {t lhs rhs s : List Char} {op : CompareOp} {left right e : Expr}

theorem exprFromText_operand (operand : Operand wordPath (trim s) e) :
    exprFromText (trim s) = e := by
  rw [exprFromText_eq, trim_trim]
  generalize trim s = t at operand
  cases operand with
  | literal literal => rw [literal.literalOf, Option.getD_some]
  | word word hk =>
      have whole : t.splitOn '.' = [t] := by
        have split : (dotted [t]).splitOn '.' = [t] := splitOn_dotted (List.cons_ne_nil _ _)
          fun _ h => List.mem_singleton.mp h ▸ dot_notMem_of_isWord word
        rwa [dotted, List.intercalate_singleton] at split
      rw [literalOf_word word hk, Option.getD_none, whole, wordPath]
  | path root ne words =>
      rw [literalOf_path root ne, Option.getD_none,
        splitOn_dotted (List.cons_ne_nil _ _) (dot_notMem_path root words)]

theorem decides_of_operands (hl : Operand wordPath (trim lhs) left)
    (hr : Operand wordPath (trim rhs) right) : Decides (lhs ++ (token op ++ rhs)) op lhs rhs :=
  decides_of_single (side_of_trim hl.side) (side_of_trim hr.side)

/-- The three ways through the parser. -/
theorem parseClosedPredicate_cases (text : String) :
    ¬ Sliceable (trim text.toList) ∧ parseClosedPredicate text = .error .charBoundary ∨
    Sliceable (trim text.toList) ∧ (∀ op lhs rhs, ¬ Decides (trim text.toList) op lhs rhs) ∧
      parseClosedPredicate text = .ok (.unparsed text) ∨
    Sliceable (trim text.toList) ∧ ∃ op lhs rhs, Decides (trim text.toList) op lhs rhs ∧
      parseClosedPredicate text = .ok (closedOrUnparsed text (some (op, lhs, rhs))) := by
  unfold parseClosedPredicate
  rcases firstOperator_cases (trim text.toList) with ⟨bad, hfirst⟩ | ⟨good, none, hfirst⟩ |
    ⟨good, op, lhs, rhs, decides, hfirst⟩
  · exact .inl ⟨bad, by rw [hfirst]; rfl⟩
  · exact .inr (.inl ⟨good, none, by rw [hfirst]; rfl⟩)
  · exact .inr (.inr ⟨good, op, lhs, rhs, decides, by rw [hfirst]; rfl⟩)

/-- **Closed predicates are read as they are written exactly when they are legible.** -/
theorem read_as_written_iff (text : String) :
    ReadAsWritten text ↔ Legible (trim text.toList) := by
  rcases parseClosedPredicate_cases text with ⟨bad, hparse⟩ | ⟨good, none, hparse⟩ |
    ⟨good, op, lhs, rhs, decides, hparse⟩
  · refine ⟨fun read => ?_, fun legible => absurd legible.sliceable bad⟩
    rcases read with h | ⟨_, _, _, h, -⟩
    · rw [hparse] at h
      cases h
    · rw [hparse] at h
      cases h
  · refine ⟨fun _ => ⟨good, fun op lhs rhs decides => ?_⟩, fun _ => .inl hparse⟩
    exact absurd decides (none op lhs rhs)
  · by_cases blank : trim lhs = [] ∨ trim rhs = []
    · have empty : ((trim lhs).isEmpty || (trim rhs).isEmpty) = true := by
        simpa only [Bool.or_eq_true, List.isEmpty_iff] using blank
      rw [closedOrUnparsed, if_pos empty] at hparse
      refine ⟨fun _ => ⟨good, fun op' lhs' rhs' decides' => ?_⟩, fun _ => .inl hparse⟩
      obtain ⟨-, rfl, rfl⟩ := decides.unique decides'
      exact or_assoc.mp (.inl blank)
    · have full : ¬ ((trim lhs).isEmpty || (trim rhs).isEmpty) = true := by
        simpa only [Bool.or_eq_true, List.isEmpty_iff] using blank
      rw [closedOrUnparsed, if_neg full] at hparse
      constructor
      · rintro (h | ⟨left, op', right, h, lhs', rhs', ht, hl, hr⟩)
        · rw [hparse] at h
          cases h
        · refine ⟨good, fun op₂ lhs₂ rhs₂ decides₂ => .inr (.inr ?_)⟩
          have written : Decides (trim text.toList) op' lhs' rhs' := ht ▸ decides_of_operands hl hr
          obtain ⟨-, rfl, rfl⟩ := written.unique decides₂
          exact ⟨⟨left, hl⟩, ⟨right, hr⟩⟩
      · intro legible
        rcases legible.sides op lhs rhs decides with hl | hr | ⟨⟨left, hl⟩, ⟨right, hr⟩⟩
        · exact absurd (.inl hl) blank
        · exact absurd (.inr hr) blank
        · rw [exprFromText_operand hl, exprFromText_operand hr] at hparse
          exact .inr ⟨left, op, right, hparse, lhs, rhs, decides.split, hl, hr⟩

/-- The segments of a path that is written are words, but for the namespace. -/
theorem isRoot_of_operand {segments : List (List Char)} (operand : Operand wordPath s e)
    (he : e = pathOf segments) : ∀ segment ∈ segments, isRoot segment = true := by
  have root_of_word {w : List Char} (word : isWord w = true) : isRoot w = true := by
    unfold isRoot
    split
    · cases word
    · exact word
  cases operand with
  | literal literal =>
      rw [he] at literal
      cases literal
  | word word _ =>
      obtain rfl := pathOf_injective he
      intro segment hsegment
      rw [List.mem_singleton.mp hsegment]
      exact root_of_word word
  | path root _ words =>
      obtain rfl := pathOf_injective he
      intro segment hsegment
      cases hsegment with
      | head => exact root
      | tail _ hsegment => exact root_of_word (words segment hsegment)

/-- A conjunction is taken for a comparison with what is left of the text. -/
theorem conjunction_misread :
    ¬ ReadAsWritten "self.tier == enterprise AND self.owner == nil" := by
  have hparse : parseClosedPredicate "self.tier == enterprise AND self.owner == nil" =
      .ok (.closed (.comparison (pathOf ["self".toList, "tier".toList]) .eq
        (pathOf ["enterprise AND self".toList, "owner == nil".toList]))) := rfl
  rintro (h | ⟨left, op, right, h, lhs, rhs, -, -, hr⟩)
  · rw [hparse] at h
    cases h
  · rw [hparse] at h
    obtain ⟨-, -, hright⟩ := Ir.Predicate.comparison.inj
      (EvalPredicate.closed.inj (Except.ok.inj h))
    have root := isRoot_of_operand hr hright.symm "owner == nil".toList (by decide)
    revert root
    decide

end Reading

end Lazuli.Analyzer
