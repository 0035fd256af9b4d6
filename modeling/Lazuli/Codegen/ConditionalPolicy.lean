import Lazuli.Codegen.PolicyCorrect
import Lazuli.General.Text
import Mathlib.Algebra.Group.Int.Defs

/-!
Command-level policy texts `@policy.a [when p], @policy.b [when q], ...`
(`parse_conditional_policy_refs` in `crates/lazuli_ir`, `format_conditional_policy` and
`render_when_text` in the Go emitter), and the predicate parser that in-category guards
go through (`parse_closed_predicate` in `crates/lazuli_analyzer`).

The two ways to read a predicate differ: the analyzer looks for its operators outside
string literals, the emitter looks for them anywhere.
-/

namespace Lazuli.Codegen

open Lazuli.General.Text
open Lazuli.Runtime (PolicyWhen Policy Value)
open Lazuli.Ir (Policies EvalPredicate CompareOp)

/-! ### Literals -/

def isAsciiDigit (c : Char) : Bool := '0' ≤ c ∧ c ≤ '9'

def digitsValue (digits : List Char) : Option Int :=
  if digits.isEmpty || !digits.all isAsciiDigit then none
  else some (digits.foldl (fun n d => 10 * n + ((d.toNat : Int) - 48)) 0)

/-- `str::parse::<i64>`. -/
def parseI64 (s : List Char) : Option Int :=
  let n := match s with
    | '-' :: digits => (digitsValue digits).map (- ·)
    | '+' :: digits => digitsValue digits
    | digits => digitsValue digits
  n.filter fun n => -(2 ^ 63) ≤ n ∧ n < 2 ^ 63

/-- What stands between the quotes, if the text starts and ends with one. -/
def stripQuotes (s : List Char) : Option (List Char) :=
  (s.dropPrefix? ['"']).bind fun s => s.dropSuffix? ['"']

def renderWhenLiteral (rhs : List Char) : Option Value :=
  match stripQuotes rhs with
  | some inner => some (.string (String.ofList inner))
  | none =>
      if rhs = "true".toList then some (.bool true)
      else if rhs = "false".toList then some (.bool false)
      else if rhs = "nil".toList then some .nil
      else (parseI64 rhs).map .int

/-! ### Predicates in categories -/

def exprFromText (text : List Char) : Ir.Expr :=
  let text := trim text
  match stripQuotes text with
  | some stripped => .string (String.ofList stripped)
  | none =>
      match parseI64 text with
      | some n => .integer n
      | none =>
          if text = "true".toList then .boolean true
          else if text = "false".toList then .boolean false
          else if text = "nil".toList then .nil
          else .path { segments := (text.splitOn '.').map String.ofList }

/-- The first place outside quotes where `op` stands: what is before it and after it. -/
def findTopLevelOperator (op : List Char) (inQuote : Bool) :
    List Char → Option (List Char × List Char)
  | [] => none
  | b :: rest =>
      let next (inQuote : Bool) :=
        (findTopLevelOperator op inQuote rest).map fun (before, after) => (b :: before, after)
      if b = '"' then next !inQuote
      else if inQuote then next inQuote
      else match (b :: rest).dropPrefix? op with
        | some after => some ([], after)
        | none => next inQuote

def closedOperators : List (String × CompareOp) :=
  [("<=", .le), (">=", .ge), ("!=", .ne), ("<", .lt), (">", .gt), ("==", .eq)]

/-- The first operator of the list that occurs decides. -/
def parseClosedWith (text : String) (trimmed : List Char) :
    List (String × CompareOp) → EvalPredicate
  | [] => .unparsed text
  | (token, op) :: operators =>
      match findTopLevelOperator token.toList false trimmed with
      | some (lhs, rhs) =>
          if (trim lhs).isEmpty || (trim rhs).isEmpty then .unparsed text
          else .closed (.comparison (exprFromText (trim lhs)) op (exprFromText (trim rhs)))
      | none => parseClosedWith text trimmed operators

def parseClosedPredicate (text : String) : EvalPredicate :=
  parseClosedWith text (trim text.toList) closedOperators

/-! ### Predicates on references -/

def whenOperators : List (String × String) :=
  [("<=", "<="), (">=", ">="), ("!=", "!="), ("==", "="), ("<", "<"), (">", ">")]

/-- The two sides of an operator as a guard. -/
def whenSides (lhs rhs : List Char) (op : String) : Option PolicyWhen :=
  if lhs.isEmpty || rhs.isEmpty then none
  else if lhs.head? = some '"' || lhs.head?.any isAsciiDigit then none
  else (renderWhenLiteral rhs).map fun value => { path := String.ofList lhs, op, value }

/-- The first operator of the list that occurs anywhere decides. -/
def renderWhenWith (trimmed : List Char) : List (String × String) → Option PolicyWhen
  | [] => none
  | (token, op) :: operators =>
      match trimmed.dropInfix? token.toList with
      | some (lhs, rhs) => whenSides (trim lhs) (trim rhs) op
      | none => renderWhenWith trimmed operators

def renderWhenText (text : String) : Option PolicyWhen :=
  renderWhenWith (trim text.toList) whenOperators

/-! ### References -/

structure ConditionalPolicyRef where
  name : String
  when : Option String
  deriving DecidableEq

/-- The parts between commas outside quotes; `part` is the one being read. -/
def splitTopLevelCommas (inStr : Bool) (part : List Char) : List Char → List (List Char)
  | [] => [part]
  | ch :: rest =>
      if ch = '"' then splitTopLevelCommas (!inStr) (part ++ [ch]) rest
      else if ch = ',' && !inStr then part :: splitTopLevelCommas inStr [] rest
      else splitTopLevelCommas inStr (part ++ [ch]) rest

/-- The search of `split_ref_when`: `before` has been passed, and the next `skip` characters
belong to a ` when ` that had nothing on one side. -/
def findWhen (skip : Nat) (before : List Char) : List Char → Option (List Char × List Char)
  | [] => none
  | c :: rest =>
      match skip with
      | skip + 1 => findWhen skip (before ++ [c]) rest
      | 0 =>
          match (c :: rest).dropPrefix? " when ".toList with
          | some after =>
              if (trim before).isEmpty || (trim after).isEmpty then
                findWhen (" when ".length - 1) (before ++ [c]) rest
              else some (trim before, trim after)
          | none => findWhen 0 (before ++ [c]) rest

def splitRefWhen (entry : List Char) : List Char × Option (List Char) :=
  match findWhen 0 [] entry with
  | some (atom, when) => (atom, some when)
  | none => (trim entry, none)

/-- One entry, `@policy.<name> [when <predicate>]`; the `@` may be missing. -/
def parseConditionalRef (entry : List Char) : Option ConditionalPolicyRef :=
  let trimmed := trim entry
  if trimmed.isEmpty then none
  else
    let (refText, whenText) := splitRefWhen trimmed
    let stripped := (refText.dropPrefix? ['@']).getD refText
    match stripped.dropPrefix? "policy.".toList with
    | none => none
    | some name =>
        if name.isEmpty || name.any isWhitespace then none
        else some { name := String.ofList name, when := whenText.map String.ofList }

/-- A single unconditional reference is left to the other resolution paths. -/
def parseConditionalPolicyRefs (raw : String) : Option (List ConditionalPolicyRef) :=
  match (splitTopLevelCommas false [] raw.toList).mapM parseConditionalRef with
  | none => none
  | some refs => if 2 ≤ refs.length ∨ refs.any (·.when.isSome) then some refs else none

/-- Why a reference has no atoms. -/
inductive RefFailure where
  | missing
  | empty
  deriving DecidableEq

/-- The atoms of the category a reference names. The category's own conditional atoms are
taken without their guards. -/
def refAtoms (policies : Policies) (name : String) : Except RefFailure (List (String × String)) :=
  match builtinScopeAtom name with
  | some scope => .ok [("scope", scope)]
  | none =>
      match policies.find name with
      | none => .error .missing
      | some category =>
          let out := category.atoms.map Ir.splitNsName ++
            category.conditionalAtoms.map fun ca => Ir.splitNsName ca.atom
          if out.isEmpty then .error .empty else .ok out

/-- Every atom of a reference carries the guard of the reference, if one is rendered. -/
def refGroup (policies : Policies) (r : ConditionalPolicyRef) :
    Except RefFailure (List Runtime.PolicyAtom) :=
  let whenLit := r.when.bind renderWhenText
  (refAtoms policies r.name).map fun atoms =>
    orGroup (atoms.map fun (ns, name) => { ns, name, when := whenLit })

/-- `none`: not this form, or a category is missing. `some none`: a category is empty, and
the caller denies. -/
def formatConditionalPolicy (raw : String) (policies : Policies) : Option (Option Policy) :=
  match parseConditionalPolicyRefs raw with
  | none => none
  | some refs =>
      match refs.mapM (refGroup policies) with
      | .error .missing => none
      | .error .empty => some none
      | .ok groups =>
          some (some { name := raw, atoms := General.Infix.joined (predicateAtom "or") groups })

end Lazuli.Codegen
