import Lazuli.Runtime.Policy

/-!
The policy part of the intermediate representation (`crates/lazuli_ir/src/nodes`).

A `PolicyCategory` only holds atoms whose namespace is in the closed catalogue of
reference namespaces: the analyzer lets no other through, and the evaluator's markers
(`predicate`) are not in it. That is a field, so a category with a stray marker cannot be
built. Guards of in-category atoms are `EvalPredicate`s; a guard on a command-level
reference is still text.
-/

namespace Lazuli.Ir

/-! ### Policy expressions -/

structure PolicyAtom where
  ns : String
  name : String
  deriving DecidableEq

inductive PolicyExpr where
  | authenticated
  | hasRole (name : String)
  | hasPermission (perm : String)
  | atom (atom : PolicyAtom)
  | and (terms : List PolicyExpr)
  | or (terms : List PolicyExpr)
  | not (inner : PolicyExpr)

/-- Conjunctions and disjunctions have a term, and no atom poses as a marker. -/
inductive PolicyExpr.WellFormed : PolicyExpr → Prop
  | authenticated : WellFormed .authenticated
  | hasRole (name : String) : WellFormed (.hasRole name)
  | hasPermission (perm : String) : WellFormed (.hasPermission perm)
  | atom {a : PolicyAtom} : a.ns ≠ "predicate" → WellFormed (.atom a)
  | and {terms : List PolicyExpr} :
      terms ≠ [] → (∀ term ∈ terms, WellFormed term) → WellFormed (.and terms)
  | or {terms : List PolicyExpr} :
      terms ≠ [] → (∀ term ∈ terms, WellFormed term) → WellFormed (.or terms)
  | not {inner : PolicyExpr} : WellFormed inner → WellFormed (.not inner)

/-! ### Predicates -/

structure Path where
  segments : List String
  deriving DecidableEq

/-- The dotted form of a path. -/
def Path.text (p : Path) : String := ".".intercalate p.segments

inductive Expr where
  | path (p : Path)
  | string (s : String)
  | integer (n : Int)
  | boolean (b : Bool)
  | enum (name : String)
  | nil
  | fnCall (name : String) (args : List Expr)

inductive CompareOp where
  | eq
  | ne
  | lt
  | le
  | gt
  | ge
  deriving DecidableEq

inductive Predicate where
  | comparison (left : Expr) (op : CompareOp) (right : Expr)
  | has (collection element : Expr)
  | and (terms : List Predicate)
  | or (terms : List Predicate)

/-- One line of a query's `filters`. `when` is the parameter that switches it on. -/
structure Filter where
  predicate : Predicate
  when : Option String

/-- Of the shapes that are no closed predicate only the source text is kept. -/
inductive EvalPredicate where
  | closed (p : Predicate)
  | contains (text : String)
  | toolsCalls (text : String)
  | unparsed (text : String)

/-! ### Categories -/

def REFERENCE_NAMESPACES : List String :=
  ["role", "scope", "actor", "policy", "semantic", "cap", "pii", "key", "fn", "hook",
    "validator", "adapter", "client", "query_modifier", "anchor", "llm", "tool", "trace",
    "translation", "feature", "file", "audience", "doctor"]

def isReferenceNamespace (ns : String) : Bool := ns ∈ REFERENCE_NAMESPACES

theorem predicate_not_reference : isReferenceNamespace "predicate" = false := by decide

/-- `@<ns>.<name>` (the `@` may be missing) as its two parts, split at the first dot. -/
def splitNsName (atom : String) : String × String :=
  let stripped := (atom.toList.dropPrefix? ['@']).getD atom.toList
  (String.ofList (stripped.takeWhile (· ≠ '.')),
    String.ofList ((stripped.dropWhile (· ≠ '.')).drop 1))

structure ConditionalPolicyAtom where
  atom : String
  when : EvalPredicate

structure PolicyCategory where
  name : String
  atoms : List String
  conditionalAtoms : List ConditionalPolicyAtom
  registered : ∀ atom ∈ atoms ++ conditionalAtoms.map (·.atom),
    isReferenceNamespace (splitNsName atom).1 = true

structure Policies where
  categories : List PolicyCategory

/-- The first category of that name. -/
def Policies.find (policies : Policies) (name : String) : Option PolicyCategory :=
  policies.categories.find? fun c => c.name = name

end Lazuli.Ir

/-!
What policies mean, apart from how they are lowered.

An expression is a Boolean formula over its leaves (`PolicyExpr.denote`). A guard that
is written as a comparison of an input path with a literal means that comparison
(`Comparison.holds`); for guards of any other shape a `Meaning` is a parameter, so that
what is proved holds whatever they are taken to mean. A category is the disjunction of
its branches.
-/

namespace Lazuli.Ir

open Lazuli.Runtime (Rbac Ctx Slot Value)

/-! ### Expressions -/

section Expressions

variable (hooks : Rbac) (ctx : Ctx)

/-- An atom of the surface language, read by the runtime. -/
def leafMatches (ns name : String) : Bool := Runtime.atomMatches hooks ctx { ns, name }

mutual

def PolicyExpr.denote : PolicyExpr → Bool
  | .authenticated => leafMatches hooks ctx "predicate" "authenticated"
  | .hasRole name => leafMatches hooks ctx "rbac.role" name
  | .hasPermission perm => leafMatches hooks ctx "rbac.permission" perm
  | .atom a => leafMatches hooks ctx a.ns a.name
  | .and terms => denoteAll terms
  | .or terms => denoteAny terms
  | .not inner => !inner.denote

def denoteAll : List PolicyExpr → Bool
  | [] => true
  | term :: terms => term.denote && denoteAll terms

def denoteAny : List PolicyExpr → Bool
  | [] => false
  | term :: terms => term.denote || denoteAny terms

end

theorem denoteAll_eq_all (terms : List PolicyExpr) :
    denoteAll hooks ctx terms = terms.all (PolicyExpr.denote hooks ctx) := by
  induction terms with
  | nil => rfl
  | cons term terms ih => rw [denoteAll, List.all_cons, ih]

theorem denoteAny_eq_any (terms : List PolicyExpr) :
    denoteAny hooks ctx terms = terms.any (PolicyExpr.denote hooks ctx) := by
  induction terms with
  | nil => rfl
  | cons term terms ih => rw [denoteAny, List.any_cons, ih]

end Expressions

/-! ### Guards -/

/-- `<input path> <op> <literal>`. -/
structure Comparison where
  path : String
  op : CompareOp
  literal : Value
  deriving DecidableEq

def CompareOp.holds (op : CompareOp) (got want : Value) : Bool :=
  match op with
  | .eq => Runtime.whenEqual got want
  | .ne => !Runtime.whenEqual got want
  | .lt => (Runtime.whenOrder got want).any (·.isLT)
  | .le => (Runtime.whenOrder got want).any (·.isLE)
  | .gt => (Runtime.whenOrder got want).any (·.isGT)
  | .ge => (Runtime.whenOrder got want).any (·.isGE)

/-- The field that the path names is there and compares as the operator says. Without an
input no comparison holds. -/
def Comparison.holds (c : Comparison) (input : Option Slot) : Bool :=
  match input with
  | none => false
  | some input =>
      match Runtime.readPath input (Runtime.trimPrefix c.path "input.") with
      | .error _ => false
      | .ok got => c.op.holds got c.literal

def Expr.literal? : Expr → Option Value
  | .string s => some (.string s)
  | .integer n => some (.int n)
  | .boolean b => some (.bool b)
  | .nil => some .nil
  | _ => none

/-- The comparison that a closed predicate is, if the path is on its left and a literal on
its right. -/
def EvalPredicate.comparison? : EvalPredicate → Option Comparison
  | .closed (.comparison (.path p) op right) =>
      right.literal?.map fun literal => { path := p.text, op, literal }
  | _ => none

/-! ### Categories -/

/-- Some branch is open: an unconditional atom matches, or a conditional one does while
its guard holds. `guard` is what the guards mean. -/
def PolicyCategory.Grants (category : PolicyCategory) (hooks : Rbac) (ctx : Ctx)
    (guard : EvalPredicate → Bool) : Prop :=
  (∃ atom ∈ category.atoms,
    leafMatches hooks ctx (splitNsName atom).1 (splitNsName atom).2 = true) ∨
  ∃ ca ∈ category.conditionalAtoms, guard ca.when = true ∧
    leafMatches hooks ctx (splitNsName ca.atom).1 (splitNsName ca.atom).2 = true

instance (category : PolicyCategory) (hooks : Rbac) (ctx : Ctx) (guard : EvalPredicate → Bool) :
    Decidable (category.Grants hooks ctx guard) := by
  unfold PolicyCategory.Grants
  infer_instance

/-- What a comparison guard means; no other guard holds. -/
def EvalPredicate.holds (input : Option Slot) (when : EvalPredicate) : Bool :=
  when.comparison?.any fun c => c.holds input

end Lazuli.Ir
