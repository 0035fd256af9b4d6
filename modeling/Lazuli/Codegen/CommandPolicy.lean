import Lazuli.Codegen.ConditionalPolicy
import Lazuli.Codegen.PolicyCorrect
import Lazuli.Codegen.Schema

/-!
The policy of a command (`format_policy_with_expr` in `emitter/command/policy.rs`).

An expression goes before the reference. A reference is resolved to a category, to a built-in
name or to a list of conditional references, and denies if it is none of them. What the author
has written is an expression or a category (`CommandPolicy`), which has a value for every
reading of its atoms; `granted_iff` says which value the runtime tests.
-/

namespace Lazuli.Ir

/-! ### The value of an expression -/

section Eval

variable (leaf : String → String → Bool)

mutual

/-- The value of an expression whose atoms are read by `leaf`. -/
def PolicyExpr.eval : PolicyExpr → Bool
  | .authenticated => leaf "predicate" "authenticated"
  | .hasRole name => leaf "rbac.role" name
  | .hasPermission perm => leaf "rbac.permission" perm
  | .atom a => leaf a.ns a.name
  | .and terms => evalAll terms
  | .or terms => evalAny terms
  | .not inner => !inner.eval

def evalAll : List PolicyExpr → Bool
  | [] => true
  | term :: terms => term.eval && evalAll terms

def evalAny : List PolicyExpr → Bool
  | [] => false
  | term :: terms => term.eval || evalAny terms

end

end Eval

mutual

/-- The denotation of an expression is its value when the runtime reads the atoms. -/
theorem PolicyExpr.denote_eq_eval (hooks : Runtime.Rbac) (ctx : Runtime.Ctx) :
    (expr : PolicyExpr) → expr.denote hooks ctx = expr.eval (leafMatches hooks ctx)
  | .authenticated | .hasRole _ | .hasPermission _ | .atom _ => rfl
  | .and terms => denoteAll_eq_evalAll hooks ctx terms
  | .or terms => denoteAny_eq_evalAny hooks ctx terms
  | .not inner => congrArg Bool.not (PolicyExpr.denote_eq_eval hooks ctx inner)

theorem denoteAll_eq_evalAll (hooks : Runtime.Rbac) (ctx : Runtime.Ctx) :
    (terms : List PolicyExpr) → denoteAll hooks ctx terms = evalAll (leafMatches hooks ctx) terms
  | [] => rfl
  | term :: terms => by
      rw [denoteAll, evalAll, PolicyExpr.denote_eq_eval hooks ctx term,
        denoteAll_eq_evalAll hooks ctx terms]

theorem denoteAny_eq_evalAny (hooks : Runtime.Rbac) (ctx : Runtime.Ctx) :
    (terms : List PolicyExpr) → denoteAny hooks ctx terms = evalAny (leafMatches hooks ctx) terms
  | [] => rfl
  | term :: terms => by
      rw [denoteAny, evalAny, PolicyExpr.denote_eq_eval hooks ctx term,
        denoteAny_eq_evalAny hooks ctx terms]

end

end Lazuli.Ir

namespace Lazuli.Codegen

open Lazuli.Runtime
open Lazuli.Ir (PolicyExpr PolicyCategory Policies PolicyRef EvalPredicate leafMatches)

/-! ### The emitted policy -/

/-- A text as it stands between the quotes of a Go literal. -/
def escapeString (s : String) : String :=
  String.ofList <| s.toList.flatMap fun c => if c = '\\' ∨ c = '"' then ['\\', c] else [c]

def inParentheses (parenthesize : Bool) (text : String) : String :=
  if parenthesize then "(" ++ text ++ ")" else text

mutual

/-- A combination below another one stands in parentheses. -/
def writePolicyExprDisplay (parenthesize : Bool) : PolicyExpr → String
  | .authenticated => "authenticated"
  | .hasRole name => "has_role " ++ name
  | .hasPermission perm => "has_permission " ++ perm
  | .atom atom => "@" ++ atom.ns ++ "." ++ atom.name
  | .and terms => inParentheses parenthesize (writeTermsDisplay " and " terms)
  | .or terms => inParentheses parenthesize (writeTermsDisplay " or " terms)
  | .not inner => "not " ++ writePolicyExprDisplay true inner

def writeTermsDisplay (connective : String) : List PolicyExpr → String
  | [] => ""
  | [term] => writePolicyExprDisplay true term
  | term :: terms => writePolicyExprDisplay true term ++ connective ++
      writeTermsDisplay connective terms

end

def policyExprDisplayName (expr : PolicyExpr) : String := writePolicyExprDisplay false expr

/-- A category, a built-in name, conditional references, or else nobody. -/
def formatLocalRef (name : String) (policies : Policies) : Policy :=
  match formatLocalPolicy name policies, formatBuiltinPolicy name,
    formatConditionalPolicy name policies with
  | some policy, _, _ => policy
  | none, some policy, _ => policy
  | none, none, some (some policy) => policy
  | none, none, some none => formatDenyPolicy name
  | none, none, none => formatDenyPolicy ("@policy." ++ escapeString name)

def withoutAt (atom : String) : String :=
  String.ofList ((atom.toList.dropPrefix? ['@']).getD atom.toList)

/-- The name behind `policy.`. -/
def policyName (atom : String) : Option String :=
  ((withoutAt atom).toList.dropPrefix? "policy.".toList).map String.ofList

def formatAtomRef (atom : String) (policies : Policies) : Policy :=
  match formatConditionalPolicy atom policies, policyName atom with
  | some (some policy), _ => policy
  | some none, _ => formatDenyPolicy atom
  | none, some name =>
      ((formatLocalPolicy name policies).or (formatBuiltinPolicy name)).getD
        (formatDenyPolicy ("@policy." ++ escapeString name))
  | none, none => { name := "@" ++ withoutAt atom, atoms := [renderAtom atom] }

def formatPolicyWithExpr (policy : PolicyRef) (policyExpr : Option PolicyExpr)
    (policies : Policies) : Policy :=
  match policyExpr with
  | some expr => { name := policyExprDisplayName expr, atoms := renderPolicyExprAtoms expr }
  | none =>
      match policy with
      | .localRef name => formatLocalRef name policies
      | .atom atom => formatAtomRef atom policies
      | .external feature name => formatDenyPolicy (feature ++ ".policy." ++ name)
      | .unresolved raw => { name := raw, atoms := [] }
      | .none => { name := "", atoms := [] }

/-! ### What the author has written -/

inductive CommandPolicy where
  | expr (expr : PolicyExpr)
  | category (category : PolicyCategory)

/-- The expression, or else the category that the reference names. -/
def commandPolicy (policy : PolicyRef) (policyExpr : Option PolicyExpr) (policies : Policies) :
    Option CommandPolicy :=
  match policyExpr, policy with
  | some expr, _ => some (.expr expr)
  | none, .localRef name => (policies.find name).map .category
  | none, .atom atom =>
      if (parseConditionalPolicyRefs atom).isSome then none
      else ((policyName atom).bind policies.find).map .category
  | none, _ => none

section Values

variable (leaf : String → String → Bool) (guard : EvalPredicate → Bool)

/-- An atom of a category. -/
def readAtom (atom : String) : Bool := leaf (Ir.splitNsName atom).1 (Ir.splitNsName atom).2

/-- A category is the disjunction of its atoms and of those of its conditional atoms whose guard
holds. -/
def CommandPolicy.value : CommandPolicy → Bool
  | .expr e => e.eval leaf
  | .category c =>
      c.atoms.any (readAtom leaf) ||
        c.conditionalAtoms.any fun ca => guard ca.when && readAtom leaf ca.atom

/-- The runtime drops the conditional atoms of a category that has two others, and lets a guard
hold that could not be rendered. -/
def CommandPolicy.runtimeValue (input : Option Slot) : CommandPolicy → Bool
  | .expr e => e.eval leaf
  | .category c =>
      c.atoms.any (readAtom leaf) ||
        c.atoms.length < 2 && c.conditionalAtoms.any fun ca =>
          ((renderPolicyWhen ca.when).all fun w => w.holds input) && readAtom leaf ca.atom

end Values

/-- What the analyzer lets through. -/
def CommandPolicy.WellFormed : CommandPolicy → Prop
  | .expr e => e.WellFormed
  | .category _ => True

/-! ### What the runtime tests -/

section Granted

variable {hooks : Rbac} {ctx : Ctx} {input : Option Slot}

theorem atomMatchesInput_conditional (ca : Ir.ConditionalPolicyAtom) :
    atomMatchesInput hooks ctx input (renderConditionalAtom ca) =
      (((renderPolicyWhen ca.when).all fun w => w.holds input) &&
        readAtom (leafMatches hooks ctx) ca.atom) := by
  unfold renderConditionalAtom renderConditional
  cases renderPolicyWhen ca.when with
  | none => rfl
  | some w => rfl

theorem granted_category (name : String) (c : PolicyCategory) :
    Granted hooks ctx input { name, atoms := categoryAtoms c } ↔
      (CommandPolicy.category c).runtimeValue (leafMatches hooks ctx) input = true := by
  by_cases hlen : c.atoms.length < 2
  · rw [granted_category_flat name hlen]
    simp only [CommandPolicy.runtimeValue, hlen, decide_true, Bool.true_and, Bool.or_eq_true,
      List.any_eq_true, atomMatchesInput_conditional]
    rfl
  · rw [granted_category_of_two_le name (Nat.not_lt.mp hlen)]
    simp only [CommandPolicy.runtimeValue, hlen, decide_false, Bool.false_and, Bool.or_false,
      List.any_eq_true]
    rfl

theorem formatLocalPolicy_eq {policies : Policies} {name : String} {c : PolicyCategory}
    (hfind : policies.find name = some c) :
    formatLocalPolicy name policies =
      some { name := "@policy." ++ name, atoms := categoryAtoms c } := by
  rw [formatLocalPolicy, hfind, Option.map_some]

/-- A text that is no list of conditional references is not read as one. -/
theorem formatConditionalPolicy_none {policies : Policies} {raw : String}
    (h : parseConditionalPolicyRefs raw = none) : formatConditionalPolicy raw policies = none := by
  rw [formatConditionalPolicy, h]

/-- The policy that is emitted for a category is that of the category. -/
theorem formatPolicyWithExpr_category {policy : PolicyRef} {policyExpr : Option PolicyExpr}
    {policies : Policies} {c : PolicyCategory}
    (h : commandPolicy policy policyExpr policies = some (.category c)) :
    ∃ name, formatPolicyWithExpr policy policyExpr policies =
      { name, atoms := categoryAtoms c } := by
  unfold commandPolicy at h
  split at h
  · cases h
  next name =>
    obtain ⟨_, hfind, hc⟩ := Option.map_eq_some_iff.mp h
    obtain rfl := CommandPolicy.category.inj hc
    refine ⟨"@policy." ++ name, ?_⟩
    rw [formatPolicyWithExpr]
    simp only [formatLocalRef, formatLocalPolicy_eq hfind]
  next atom =>
    split at h
    · cases h
    next hplain =>
      obtain ⟨_, hfind, hc⟩ := Option.map_eq_some_iff.mp h
      obtain rfl := CommandPolicy.category.inj hc
      obtain ⟨name, hname, hfind⟩ := Option.bind_eq_some_iff.mp hfind
      refine ⟨"@policy." ++ name, ?_⟩
      have hraw : formatConditionalPolicy atom policies = none :=
        formatConditionalPolicy_none (Option.not_isSome_iff_eq_none.mp hplain)
      rw [formatPolicyWithExpr]
      simp only [formatAtomRef, hraw, hname, formatLocalPolicy_eq hfind, Option.some_or,
        Option.getD_some]
  · cases h

/-- The runtime lets the call through exactly if the policy has a true value for the atoms as the
runtime reads them. -/
theorem granted_iff {policy : PolicyRef} {policyExpr : Option PolicyExpr} {policies : Policies}
    {p : CommandPolicy} (h : commandPolicy policy policyExpr policies = some p)
    (hwf : p.WellFormed) :
    Granted hooks ctx input (formatPolicyWithExpr policy policyExpr policies) ↔
      p.runtimeValue (leafMatches hooks ctx) input = true := by
  cases p with
  | category c =>
      obtain ⟨name, hformat⟩ := formatPolicyWithExpr_category h
      rw [hformat, granted_category]
  | expr e =>
      have hexpr : policyExpr = some e := by
        unfold commandPolicy at h
        split at h
        · exact congrArg some (CommandPolicy.expr.inj (Option.some_inj.mp h))
        · obtain ⟨_, -, hc⟩ := Option.map_eq_some_iff.mp h
          cases hc
        · split at h
          · cases h
          · obtain ⟨_, -, hc⟩ := Option.map_eq_some_iff.mp h
            cases hc
        · cases h
      rw [hexpr, formatPolicyWithExpr, CommandPolicy.runtimeValue, ← e.denote_eq_eval]
      exact (policyExpr_preserved hooks ctx input _ e hwf).1

end Granted

end Lazuli.Codegen
