import Lazuli.Codegen.Ir
import Lazuli.Runtime.Descent

/-!
How policies are lowered to atom lists
(`crates/lazuli_codegen_go/src/emitter/command/policy.rs`).

The emitter writes Go source text; the model keeps what that text denotes, a
`lazuli.Policy`. `walkPolicyExprAtoms` prints an expression infix with a parenthesis
around every conjunction and disjunction, `formatLocalPolicy` lowers a named category.
-/

namespace Lazuli.Codegen

open Lazuli.Runtime (PolicyAtom PolicyWhen Policy Value)
open Lazuli.Ir (PolicyExpr PolicyCategory Policies EvalPredicate)

def predicateAtom (name : String) : PolicyAtom := { ns := "predicate", name }

/-! ### Expressions -/

mutual

def walkPolicyExprAtoms : PolicyExpr → List PolicyAtom
  | .authenticated => [predicateAtom "authenticated"]
  | .hasRole name => [{ ns := "rbac.role", name }]
  | .hasPermission perm => [{ ns := "rbac.permission", name := perm }]
  | .atom atom => [{ ns := atom.ns, name := atom.name }]
  | .and terms => predicateAtom "(" :: (walkTerms "and" terms ++ [predicateAtom ")"])
  | .or terms => predicateAtom "(" :: (walkTerms "or" terms ++ [predicateAtom ")"])
  | .not inner => predicateAtom "not" :: walkPolicyExprAtoms inner

/-- The loop over the terms: the connective before each but the first. -/
def walkTerms (connective : String) : List PolicyExpr → List PolicyAtom
  | [] => []
  | term :: terms => walkPolicyExprAtoms term ++ walkMoreTerms connective terms

def walkMoreTerms (connective : String) : List PolicyExpr → List PolicyAtom
  | [] => []
  | term :: terms =>
      predicateAtom connective :: walkPolicyExprAtoms term ++ walkMoreTerms connective terms

end

def renderPolicyExprAtoms (expr : PolicyExpr) : List PolicyAtom := walkPolicyExprAtoms expr

/-! ### Guards -/

/-- The literals a guard may compare with. -/
def renderWhenValue : Ir.Expr → Option Value
  | .string s => some (.string s)
  | .integer n => some (.int n)
  | .boolean b => some (.bool b)
  | .nil => some .nil
  | _ => none

def opText : Ir.CompareOp → String
  | .eq => "="
  | .ne => "!="
  | .lt => "<"
  | .le => "<="
  | .gt => ">"
  | .ge => ">="

/-- A comparison of a path with a literal, in either order. The operator is not turned
round when the literal comes first. -/
def renderPolicyWhen : EvalPredicate → Option PolicyWhen
  | .closed (.comparison left op right) =>
      let sides := match left, right with
        | .path p, v => some (p, v)
        | v, .path p => some (p, v)
        | _, _ => none
      sides.bind fun (path, value) =>
        (renderWhenValue value).map fun value =>
          { path := path.text, op := opText op, value }
  | _ => none

/-! ### Categories -/

def renderAtom (atom : String) : PolicyAtom :=
  { ns := (Ir.splitNsName atom).1, name := (Ir.splitNsName atom).2 }

def renderConditional (atom : String) (when : EvalPredicate) : Option PolicyAtom :=
  (renderPolicyWhen when).map fun guard => { renderAtom atom with when := some guard }

/-- `( a or b or ... )` around two atoms or more, a single one as it is. -/
def orGroup (atoms : List PolicyAtom) : List PolicyAtom :=
  if 2 ≤ atoms.length then
    predicateAtom "(" ::
      (General.Infix.joined (predicateAtom "or") (atoms.map ([·])) ++ [predicateAtom ")"])
  else atoms

/-- A guard that cannot be rendered leaves its atom unconditional. -/
def renderConditionalAtom (ca : Ir.ConditionalPolicyAtom) : PolicyAtom :=
  (renderConditional ca.atom ca.when).getD (renderAtom ca.atom)

def categoryAtoms (category : PolicyCategory) : List PolicyAtom :=
  orGroup (category.atoms.map renderAtom) ++ category.conditionalAtoms.map renderConditionalAtom

def formatLocalPolicy (name : String) (policies : Policies) : Option Policy :=
  (policies.find name).map fun category =>
    { name := "@policy." ++ name, atoms := categoryAtoms category }

/-- The policy of a reference that resolves to nothing: it always denies. -/
def formatDenyPolicy (name : String) : Policy :=
  { name, atoms := [predicateAtom "deny"] }

/-- Names that resolve without a category. -/
def builtinScopeAtom (name : String) : Option String :=
  match name with
  | "public" => some "public"
  | "authenticated" => some "authenticated"
  | _ => none

def formatBuiltinPolicy (name : String) : Option Policy :=
  (builtinScopeAtom name).map fun scope =>
    { name := "@policy." ++ name, atoms := [{ ns := "scope", name := scope }] }

end Lazuli.Codegen

/-!
The lowering of expressions and of named categories, against the evaluator.

An expression is printed as a phrase of its denotation, by induction on the expression,
so the evaluator returns that value and reads the whole list. A category is printed as a
parenthesised disjunction followed by its conditional atoms, with nothing between them:
the evaluator stops at the parenthesis, so a category with two unconditional atoms or
more has lost its conditional ones.
-/

namespace Lazuli.Codegen

open Lazuli.General.Infix
open Lazuli.Runtime
open Lazuli.Ir (PolicyExpr PolicyCategory Policies leafMatches)

section Markers

variable {hooks : Rbac} {ctx : Ctx} {input : Option Slot}

theorem mark_predicateAtom_open :
    (lexicon hooks ctx input).mark (predicateAtom "(") = some .opening := rfl

theorem mark_predicateAtom_close :
    (lexicon hooks ctx input).mark (predicateAtom ")") = some .closing := rfl

theorem mark_predicateAtom_and :
    (lexicon hooks ctx input).mark (predicateAtom "and") = some .and := rfl

theorem mark_predicateAtom_or :
    (lexicon hooks ctx input).mark (predicateAtom "or") = some .or := rfl

theorem mark_predicateAtom_not :
    (lexicon hooks ctx input).mark (predicateAtom "not") = some .not := rfl

/-- An atom without a guard is a leaf that `atomMatches` reads. -/
theorem phrase_atom {ns name : String} (h : ({ ns, name } : Runtime.PolicyAtom).mark = none) :
    Phrase (lexicon hooks ctx input) .unary [{ ns, name }] (leafMatches hooks ctx ns name) := by
  have hleaf : (lexicon hooks ctx input).leaf { ns, name } = leafMatches hooks ctx ns name := by
    simp [lexicon, atomMatchesInput, PolicyAtom.guardHolds, leafMatches]
  rw [← hleaf]
  exact Phrase.leaf h

theorem phrase_group_or {ι : Type} (text : ι → List Runtime.PolicyAtom) (value : ι → Bool)
    {xs : List ι} (hne : xs ≠ [])
    (h : ∀ x ∈ xs, Phrase (lexicon hooks ctx input) .unary (text x) (value x)) :
    Phrase (lexicon hooks ctx input) .unary
      (predicateAtom "(" :: (joined (predicateAtom "or") (xs.map text) ++ [predicateAtom ")"]))
      (xs.any value) :=
  .group mark_predicateAtom_open mark_predicateAtom_close
    (Phrase.joined_or mark_predicateAtom_or text value xs hne h)

theorem phrase_group_and {ι : Type} (text : ι → List Runtime.PolicyAtom) (value : ι → Bool)
    {xs : List ι} (hne : xs ≠ [])
    (h : ∀ x ∈ xs, Phrase (lexicon hooks ctx input) .unary (text x) (value x)) :
    Phrase (lexicon hooks ctx input) .unary
      (predicateAtom "(" :: (joined (predicateAtom "and") (xs.map text) ++ [predicateAtom ")"]))
      (xs.all value) :=
  .group mark_predicateAtom_open mark_predicateAtom_close
    (.term (Phrase.joined_and mark_predicateAtom_and text value xs hne h))

end Markers

/-! ### Expressions -/

theorem walkMoreTerms_eq (connective : String) (terms : List PolicyExpr) :
    walkMoreTerms connective terms =
      (terms.map walkPolicyExprAtoms).flatMap (predicateAtom connective :: ·) := by
  induction terms with
  | nil => rfl
  | cons term terms ih => simp [walkMoreTerms, ih]

theorem walkTerms_eq (connective : String) (terms : List PolicyExpr) :
    walkTerms connective terms =
      joined (predicateAtom connective) (terms.map walkPolicyExprAtoms) := by
  cases terms with
  | nil => rfl
  | cons term terms => simp [walkTerms, joined, walkMoreTerms_eq]

/-- What is printed for an expression is one operand of its value. -/
theorem phrase_walkPolicyExprAtoms {hooks : Rbac} {ctx : Ctx} {input : Option Slot}
    {expr : PolicyExpr} (h : expr.WellFormed) :
    Phrase (lexicon hooks ctx input) .unary (walkPolicyExprAtoms expr)
      (expr.denote hooks ctx) := by
  induction h with
  | authenticated => exact phrase_atom rfl
  | hasRole name => exact phrase_atom rfl
  | hasPermission perm => exact phrase_atom rfl
  | atom hns => exact phrase_atom (PolicyAtom.mark_of_ns_ne hns)
  | and hne _ ih =>
      rw [walkPolicyExprAtoms, walkTerms_eq, PolicyExpr.denote, Ir.denoteAll_eq_all]
      exact phrase_group_and _ _ hne ih
  | or hne _ ih =>
      rw [walkPolicyExprAtoms, walkTerms_eq, PolicyExpr.denote, Ir.denoteAny_eq_any]
      exact phrase_group_or _ _ hne ih
  | not _ ih =>
      rw [walkPolicyExprAtoms, PolicyExpr.denote]
      exact .not mark_predicateAtom_not ih

/-- Lowering an expression preserves its meaning: the evaluator grants exactly when the
expression denotes true, and it reads the list to its end. -/
theorem policyExpr_preserved (hooks : Rbac) (ctx : Ctx) (input : Option Slot) (name : String)
    (expr : PolicyExpr) (h : expr.WellFormed) :
    (Granted hooks ctx input { name, atoms := renderPolicyExprAtoms expr } ↔
      expr.denote hooks ctx = true) ∧
    (evalExpr hooks ctx input (renderPolicyExprAtoms expr)).rest = [] := by
  have hphrase : Phrase (lexicon hooks ctx input) .disj (renderPolicyExprAtoms expr)
      (expr.denote hooks ctx) :=
    (phrase_walkPolicyExprAtoms h).disjunct
  exact ⟨granted_iff_of_phrase hphrase, Walk.rest_eq (evalExpr_phrase hphrase)⟩

/-- A user with the role `sales`, who is not banned. -/
def salesCtx : Ctx :=
  { actor := ActorUser, user := some { id := 1, orgID := 7, roles := ["sales"] }
    tenant := some { orgID := 7 }, now := none }

/-- `not @role.banned and (has_role admin or @role.sales)` -/
def salesExpr : PolicyExpr :=
  .and [.not (.atom { ns := "role", name := "banned" }),
    .or [.hasRole "admin", .atom { ns := "role", name := "sales" }]]

theorem policyExpr_preserved_sales :
    (Granted defaultRbac salesCtx none
        { name := "sales", atoms := renderPolicyExprAtoms salesExpr } ↔
      salesExpr.denote defaultRbac salesCtx = true) ∧
    (evalExpr defaultRbac salesCtx none (renderPolicyExprAtoms salesExpr)).rest = [] := by
  apply policyExpr_preserved
  apply PolicyExpr.WellFormed.and (List.cons_ne_nil _ _)
  intro term hterm
  simp only [List.mem_cons, List.not_mem_nil, or_false] at hterm
  rcases hterm with rfl | rfl
  · exact .not (.atom (by decide))
  · apply PolicyExpr.WellFormed.or (List.cons_ne_nil _ _)
    intro term hterm
    simp only [List.mem_cons, List.not_mem_nil, or_false] at hterm
    rcases hterm with rfl | rfl
    · exact .hasRole "admin"
    · exact .atom (by decide)

/-! ### Guards -/

theorem renderWhenValue_eq_literal (e : Ir.Expr) : renderWhenValue e = e.literal? := by
  cases e <;> rfl

theorem compareWhen_opText (op : Ir.CompareOp) (got want : Value) :
    compareWhen got (opText op) want = op.holds got want := by
  cases op <;> rfl

/-- The guard that the runtime tests for a comparison. -/
def comparisonGuard (c : Ir.Comparison) : PolicyWhen :=
  { path := c.path, op := opText c.op, value := c.literal }

theorem comparisonGuard_holds (c : Ir.Comparison) (input : Option Slot) :
    (comparisonGuard c).holds input = c.holds input := by
  cases input with
  | none => rfl
  | some input =>
      simp only [PolicyWhen.holds, Ir.Comparison.holds, comparisonGuard]
      cases readPath input (trimPrefix c.path "input.") with
      | error err => rfl
      | ok got => exact compareWhen_opText c.op got c.literal

theorem renderPolicyWhen_comparison {when : Ir.EvalPredicate} {c : Ir.Comparison}
    (h : when.comparison? = some c) : renderPolicyWhen when = some (comparisonGuard c) := by
  unfold Ir.EvalPredicate.comparison? at h
  split at h
  case h_1 p op right =>
    obtain ⟨literal, hlit, rfl⟩ := Option.map_eq_some_iff.mp h
    simp [renderPolicyWhen, renderWhenValue_eq_literal, hlit, comparisonGuard]
  case h_2 => cases h

/-- A comparison guard is rendered, and the atom matches when it holds. -/
theorem atomMatchesInput_renderConditionalAtom {hooks : Rbac} {ctx : Ctx} {input : Option Slot}
    {ca : Ir.ConditionalPolicyAtom} (h : ca.when.comparison?.isSome) :
    atomMatchesInput hooks ctx input (renderConditionalAtom ca) =
      (ca.when.holds input &&
        leafMatches hooks ctx (Ir.splitNsName ca.atom).1 (Ir.splitNsName ca.atom).2) := by
  obtain ⟨c, hc⟩ := Option.isSome_iff_exists.mp h
  have hrender : renderConditionalAtom ca =
      { renderAtom ca.atom with when := some (comparisonGuard c) } := by
    simp [renderConditionalAtom, renderConditional, renderPolicyWhen_comparison hc]
  rw [hrender, atomMatchesInput, PolicyAtom.guardHolds, Option.all_some,
    comparisonGuard_holds, Ir.EvalPredicate.holds, hc, Option.any_some]
  rfl

/-! ### Categories -/

section Categories

variable {hooks : Rbac} {ctx : Ctx} {input : Option Slot} {category : PolicyCategory}

theorem atomMatchesInput_renderAtom (atom : String) :
    atomMatchesInput hooks ctx input (renderAtom atom) =
      leafMatches hooks ctx (Ir.splitNsName atom).1 (Ir.splitNsName atom).2 := by
  simp [atomMatchesInput, PolicyAtom.guardHolds, renderAtom, leafMatches]

theorem renderConditionalAtom_ns (ca : Ir.ConditionalPolicyAtom) :
    (renderConditionalAtom ca).ns = (Ir.splitNsName ca.atom).1 := by
  unfold renderConditionalAtom renderConditional
  cases renderPolicyWhen ca.when <;> rfl

theorem ns_ne_predicate {atom : String}
    (h : Ir.isReferenceNamespace (Ir.splitNsName atom).1 = true) :
    (Ir.splitNsName atom).1 ≠ "predicate" := by
  intro hns
  rw [hns, Ir.predicate_not_reference] at h
  cases h

theorem atom_ns_ne {atom : String} (h : atom ∈ category.atoms) :
    (renderAtom atom).ns ≠ "predicate" :=
  ns_ne_predicate (category.registered atom (List.mem_append_left _ h))

theorem conditional_ns_ne {ca : Ir.ConditionalPolicyAtom} (h : ca ∈ category.conditionalAtoms) :
    (renderConditionalAtom ca).ns ≠ "predicate" := by
  rw [renderConditionalAtom_ns]
  exact ns_ne_predicate
    (category.registered ca.atom (List.mem_append_right _ (List.mem_map_of_mem h)))

theorem orGroup_of_two_le {atoms : List Runtime.PolicyAtom} (h : 2 ≤ atoms.length) :
    orGroup atoms = predicateAtom "(" ::
      (joined (predicateAtom "or") (atoms.map ([·])) ++ [predicateAtom ")"]) :=
  if_pos h

theorem orGroup_of_lt_two {atoms : List Runtime.PolicyAtom} (h : atoms.length < 2) :
    orGroup atoms = atoms :=
  if_neg (Nat.not_le.mpr h)

/-- A group of leaves is one operand, true when some leaf is. -/
theorem phrase_orGroup {atoms : List Runtime.PolicyAtom} (hne : atoms ≠ [])
    (h : ∀ a ∈ atoms, a.ns ≠ "predicate") :
    Phrase (lexicon hooks ctx input) .unary (orGroup atoms)
      (atoms.any (atomMatchesInput hooks ctx input)) := by
  have hleaf : ∀ a ∈ atoms, Phrase (lexicon hooks ctx input) .unary [a]
      (atomMatchesInput hooks ctx input a) := fun a ha =>
    Phrase.leaf (PolicyAtom.mark_of_ns_ne (h a ha))
  by_cases hlen : 2 ≤ atoms.length
  · rw [orGroup_of_two_le hlen]
    exact phrase_group_or _ _ hne hleaf
  · rw [orGroup_of_lt_two (Nat.not_le.mp hlen)]
    match atoms, hne with
    | [a], _ => simpa using hleaf a List.mem_cons_self
    | _ :: _ :: _, _ => exact absurd (Nat.le_add_left 2 _) hlen

/-- With two unconditional atoms or more only these count. -/
theorem granted_category_of_two_le (name : String) (h : 2 ≤ category.atoms.length) :
    Granted hooks ctx input { name, atoms := categoryAtoms category } ↔
      ∃ atom ∈ category.atoms,
        leafMatches hooks ctx (Ir.splitNsName atom).1 (Ir.splitNsName atom).2 = true := by
  have hlen : 2 ≤ (category.atoms.map renderAtom).length := by rwa [List.length_map]
  have hmode : hasPredicateAtom (categoryAtoms category) = true := by
    simp [categoryAtoms, orGroup_of_two_le hlen, hasPredicateAtom, predicateAtom]
  have hne : category.atoms.map renderAtom ≠ [] := by
    intro hnil
    rw [hnil] at hlen
    cases hlen
  have hgroup : Phrase (lexicon hooks ctx input) .unary (orGroup (category.atoms.map renderAtom))
      ((category.atoms.map renderAtom).any (atomMatchesInput hooks ctx input)) := by
    apply phrase_orGroup hne
    intro a ha
    obtain ⟨atom, hatom, rfl⟩ := List.mem_map.mp ha
    exact atom_ns_ne hatom
  -- a conditional atom is no connective, so the descent stops in front of the first
  have hnext (m : Mark) :
      NotNext m (category.conditionalAtoms.map renderConditionalAtom) := by
    intro a ha hm
    obtain ⟨ca, hca, rfl⟩ := List.mem_map.mp (List.mem_of_mem_head? ha)
    rw [PolicyAtom.mark_of_ns_ne (conditional_ns_ne hca)] at hm
    cases hm
  have hread := evalOr_phrase hgroup.disjunct (hnext .and) (hnext .or)
  rw [granted_iff_evalExpr hmode]
  simp only [evalExpr, categoryAtoms, Walk.value_eq hread, List.any_map, List.any_eq_true,
    Function.comp_apply, atomMatchesInput_renderAtom]

/-- With at most one unconditional atom every branch counts. -/
theorem granted_category_flat (name : String) (h : category.atoms.length < 2) :
    Granted hooks ctx input { name, atoms := categoryAtoms category } ↔
      (∃ atom ∈ category.atoms,
        leafMatches hooks ctx (Ir.splitNsName atom).1 (Ir.splitNsName atom).2 = true) ∨
      ∃ ca ∈ category.conditionalAtoms,
        atomMatchesInput hooks ctx input (renderConditionalAtom ca) = true := by
  have hlen : (category.atoms.map renderAtom).length < 2 := by rwa [List.length_map]
  have hflat : categoryAtoms category = category.atoms.map renderAtom ++
      category.conditionalAtoms.map renderConditionalAtom := by
    rw [categoryAtoms, orGroup_of_lt_two hlen]
  have hmode : hasPredicateAtom (categoryAtoms category) = false := by
    rw [hflat, hasPredicateAtom, List.any_eq_false]
    intro a ha
    rcases List.mem_append.mp ha with ha | ha
    · obtain ⟨atom, hatom, rfl⟩ := List.mem_map.mp ha
      simpa using atom_ns_ne hatom
    · obtain ⟨ca, hca, rfl⟩ := List.mem_map.mp ha
      simpa using conditional_ns_ne hca
  rw [granted_iff_any hmode, hflat, List.any_append, Bool.or_eq_true, List.any_map, List.any_map,
    List.any_eq_true, List.any_eq_true]
  simp only [Function.comp_apply, atomMatchesInput_renderAtom]

theorem granted_category_of_lt_two (name : String) (h : category.atoms.length < 2)
    (hguards : ∀ ca ∈ category.conditionalAtoms, ca.when.comparison?.isSome) :
    Granted hooks ctx input { name, atoms := categoryAtoms category } ↔
      category.Grants hooks ctx (fun when => when.holds input) := by
  rw [granted_category_flat name h]
  refine or_congr_right (exists_congr fun ca => and_congr_right fun hca => ?_)
  rw [atomMatchesInput_renderConditionalAtom (hguards ca hca), Bool.and_eq_true]

end Categories

theorem iff_or_iff (p q : Prop) : (p ↔ p ∨ q) ↔ p ∨ ¬ q := by
  by_cases hp : p
  · simp [hp]
  · simp [hp]

/-- A category of comparison guards means the disjunction of its branches exactly when it
has at most one unconditional atom, or one of them matches, or no conditional branch is
open. -/
theorem category_means_or_iff (hooks : Rbac) (ctx : Ctx) (input : Option Slot) (name : String)
    (policies : Policies) (category : PolicyCategory)
    (hcat : policies.find name = some category)
    (hguards : ∀ ca ∈ category.conditionalAtoms, ca.when.comparison?.isSome) :
    ∃ p, formatLocalPolicy name policies = some p ∧
      ((Granted hooks ctx input p ↔
          category.Grants hooks ctx (fun when => when.holds input)) ↔
        category.atoms.length < 2 ∨
        (∃ atom ∈ category.atoms,
          leafMatches hooks ctx (Ir.splitNsName atom).1 (Ir.splitNsName atom).2 = true) ∨
        ¬ ∃ ca ∈ category.conditionalAtoms, ca.when.holds input = true ∧
          leafMatches hooks ctx (Ir.splitNsName ca.atom).1 (Ir.splitNsName ca.atom).2 = true) := by
  refine ⟨{ name := "@policy." ++ name, atoms := categoryAtoms category }, ?_, ?_⟩
  · rw [formatLocalPolicy, hcat, Option.map_some]
  · by_cases hlen : category.atoms.length < 2
    · exact iff_of_true (granted_category_of_lt_two ("@policy." ++ name) hlen hguards)
        (.inl hlen)
    · rw [granted_category_of_two_le ("@policy." ++ name) (Nat.not_lt.mp hlen),
        PolicyCategory.Grants, or_iff_right hlen]
      exact iff_or_iff _ _

/-! A category with two roles and a conditional third. -/

def approve : PolicyCategory :=
  { name := "approve"
    atoms := ["@role.admin", "@role.finance"]
    conditionalAtoms :=
      [{ atom := "@role.sales"
         when := .closed (.comparison (.path { segments := ["input", "scope"] }) .eq
           (.string "draft")) }]
    registered := by decide }

def approvePolicies : Policies := { categories := [approve] }

def draftInput : Slot :=
  .direct (.struct (.cons "Scope" "scope" (.direct (.string "draft")) .nil))

theorem category_means_or_iff_approve :
    ∃ p, formatLocalPolicy "approve" approvePolicies = some p ∧
      ((Granted defaultRbac salesCtx (some draftInput) p ↔
          approve.Grants defaultRbac salesCtx (fun when => when.holds (some draftInput))) ↔
        approve.atoms.length < 2 ∨
        (∃ atom ∈ approve.atoms, leafMatches defaultRbac salesCtx
          (Ir.splitNsName atom).1 (Ir.splitNsName atom).2 = true) ∨
        ¬ ∃ ca ∈ approve.conditionalAtoms, ca.when.holds (some draftInput) = true ∧
          leafMatches defaultRbac salesCtx
            (Ir.splitNsName ca.atom).1 (Ir.splitNsName ca.atom).2 = true) :=
  category_means_or_iff defaultRbac salesCtx (some draftInput) "approve" approvePolicies approve
    (by rfl) (by decide)

/-- A sales user whose conditional branch is open is denied. -/
theorem conditional_branch_lost :
    approve.Grants defaultRbac salesCtx (fun when => when.holds (some draftInput)) ∧
    ∃ p, formatLocalPolicy "approve" approvePolicies = some p ∧
      ¬ Granted defaultRbac salesCtx (some draftInput) p := by
  refine ⟨by decide, { name := "@policy.approve", atoms := categoryAtoms approve }, by rfl, ?_⟩
  rw [granted_category_of_two_le _ (by decide)]
  decide

end Lazuli.Codegen
