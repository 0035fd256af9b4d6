import Lazuli.General.Infix
import Lazuli.Runtime.Value

/-!
The policy evaluator (`runtime/go/lazuli/policy.go`, `atomMatches` in `handle.go`).

A policy is a flat list of atoms. With a `predicate` atom anywhere in it the list is read
by recursive descent as an infix formula (`evalExpr`), otherwise some atom has to match.
The Go functions return an index into the list; here a `Walk` holds the atoms after it,
with the proof that they are no more than there were, which is what makes the descent
terminate.

`lexicon` says what the atoms are as tokens of the notation of `General.Infix`.
`evalOr_phrase` is all that the compiler side needs: the evaluator returns the value of
every phrase and stops right behind it.
-/

namespace Lazuli.Runtime

open Lazuli.General

/-! ### Policies -/

/-- One comparison of a field of the command input with a literal. -/
structure PolicyWhen where
  path : String
  op : String
  value : Value
  deriving DecidableEq

structure PolicyAtom where
  ns : String
  name : String
  when : Option PolicyWhen := none
  deriving DecidableEq

structure Policy where
  name : String
  atoms : List PolicyAtom
  deriving DecidableEq

/-- The catalogue hooks: does the role `roleName` match, does it carry the permission. -/
structure Rbac where
  rbacHasRole : String → String → Bool
  rbacHasPermission : String → String → Bool

def defaultRbac : Rbac :=
  { rbacHasRole := fun _ _ => false, rbacHasPermission := fun _ _ => false }

/-- A checker that is nil leaves the installed one. -/
def registerRbac (hooks : Rbac) (role perm : Option (String → String → Bool)) : Rbac :=
  { rbacHasRole := role.getD hooks.rbacHasRole
    rbacHasPermission := perm.getD hooks.rbacHasPermission }

/-! ### Leaves -/

def anyRole (ctx : Ctx) (p : String → Bool) : Bool :=
  match ctx.user with
  | none => false
  | some user => user.roles.any p

def atomMatches (hooks : Rbac) (ctx : Ctx) (atom : PolicyAtom) : Bool :=
  match atom.ns with
  | "actor" =>
      match atom.name with
      | "user" => ctx.actor = ActorUser
      | "system" => ctx.actor = ActorSystem
      | "anonymous" => ctx.actor = ActorAnonymous
      | _ => false
  | "role" => anyRole ctx fun r => r = atom.name
  | "scope" =>
      match atom.name with
      | "public" => true
      | "authenticated" => ctx.user.isSome
      | "same_org" => ctx.tenant.isSome
      -- "self" and "owner" need a loaded target row and fail closed
      | _ => false
  | "rbac.role" => anyRole ctx fun r => hooks.rbacHasRole r atom.name
  | "rbac.permission" => anyRole ctx fun r => hooks.rbacHasPermission r atom.name
  | "predicate" =>
      match atom.name with
      | "authenticated" => ctx.user.isSome
      -- "deny" is never satisfiable
      | _ => false
  | _ => false

/-! ### Guards -/

def toInt64 : Value → Option Int
  | .int n => some n
  | _ => none

def whenEqual (got want : Value) : Bool :=
  match toInt64 got, toInt64 want with
  | some gi, some wi => gi = wi
  | _, _ =>
      match got, want with
      | .bool gb, .bool wb => gb = wb
      | _, _ => got.text = want.text

/-- `none` when the pair has no order. -/
def whenOrder (got want : Value) : Option Ordering :=
  match toInt64 got, toInt64 want with
  | some gi, some wi => some (compareOfLessAndEq gi wi)
  | _, _ =>
      match got, want with
      | .string gs, .string ws => some (compareOfLessAndEq gs ws)
      | _, _ => none

def compareWhen (got : Value) (op : String) (want : Value) : Bool :=
  match op with
  | "=" => whenEqual got want
  | "!=" => !whenEqual got want
  | "<" => (whenOrder got want).any (·.isLT)
  | "<=" => (whenOrder got want).any (·.isLE)
  | ">" => (whenOrder got want).any (·.isGT)
  | ">=" => (whenOrder got want).any (·.isGE)
  | _ => false

def trimPrefix (s lead : String) : String :=
  match s.toList.dropPrefix? lead.toList with
  | some rest => String.ofList rest
  | none => s

/-- `input = none` is the nil input of the entry points that have none. -/
def PolicyWhen.holds (w : PolicyWhen) (input : Option Slot) : Bool :=
  match input with
  | none => false
  | some input =>
      match readPath input (trimPrefix w.path "input.") with
      | .error _ => false
      | .ok got => compareWhen got w.op w.value

def PolicyAtom.guardHolds (atom : PolicyAtom) (input : Option Slot) : Bool :=
  atom.when.all fun w => w.holds input

def atomMatchesInput (hooks : Rbac) (ctx : Ctx) (input : Option Slot) (atom : PolicyAtom) : Bool :=
  atom.guardHolds input && atomMatches hooks ctx atom

/-! ### The descent -/

def PolicyAtom.isPredicate (a : PolicyAtom) (name : String) : Bool :=
  a.ns = "predicate" ∧ a.name = name

def hasPredicateAtom (atoms : List PolicyAtom) : Bool :=
  atoms.any fun a => a.ns = "predicate"

/-- A value, and the atoms of `atoms` that are still to be read. -/
structure Walk (atoms : List PolicyAtom) where
  value : Bool
  rest : List PolicyAtom
  rest_le : rest.length ≤ atoms.length

namespace Walk

variable {atoms : List PolicyAtom}

def result (w : Walk atoms) : Bool × List PolicyAtom := (w.value, w.rest)

/-- Past the closing parenthesis, if it is there. -/
def closed (a : PolicyAtom) : Walk atoms → Walk (a :: atoms)
  | ⟨v, [], _⟩ => ⟨v, [], Nat.zero_le _⟩
  | ⟨v, b :: rest, le⟩ =>
      if b.isPredicate ")" then ⟨v, rest, Nat.le_succ_of_le (Nat.le_of_succ_le le)⟩
      else ⟨v, b :: rest, Nat.le_succ_of_le le⟩

end Walk

section Descent

variable (hooks : Rbac) (ctx : Ctx) (input : Option Slot)

mutual

def evalOr (atoms : List PolicyAtom) : Walk atoms :=
  match evalAnd atoms with
  | ⟨left, i, le⟩ =>
      match evalOrLoop left i with
      | ⟨v, j, le'⟩ => ⟨v, j, Nat.le_trans le' le⟩
termination_by 5 * atoms.length + 4
decreasing_by all_goals omega

/-- The loop of `evalOr`: neither operand is skipped when `left` decides. -/
def evalOrLoop (left : Bool) (atoms : List PolicyAtom) : Walk atoms :=
  match atoms with
  | [] => ⟨left, [], Nat.le_refl _⟩
  | a :: atoms =>
      if a.isPredicate "or" then
        match evalAnd atoms with
        | ⟨right, i, le⟩ =>
            match evalOrLoop (left || right) i with
            | ⟨v, j, le'⟩ => ⟨v, j, Nat.le_succ_of_le (Nat.le_trans le' le)⟩
      else ⟨left, a :: atoms, Nat.le_refl _⟩
termination_by 5 * atoms.length + 3
decreasing_by all_goals simp only [List.length_cons]; omega

def evalAnd (atoms : List PolicyAtom) : Walk atoms :=
  match evalUnary atoms with
  | ⟨left, i, le⟩ =>
      match evalAndLoop left i with
      | ⟨v, j, le'⟩ => ⟨v, j, Nat.le_trans le' le⟩
termination_by 5 * atoms.length + 2
decreasing_by all_goals omega

def evalAndLoop (left : Bool) (atoms : List PolicyAtom) : Walk atoms :=
  match atoms with
  | [] => ⟨left, [], Nat.le_refl _⟩
  | a :: atoms =>
      if a.isPredicate "and" then
        match evalUnary atoms with
        | ⟨right, i, le⟩ =>
            match evalAndLoop (left && right) i with
            | ⟨v, j, le'⟩ => ⟨v, j, Nat.le_succ_of_le (Nat.le_trans le' le)⟩
      else ⟨left, a :: atoms, Nat.le_refl _⟩
termination_by 5 * atoms.length + 1
decreasing_by all_goals simp only [List.length_cons]; omega

def evalUnary (atoms : List PolicyAtom) : Walk atoms :=
  match atoms with
  | [] => ⟨false, [], Nat.le_refl _⟩
  | a :: atoms =>
      if a.isPredicate "not" then
        match evalUnary atoms with
        | ⟨v, j, le⟩ => ⟨!v, j, Nat.le_succ_of_le le⟩
      else if a.isPredicate "(" then (evalOr atoms).closed a
      else ⟨atomMatchesInput hooks ctx input a, atoms, Nat.le_succ _⟩
termination_by 5 * atoms.length
decreasing_by all_goals simp only [List.length_cons]; omega

end

def evalExpr (atoms : List PolicyAtom) : Walk atoms := evalOr hooks ctx input atoms

/-- `none` grants. -/
def evalPolicyInput (p : Policy) : Option Error :=
  if p.atoms.isEmpty then
    some { status := 500, code := CodeInternal
           message := "contract registered with empty policy: " ++ p.name }
  else if hasPredicateAtom p.atoms then
    if (evalExpr hooks ctx input p.atoms).value then none
    else some { status := 403, code := CodePolicyDenied
                message := "no policy branch matches the active actor for " ++ p.name }
  else if p.atoms.any (atomMatchesInput hooks ctx input) then none
  else some { status := 403, code := CodePolicyDenied
              message := "no policy atom matches the active actor for " ++ p.name
              messageKey := "policy_denied" }

end Descent

/-- The entry point of callers that have no input. -/
def evalPolicy (hooks : Rbac) (ctx : Ctx) (p : Policy) : Option Error :=
  evalPolicyInput hooks ctx none p

def allow (hooks : Rbac) (ctx : Ctx) (p : Policy) : Bool := (evalPolicy hooks ctx p).isNone

/-- The call is let through. -/
def Granted (hooks : Rbac) (ctx : Ctx) (input : Option Slot) (p : Policy) : Prop :=
  evalPolicyInput hooks ctx input p = none

instance (hooks : Rbac) (ctx : Ctx) (input : Option Slot) (p : Policy) :
    Decidable (Granted hooks ctx input p) :=
  inferInstanceAs (Decidable (_ = none))

end Lazuli.Runtime
