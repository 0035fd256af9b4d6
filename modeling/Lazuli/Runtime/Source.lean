import Lazuli.Runtime.Policy

/-!
Binding sources (`runtime/go/lazuli/effect.go`, `resolveSource` and `readCtx` in
`handle.go`).

A source says where the value of a column comes from. What the application plugs into the
runtime, and the clock, is in `Hooks`. A Go panic is a failure of its own: a context may be
nil, and only some paths look at it.
-/

namespace Lazuli.Runtime

/-! ### Identifiers -/

def isIdentChar (c : Char) : Bool := isLower c || isUpper c || isDigit c || c = '_'

/-- A name that `quoteIdent` quotes; it panics on any other. -/
structure Ident where
  text : String
  safe : text.toList.all isIdentChar = true
  deriving DecidableEq

def quoteIdent (name : Ident) : String := "\"" ++ name.text ++ "\""

/-- The name as an identifier, unless quoting it would panic. -/
def Ident.of (name : String) : Option Ident :=
  if safe : name.toList.all isIdentChar = true then some ⟨name, safe⟩ else none

/-! ### Sources -/

inductive Source where
  | input (path : String)
  | inputOptional (path : String)
  | ctx (path : String)
  | ctxOwnedVia (path : String) (relatedTable ownerColumn : Ident)
  | target (path : String)
  | const (value : Value)
  | fn (name : String) (args : List Source)

/-- What the application registers, and the clock. `bindingFn` finds a function in either
registry; `cipher` is the encryptor of a key scope. -/
structure Hooks where
  rbac : Rbac
  bindingFn : String → Option (Option Ctx → List Value → Except Error Value)
  sanitizeHTML : String → String → String
  cipher : Option Ctx → String → Except Error (List UInt8 → Except Error (List UInt8))
  wall : Int

inductive Failure where
  | error (err : Error)
  | panic

def fail {α : Type} (err : Error) : Except Failure α := .error (.error err)

def wrapError {α : Type} (x : Except Error α) : Except Failure α := x.mapError .error

/-- A sequence succeeds when both parts do. -/
theorem bind_eq_ok {ε α β : Type} {x : Except ε α} {f : α → Except ε β} {b : β} :
    x >>= f = .ok b ↔ ∃ a, x = .ok a ∧ f a = .ok b := by
  cases x with
  | error e =>
      constructor
      · intro h
        cases h
      · rintro ⟨a, h, -⟩
        cases h
  | ok a =>
      constructor
      · exact fun h => ⟨a, rfl, h⟩
      · rintro ⟨a', h, hb⟩
        cases h
        exact hb

/-- A failure that is told in other words is no success. -/
theorem mapError_eq_ok {ε ε' α : Type} {f : ε → ε'} {x : Except ε α} {a : α} :
    x.mapError f = .ok a ↔ x = .ok a := by
  cases x <;> simp [Except.mapError]

def noUser : Error :=
  { status := 401, code := CodePolicyDenied, message := "no authenticated user in context" }

def noActorOrg : Error :=
  { status := 400, code := CodeTenantMismatch, message := "no actor org in context" }

def noTenant : Error :=
  { status := 400, code := CodeTenantMismatch, message := "no tenant in context" }

def unknownCtxPath (path : String) : Error :=
  { status := 500, code := CodeInternal, message := "unknown ctx path: " ++ path }

def targetNotImplemented : Error :=
  { status := 501, code := CodeInternal
    message := "target binding not yet implemented in runtime spike" }

def fnNotRegistered (name : String) : Error :=
  { status := 500, code := CodeInternal
    message := "binding fn not registered in either registry: @fn." ++ name }

/-- A field of the context; there is none behind a nil pointer. -/
def deref (ctx : Option Ctx) : Except Failure Ctx :=
  match ctx with
  | some ctx => .ok ctx
  | none => .error .panic

def readUser (ctx : Ctx) (field : User → Int) : Except Failure Value :=
  match ctx.user with
  | some user => .ok (.int (field user))
  | none => fail noUser

def readActorOrg (ctx : Ctx) : Except Failure Value :=
  match ctx.user, ctx.tenant with
  | some user, _ => .ok (.int user.orgID)
  | none, some tenant => .ok (.int tenant.orgID)
  | none, none => fail noActorOrg

def readTenant (ctx : Ctx) : Except Failure Value :=
  match ctx.tenant with
  | some tenant => .ok (.int tenant.orgID)
  | none => fail noTenant

def readNow (wall : Int) (ctx : Ctx) : Except Failure Value := .ok (.time (ctx.now.getD wall))

def readCtx (wall : Int) (ctx : Option Ctx) (path : String) : Except Failure Value :=
  match path with
  | "user" | "user.id" | "actor.user_id" | "actor.id" => do readUser (← deref ctx) User.id
  | "user.org_id" | "user.org" => do readUser (← deref ctx) User.orgID
  | "actor.org_id" | "actor.tenant_id" => do readActorOrg (← deref ctx)
  | "tenant.org_id" => do readTenant (← deref ctx)
  | "now" => do readNow wall (← deref ctx)
  | _ => fail (unknownCtxPath path)

section Resolve

variable (h : Hooks) (ctx : Option Ctx) (input : Slot)

mutual

def resolveSource : Source → Except Failure Value
  | .const value => .ok value
  | .input path | .inputOptional path => wrapError (readPath input path)
  | .ctx path | .ctxOwnedVia path _ _ => readCtx h.wall ctx path
  | .target _ => fail targetNotImplemented
  | .fn name args =>
      match h.bindingFn name with
      | none => fail (fnNotRegistered name)
      | some fn => do
          let values ← resolveSources args
          wrapError (fn ctx values)

def resolveSources : List Source → Except Failure (List Value)
  | [] => .ok []
  | src :: rest => do
      let value ← resolveSource src
      let values ← resolveSources rest
      .ok (value :: values)

end

end Resolve

end Lazuli.Runtime
