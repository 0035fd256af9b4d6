import Lazuli.Codegen.Schema
import Lazuli.General.Program
import Lazuli.Runtime.Value
import Lazuli.Runtime.Command

/-!
The `Handle<Command>` function of a command (`emitter/command/emit_p1.rs`, `semantic.rs`,
`scope.rs`, `emitter/referential_guard.rs`).

It validates the semantic scalars of the input, asks for the plan features and the quotas of
its gates and probes the referential guards of the resource that it deletes from. Then it calls
the `Handle` of the command, and counts its quotas when that succeeds.
-/

namespace Lazuli.Codegen

open Ir Lazuli.General Lazuli.Runtime

/-! ### Semantic scalars -/

/-- An input field with a validator. `call` is the Go function that validates it. -/
structure SemanticValidatorSlot where
  goField : String
  jsonField : String
  optional : Bool
  call : String
  errorCode : String
  messageKey : String
  deriving DecidableEq

def pluginPrefix : String := "@lazuli/plugin-"

/-- The short name without its hyphens. -/
def pluginAlias (plugin : String) : String :=
  let short :=
    if pluginPrefix.toList.isPrefixOf plugin.toList then plugin.toList.drop pluginPrefix.length
    else plugin.toList
  String.ofList (short.filter (· ≠ '-'))

def semanticValidatorSlot (slot : TypedSlot) : Option SemanticValidatorSlot :=
  match slot.typeRef with
  | .builtin (.semanticPluginType type) =>
      if slot.validateSkip || type.validator = "" then none
      else some
        { goField := pascalCase slot.name
          jsonField := slot.name
          optional := !slot.required
          call := pluginAlias type.plugin ++ "." ++ type.validator
          errorCode := type.errorCode
          messageKey := type.messageKey }
  | _ => none

def semanticValidatorSlots (command : Ir.Command) : List SemanticValidatorSlot :=
  match command.input with
  | .typed slots => slots.filterMap semanticValidatorSlot
  | _ => []

/-! ### Gates -/

def partitionGates (gates : List Gate) : List String × List String :=
  (gates.filterMap fun | .behind feature => some feature | .quota _ => none,
    gates.filterMap fun | .behind _ => none | .quota limit => some limit)

/-! ### Referential guards -/

/-- The resource of which a command removes rows: by deleting them, or by setting
`deleted_at`. -/
def deletedResource (command : Ir.Command) : Option String :=
  match command.effect with
  | .deletes d => some d.resource.name
  | .updates u =>
      if u.assignments.any fun a => a.field = "deleted_at" then some u.resource.name else none
  | _ => none

/-- The guards of the deleted resource, which is one of the same feature. -/
def declaredGuards (feature : Feature) (command : Ir.Command) : List RestrictOnDelete :=
  match deletedResource command with
  | none => []
  | some name =>
      match feature.resources.find? fun r => r.name = name with
      | none => []
      | some resource => resource.restrictOnDelete

structure WhereKeyBinding where
  column : String
  inputField : String
  deriving DecidableEq

/-- Route slots, or else the only slot of a typed input, or else the id. -/
def resolveWhereKeys (command : Ir.Command) : List WhereKeyBinding :=
  if command.route ≠ [] then
    command.route.map fun slot => ⟨slot.name, pascalCase slot.name⟩
  else
    match command.input with
    | .typed [slot] => [⟨slot.name, pascalCase slot.name⟩]
    | _ => [⟨"id", "ID"⟩]

/-- The guards that are probed, each with the input field it is given. -/
def wiredGuards (feature : Feature) (command : Ir.Command) : List (RestrictOnDelete × String) :=
  match resolveWhereKeys command with
  | [key] => (declaredGuards feature command).map fun guard => (guard, key.inputField)
  | _ => []

/-! ### The function -/

inductive Check where
  | validate (call value : String)
  | feature (name : String)
  | quota (limit : String)
  | probe (guard : RestrictOnDelete) (id : Slot)

/-- What the wrapper and the command do outside. `checks` is all that `Handle` checks itself
before its effect. -/
inductive WrapperOp where
  | check (c : Check)
  | checks (input : Slot)
  | effect (input : Slot)
  | incrQuota (limit : String)

inductive Refusal (E : Type) where
  | error (err : Error)
  | validationFailed (fields messageKeys : List (String × String))
  | failed (err : E)

@[reducible] def WrapperOp.Res (E O : Type) : WrapperOp → Type
  | .check _ => Except E Unit
  | .checks _ => Except E Unit
  | .effect _ => Except E O
  | .incrQuota _ => Except E Unit

section Wrapper

variable {E O : Type}

abbrev Handler (E O α : Type) := Program (WrapperOp.Res E O) (Except (Refusal E) α)

/-- Go on unless there is an error. -/
def Handler.andThen {α β : Type} (p : Handler E O α) (next : α → Handler E O β) :
    Handler E O β :=
  p.bind fun
    | .error err => .done (.error err)
    | .ok a => next a

/-- The effect comes after what the command checks itself. -/
def commandHandle (input : Slot) : Handler E O O :=
  .call (.checks input) fun
    | .error err => .done (.error (.failed err))
    | .ok () => .call (.effect input) fun r => .done (r.mapError .failed)

def structField (input : Slot) (name : String) : Slot :=
  match input with
  | .direct (.struct fields) => (fields.find fun n _ => n = name).getD .nilPointer
  | _ => .nilPointer

/-- What is validated: nothing of an empty or absent text. -/
def SemanticValidatorSlot.value (slot : SemanticValidatorSlot) (input : Slot) : Option String :=
  match structField input slot.goField with
  | .direct (.string text) | .pointer (.string text) => if text = "" then none else some text
  | _ => none

/-- The slots whose validator refuses, in order. -/
def validateSlots (input : Slot) : List SemanticValidatorSlot →
    Program (WrapperOp.Res E O) (List SemanticValidatorSlot)
  | [] => .done []
  | slot :: slots =>
      match slot.value input with
      | none => validateSlots input slots
      | some text =>
          .call (.check (.validate slot.call text)) fun
            | .ok () => validateSlots input slots
            | .error _ => (validateSlots input slots).bind fun bad => .done (slot :: bad)

def semanticValidatePrelude (slots : List SemanticValidatorSlot) (input : Slot) :
    Handler E O Unit :=
  (validateSlots input slots).bind fun bad =>
    if bad = [] then .done (.ok ())
    else
      .done (.error (.validationFailed (bad.map fun s => (s.jsonField, s.errorCode))
        ((bad.filter fun s => s.messageKey ≠ "").map fun s => (s.jsonField, s.messageKey))))

/-- Each check in turn; the first that fails is the answer. -/
def requireAll : List Check → Handler E O Unit
  | [] => .done (.ok ())
  | c :: checks =>
      .call (.check c) fun
        | .error err => .done (.error (.failed err))
        | .ok () => requireAll checks

/-- Whether counting fails is not looked at. -/
def incrQuotas {α : Type} (a : α) : List String → Program (WrapperOp.Res E O) α
  | [] => .done a
  | limit :: limits => .call (.incrQuota limit) fun _ => incrQuotas a limits

def handleAndCount (input : Slot) (quotas : List String) : Handler E O O :=
  (commandHandle input).bind fun
    | .error err => .done (.error err)
    | .ok out => incrQuotas (.ok out) quotas

def commandHandlerWrapper (feature : Feature) (command : Ir.Command) (input : Slot) :
    Handler E O O :=
  let gates := partitionGates command.gates
  (semanticValidatePrelude (semanticValidatorSlots command) input).andThen fun () =>
    (requireAll (gates.1.map .feature ++ gates.2.map .quota)).andThen fun () =>
      (requireAll ((wiredGuards feature command).map fun g =>
        .probe g.1 (structField input g.2))).andThen fun () =>
        handleAndCount input gates.2

end Wrapper

end Lazuli.Codegen

/-!
Registration and HTTP dispatch of commands (`emitter/register.rs`,
`runtime/go/lazuli/register.go`, `http.go`).

A generated package registers the `Command` values of its features. The mux serves each of them
under `/api/v1/c/`, and those that only read also under `/api/v1/q/`; both lead to the `Handle`
of the value.
-/

namespace Lazuli.Codegen

open Ir Lazuli.General Lazuli.Runtime

/-! ### The registry -/

/-- A `Command` value with its input type: how JSON is decoded into it, and its zero value. -/
structure TypedCommand where
  command : Runtime.Command
  externalCalls : List String
  decode : String → Except String Slot
  zeroInput : Slot

structure Registry where
  commands : List TypedCommand
  queries : List String

namespace Registry

/-- A name that is registered twice is a panic. -/
def register (reg : Registry) (c : TypedCommand) : Option Registry :=
  if reg.commands.any fun d => d.command.name = c.command.name then none
  else some { reg with commands := reg.commands ++ [c] }

def registerAll : Registry → List TypedCommand → Option Registry
  | reg, [] => some reg
  | reg, c :: cs => (reg.register c).bind fun reg => reg.registerAll cs

def lookupCommandHandler (reg : Registry) (name : String) : Option TypedCommand :=
  reg.commands.find? fun c => c.command.name = name

end Registry

/-- The `register.gen.go` files of a module. `vars` are the values that stand for its commands,
`queries` the names of its queries. -/
def registered (m : Module) (vars : Feature → Ir.Command → TypedCommand) (queries : List String) :
    Option Registry :=
  Registry.registerAll ⟨[], queries⟩ (m.features.flatMap fun f => f.commands.map (vars f))

/-! ### Requests -/

inductive Body where
  | absent
  | bytes (raw : String)
  | tooLarge
  | broken (message : String)
  deriving DecidableEq

/-- `sessionExpiredAt` is set for the token of a session that has run out. -/
structure Request where
  path : String
  body : Body
  ctx : Ctx
  sessionExpiredAt : Option Int
  deriving DecidableEq

def CodeTokenExpired : String := "token_expired"

def readRequestBody : Body → Except Error String
  | .absent => .ok ""
  | .bytes raw => .ok raw
  | .tooLarge =>
      .error
        { status := 413, code := CodeBadRequest, messageKey := CodeBadRequest
          message := "request body too large" }
  | .broken message =>
      .error { status := 400, code := CodeBadRequest, message := "failed to read body: " ++ message }

/-- Only an anonymous caller is told so. -/
def sessionExpiredError (req : Request) : Option Error :=
  if req.sessionExpiredAt.isNone || req.ctx.actor ≠ ActorAnonymous then none
  else
    some
      { status := 401, code := CodeTokenExpired, messageKey := CodeTokenExpired
        message := "session expired" }

/-- An empty body is the zero input. -/
def TypedCommand.decodeInput (c : TypedCommand) (raw : String) : Except Error Slot :=
  if raw = "" then .ok c.zeroInput
  else
    (c.decode raw).mapError fun message =>
      { status := 400, code := CodeBadRequest, message := "invalid JSON body: " ++ message }

section Serve

variable {E O : Type}

def TypedCommand.dispatch (c : TypedCommand) (raw : String) : Handler E O O :=
  match c.decodeInput raw with
  | .error err => .done (.error (.error err))
  | .ok input => commandHandle input

def noTypedHandler (name : String) : Error :=
  { status := 500, code := CodeInternal
    message := "command registered without typed handler: " ++ name }

def handleCommandRequest (reg : Registry) (name : String) (req : Request) : Handler E O O :=
  match reg.lookupCommandHandler name with
  | none => .done (.error (.error (noTypedHandler name)))
  | some handler =>
      match readRequestBody req.body with
      | .error err => .done (.error (.error err))
      | .ok raw =>
          match sessionExpiredError req with
          | some err => .done (.error (.error err))
          | none => handler.dispatch raw

/-! ### The mux -/

def pureReadCommandPrefixes : List String :=
  ["list_", "get_", "lookup_", "search_", "find_", "count_"]

/-- The name behind the first dot. -/
def shortName (name : String) : String :=
  match name.toList.dropWhile (· ≠ '.') with
  | [] => name
  | _ :: short => String.ofList short

def isPureReadCommand (c : TypedCommand) : Bool :=
  match c.command.effect with
  | some (.returns _) =>
      c.command.emits.isEmpty && c.command.emitsTrace.isEmpty && c.command.invalidates.isEmpty &&
        c.externalCalls.isEmpty && c.command.transitions.isEmpty &&
        pureReadCommandPrefixes.any fun p =>
          p.toList.isPrefixOf (shortName c.command.name).toList
  | _ => false

inductive Endpoint where
  | command (name : String)
  | query (name : String)
  deriving DecidableEq

def commandRoutes (c : TypedCommand) : List String :=
  ("POST /api/v1/c/" ++ c.command.name) ::
    if isPureReadCommand c then ["POST /api/v1/q/" ++ c.command.name] else []

def Registry.routes (reg : Registry) : List (String × Endpoint) :=
  (reg.commands.flatMap fun c =>
    (commandRoutes c).map fun path => (path, .command c.command.name)) ++
    reg.queries.map fun name => ("POST /api/v1/q/" ++ name, .query name)

/-- A pattern that is mounted twice is a panic. -/
def mux (reg : Registry) : Option (List (String × Endpoint)) :=
  if (reg.routes.map Prod.fst).Nodup then some reg.routes else none

/-- What happens to a request whose route leads to a command. -/
def serve (reg : Registry) (table : List (String × Endpoint)) (req : Request) :
    Option (Handler E O O) :=
  match table.find? fun e => e.1 = req.path with
  | some (_, .command name) => some (handleCommandRequest reg name req)
  | some (_, .query _) | none => none

end Serve

end Lazuli.Codegen
