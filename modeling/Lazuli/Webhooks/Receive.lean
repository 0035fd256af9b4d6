import Lazuli.General.GoDuration
import Lazuli.General.Program

/-!
The webhook receiver (`runtime/go/lazuli/webhooks/contract.go`, `receive.go` and `verify.go`).

`handleOne` is a program: the hooks that other packages install, the body, the environment,
the clock and the author's handler answer its operations. What the hash functions, `gjson`,
`encoding/json` and the parsers of `time` compute is left open.
-/

namespace Lazuli.Webhooks

open Lazuli.General

abbrev Bytes := List UInt8

/-! ### Contracts -/

def VerifyHmac : String := "hmac"

structure VerifySpec where
  scheme : String
  algorithm : String
  secretEnv : String
  header : String
  deriving DecidableEq

structure TenantFromSpec where
  path : String
  deriving DecidableEq

inductive ReplayMode where
  | allow
  | deny
  deriving DecidableEq

structure ReplaySpec where
  mode : ReplayMode
  window : String
  deriving DecidableEq

structure GateRef where
  kind : String
  name : String
  deriving DecidableEq

structure WebhookContract where
  feature : String
  name : String
  verify : VerifySpec
  tenantFrom : Option TenantFromSpec
  idempotencyBy : String
  emits : List String
  replay : Option ReplaySpec
  gates : List GateRef
  deriving DecidableEq

/-- Header names are canonical. -/
structure Request where
  header : String → List String

structure Envelope (P : Type) where
  id : String
  tenant : String
  header : String → Option String
  body : Bytes
  parsedPayload : Option P

/-! ### Libraries -/

/-- Payloads are decoded to values of type `P`. A duration is one of 64 bits. -/
structure Library (P : Type) where
  hmacSha256 : Bytes → Bytes → String
  sha256 : Bytes → String
  get : Bytes → String → Option String
  unmarshal : Bytes → Option P
  parseDuration : String → Option Int
  parseTime : String → Option Int
  canonicalKey : String → String
  duration : ∀ text d, parseDuration text = some d → minDuration ≤ d ∧ d ≤ maxDuration

/-- The hooks that are installed. -/
structure Hooks where
  preludeRunner : Bool
  incrementRunner : Bool
  idempotencyChecker : Bool
  eventPublisher : Bool
  deriving DecidableEq

/-! ### Operations -/

inductive Op (P : Type) where
  | prelude (gates : List GateRef)
  | readBody
  | getenv (name : String)
  | now
  | checkIdempotency (feature name key : String)
  | handler (feature name : String) (envelope : Envelope P)
  | increment (gates : List GateRef)
  | publish (name : String) (payload : Option P) (occurredAt : Int)

@[reducible] def Op.Res {P : Type} : Op P → Type
  | .prelude _ => Except String Unit
  | .readBody => Except String Bytes
  | .getenv _ => Bytes
  | .now => Int
  | .checkIdempotency .. => Except String Bool
  | .handler .. => Except String Unit
  | .increment _ => Except String Unit
  | .publish .. => Unit

abbrev Receiver (P α : Type) := @Program (Op P) Op.Res α

inductive Status where
  | ok
  | badRequest
  | unauthorized
  | paymentRequired
  | gone
  | unprocessableEntity
  | internalServerError
  deriving DecidableEq

/-! ### The receiver -/

section Receiver

variable {P : Type} (lib : Library P) (hooks : Hooks) (contract : WebhookContract) (req : Request)

def verifyHmacSignature (spec : VerifySpec) (secret body : Bytes) (header : String) : Bool :=
  if spec.scheme = VerifyHmac then
    if spec.algorithm = "sha256" then decide (lib.hmacSha256 secret body = header) else false
  else false

def headerGet (name : String) : String := ((req.header (lib.canonicalKey name)).head?).getD ""

def flattenHeader (header : String → List String) (name : String) : Option String :=
  (header name).head?

/-- The text at a path, which is empty when there is none. -/
def stringAt (body : Bytes) (path : String) : String := (lib.get body path).getD ""

def resolveIdempotencyKey (body : Bytes) : String :=
  if contract.idempotencyBy = "" then lib.sha256 body
  else
    let key := stringAt lib body contract.idempotencyBy
    if key = "" then lib.sha256 body else key

def publishAll (payload : Option P) (occurredAt : Int) : List String → Receiver P Status
  | [] => .done .ok
  | event :: events =>
      .call (.publish event payload occurredAt) fun _ => publishAll payload occurredAt events

def publishEmits (payload : Option P) : Receiver P Status :=
  if hooks.eventPublisher then
    .call .now fun now => publishAll payload now contract.emits
  else .done .ok

/-- A failed increment does not fail the response. -/
def runIncrement (rest : Receiver P Status) : Receiver P Status :=
  if contract.gates = [] ∨ hooks.incrementRunner = false then rest
  else .call (.increment contract.gates) fun _ => rest

def dispatch (envelope : Envelope P) : Receiver P Status :=
  .call (.handler contract.feature contract.name envelope) fun
    | .error _ => .done .internalServerError
    | .ok _ => runIncrement hooks contract (publishEmits hooks contract envelope.parsedPayload)

/-- A key that the checker has seen is answered without the handler. -/
def checkIdempotency (envelope : Envelope P) : Receiver P Status :=
  if hooks.idempotencyChecker then
    .call (.checkIdempotency contract.feature contract.name envelope.id) fun
      | .error _ => .done .internalServerError
      | .ok true => .done .ok
      | .ok false => dispatch hooks contract envelope
  else dispatch hooks contract envelope

def resolveTenant (body : Bytes) : Option String :=
  match contract.tenantFrom with
  | none => some ""
  | some tenantFrom =>
      let tenant := stringAt lib body tenantFrom.path
      if tenant = "" then none else some tenant

def decodePayload (body : Bytes) : Option (Option P) :=
  if body = [] then some none else (lib.unmarshal body).map some

def accept (body : Bytes) : Receiver P Status :=
  match decodePayload lib body with
  | none => .done .badRequest
  | some parsed =>
      match resolveTenant lib contract body with
      | none => .done .unprocessableEntity
      | some tenant =>
          checkIdempotency hooks contract
            { id := resolveIdempotencyKey lib contract body
              tenant := tenant
              header := flattenHeader req.header
              body := body
              parsedPayload := parsed }

/-- The check is left out when the window or the timestamp cannot be parsed. -/
def denyReplay (body : Bytes) (rest : Receiver P Status) : Receiver P Status :=
  match contract.replay with
  | some ⟨.deny, window⟩ =>
      if window = "" then rest
      else
        match lib.parseDuration window, lib.parseTime (stringAt lib body "timestamp") with
        | some window, some ts =>
            .call .now fun now => if window < saturate64 (now - ts) then .done .gone else rest
        | _, _ => rest
  | _ => rest

def authenticate (body : Bytes) : Receiver P Status :=
  .call (.getenv contract.verify.secretEnv) fun secret =>
    if secret = [] then .done .internalServerError
    else if verifyHmacSignature lib contract.verify secret body
        (headerGet lib req contract.verify.header) then
      denyReplay lib contract body (accept lib hooks contract req body)
    else .done .unauthorized

def receive : Receiver P Status :=
  .call .readBody fun
    | .error _ => .done .badRequest
    | .ok body => authenticate lib hooks contract req body

def handleOne : Receiver P Status :=
  if contract.gates = [] ∨ hooks.preludeRunner = false then receive lib hooks contract req
  else .call (.prelude contract.gates) fun
    | .error _ => .done .paymentRequired
    | .ok _ => receive lib hooks contract req

end Receiver

end Lazuli.Webhooks
