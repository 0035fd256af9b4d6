import Lazuli.General.Program

/-!
Sending a notification (`runtime/go/lazuli/notifications/contract.go`, `dispatch.go`).

`send` reads recipient, tenant and identity out of the JSON of the payload, and hands one envelope
to the adapter of every channel, again and again while it fails and attempts are left. The stores
for digests and throttles, the adapters and the event bus are operations that may answer anything.
-/

namespace Lazuli.Notifications

open Lazuli.General

/-! ### Contracts -/

inductive Channel where
  | email
  | inApp
  | push
  | slack
  | discord
  | webhook
  deriving DecidableEq

structure TenantFromSpec where
  path : String
  deriving DecidableEq

structure IdempotencyKeySpec where
  path : String
  deriving DecidableEq

structure RetryPolicy where
  count : UInt32
  backoff : String
  deriving DecidableEq

structure NotificationDigest where
  groupBy : String
  deriving DecidableEq

structure NotificationThrottle where
  maxPer : String
  perRecipient : Bool
  perChannel : Bool
  burst : UInt32
  deriving DecidableEq

structure NotificationContract where
  feature : String
  name : String
  channels : List Channel
  recipient : String
  tenantFrom : Option TenantFromSpec := none
  idempotency : Option IdempotencyKeySpec := none
  retry : Option RetryPolicy := none
  emits : List String := []
  digest : Option NotificationDigest := none
  throttle : Option NotificationThrottle := none
  deriving DecidableEq

structure Envelope (Payload : Type) where
  id : String
  tenant : String
  channel : Channel
  recipient : String
  payload : Payload
  templateData : Payload
  deriving DecidableEq

/-! ### Texts of the payload -/

/-- JSON texts, what `gjson` finds in them at a path, and SHA-256 of a text. -/
structure Codec (Payload : Type) where
  marshal : Payload → Except String String
  getBytes : String → String → Option String
  sha256 : String → List UInt8

section Resolve

variable {Payload : Type} (codec : Codec Payload) (payload : String)

/-- A path without a dot that leads nowhere stands for itself. -/
def resolvePath (path : String) : String :=
  if path = "" then ""
  else
    match codec.getBytes payload path with
    | some value => value
    | none => if '.' ∈ path.toList then "" else path

def hexDigit (n : Nat) : Char := Char.ofNat (if n < 10 then '0'.toNat + n else 'a'.toNat + (n - 10))

def encodeToString (bytes : List UInt8) : String :=
  String.ofList (bytes.flatMap fun b => [hexDigit (b.toNat / 16), hexDigit (b.toNat % 16)])

/-- The text that is hashed. -/
def contentText (contract : NotificationContract) : String :=
  contract.feature ++ ":" ++ contract.name ++ ":" ++ payload

def declaredKey (contract : NotificationContract) : Option String :=
  contract.idempotency.bind fun spec =>
    let key := resolvePath codec payload spec.path
    if key = "" then none else some key

def resolveIdempotencyKey (contract : NotificationContract) : String :=
  match declaredKey codec payload contract with
  | some key => key
  | none => encodeToString (codec.sha256 (contentText payload contract))

/-- No tenant without `tenantFrom`; `none` when there should be one. -/
def resolveTenant (contract : NotificationContract) : Option String :=
  match contract.tenantFrom with
  | none => some ""
  | some spec =>
      let tenant := resolvePath codec payload spec.path
      if tenant = "" then none else some tenant

end Resolve

/-! ### Operations -/

structure ThrottleKey where
  notification : String
  recipient : String
  channel : Channel
  deriving DecidableEq

/-- `expected` is `ErrDigestFull` or `ErrThrottleExceeded`. -/
inductive StoreError where
  | expected
  | other (message : String)
  deriving DecidableEq

/-- `wait` is the pause before another attempt, which the context may cut short. -/
inductive SendOp (Payload : Type) where
  | digestAdd (notification groupBy : String) (payload : Payload)
  | allow (key : ThrottleKey) (spec : NotificationThrottle)
  | wait (retry : RetryPolicy) (attempt : Nat)
  | dispatch (env : Envelope Payload)
  | publish (name : String) (payload : Payload)

@[reducible] def SendOp.Res {Payload : Type} : SendOp Payload → Type
  | .digestAdd .. => Except StoreError Unit
  | .allow .. => Bool × Option StoreError
  | .wait .. => Except String Unit
  | .dispatch _ => Except String Unit
  | .publish .. => Unit

inductive SendError where
  | marshal (message : String)
  | tenantUnresolved
  | digest (message : String)
  | throttle (message : String)
  | channelUnsupported
  | deliveryFailed
  | adapter (message : String)
  deriving DecidableEq

/-- The channels with an adapter, and which stores there are. -/
structure Registry where
  dispatchers : List Channel
  throttle : Bool
  digest : Bool
  deriving DecidableEq

/-! ### Sending -/

section Send

variable {Payload : Type}

abbrev Sending (Payload α : Type) := Program (@SendOp.Res Payload) α

/-- The number of attempts is a 32-bit one. -/
def maxAttempts (retry : Option RetryPolicy) : Nat :=
  match retry with
  | some policy => if 0 < policy.count then (policy.count + 1).toNat else 1
  | none => 1

def pause (retry : Option RetryPolicy) (attempt : Nat) :
    Sending Payload (Except String Unit) :=
  match retry with
  | some policy =>
      if 0 < attempt then .call (.wait policy attempt) fun r => .done r else .done (.ok ())
  | none => .done (.ok ())

/-- The attempts from one on, of which `left` are left; `last` is how the one before ended. -/
def dispatchFrom (env : Envelope Payload) (retry : Option RetryPolicy) (attempt : Nat)
    (last : Except String Unit) : Nat → Sending Payload (Except String Unit)
  | 0 => .done last
  | left + 1 =>
      (pause retry attempt).bind fun
        | .error err => .done (.error err)
        | .ok () =>
            .call (.dispatch env) fun
              | .ok () => .done (.ok ())
              | .error err => dispatchFrom env retry (attempt + 1) (.error err) left

def dispatchWithRetry (env : Envelope Payload) (retry : Option RetryPolicy) :
    Sending Payload (Except String Unit) :=
  dispatchFrom env retry 0 (.ok ()) (maxAttempts retry)

/-- What the loop over the channels keeps. -/
structure Tally where
  deliveredAny : Bool := false
  throttledAny : Bool := false
  lastErr : Option SendError := none
  deriving DecidableEq

/-- What the throttle says: go on, skip the channel, or skip it with an error. -/
inductive Verdict where
  | go
  | throttled
  | failed (message : String)

def throttleVerdict (registry : Registry) (contract : NotificationContract) (key : ThrottleKey) :
    Sending Payload Verdict :=
  match registry.throttle, contract.throttle with
  | true, some spec =>
      .call (.allow key spec) fun
        | (_, some (.other message)) => .done (.failed message)
        | (allowed, _) => .done (if allowed then .go else .throttled)
  | _, _ => .done .go

def sendChannel (registry : Registry) (contract : NotificationContract)
    (env : Channel → Envelope Payload) (tally : Tally) (ch : Channel) :
    Sending Payload Tally :=
  if ch ∉ registry.dispatchers then .done { tally with lastErr := some .channelUnsupported }
  else
    (throttleVerdict registry contract ⟨contract.name, (env ch).recipient, ch⟩).bind fun
      | .failed message => .done { tally with lastErr := some (.throttle message) }
      | .throttled => .done { tally with throttledAny := true }
      | .go =>
          (dispatchWithRetry (env ch) contract.retry).bind fun
            | .error err => .done { tally with lastErr := some (.adapter err) }
            | .ok () => .done { tally with deliveredAny := true }

def sendChannels (registry : Registry) (contract : NotificationContract)
    (env : Channel → Envelope Payload) (tally : Tally) : List Channel → Sending Payload Tally
  | [] => .done tally
  | ch :: channels =>
      (sendChannel registry contract env tally ch).bind fun tally =>
        sendChannels registry contract env tally channels

def publishAll (payload : Payload) : List String → Sending Payload (Except SendError Unit)
  | [] => .done (.ok ())
  | name :: names => .call (.publish name payload) fun _ => publishAll payload names

/-- Throttled everywhere is no failure. -/
def conclude (contract : NotificationContract) (payload : Payload) (tally : Tally) :
    Sending Payload (Except SendError Unit) :=
  if tally.deliveredAny then publishAll payload contract.emits
  else if tally.throttledAny && tally.lastErr.isNone then .done (.ok ())
  else .done (.error (tally.lastErr.getD .deliveryFailed))

def addToDigest (contract : NotificationContract) (groupBy : String) (payload : Payload) :
    Sending Payload (Except SendError Unit) :=
  .call (.digestAdd contract.name groupBy payload) fun
    | .error (.other message) => .done (.error (.digest message))
    | _ => .done (.ok ())

variable (codec : Codec Payload)

/-- The envelope for a channel. -/
def envelope (contract : NotificationContract) (payload : Payload) (bytes tenant : String)
    (ch : Channel) : Envelope Payload where
  id := resolveIdempotencyKey codec bytes contract
  tenant := tenant
  channel := ch
  recipient := resolvePath codec bytes contract.recipient
  payload := payload
  templateData := payload

def send (registry : Registry) (contract : NotificationContract) (payload : Payload) :
    Sending Payload (Except SendError Unit) :=
  match codec.marshal payload with
  | .error message => .done (.error (.marshal message))
  | .ok bytes =>
      if resolvePath codec bytes contract.recipient = "" then .done (.ok ())
      else
        match resolveTenant codec bytes contract with
        | none => .done (.error .tenantUnresolved)
        | some tenant =>
            match contract.digest, registry.digest with
            | some digest, true =>
                addToDigest contract (resolvePath codec bytes digest.groupBy) payload
            | _, _ =>
                (sendChannels registry contract (envelope codec contract payload bytes tenant) {}
                  contract.channels).bind (conclude contract payload)

end Send

end Lazuli.Notifications
