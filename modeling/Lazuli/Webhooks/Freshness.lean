import Lazuli.Webhooks.Receive

/-!
How fresh an envelope is that a contract with denied replays lets through.

The check knows only too old a timestamp: a missing one, one that does not parse and one that
lies ahead of the clock all pass, as everything does under a window that does not parse.
`Covered` says when it does its work.
-/

namespace Lazuli.Webhooks

open Lazuli.General

variable {P : Type}

/-! ### The promise -/

/-- What the operations of one request are answered with. -/
structure Pass where
  prelude : Except String Unit
  body : Except String Bytes
  env : String → Bytes
  now : Int
  seen : Except String Bool
  handled : Except String Unit
  incremented : Except String Unit

def Pass.answer (pass : Pass) : (op : Op P) → op.Res
  | .prelude _ => pass.prelude
  | .readBody => pass.body
  | .getenv name => pass.env name
  | .now => pass.now
  | .checkIdempotency .. => pass.seen
  | .handler .. => pass.handled
  | .increment _ => pass.incremented
  | .publish .. => ()

def isHandler : Op P → Bool
  | .handler .. => true
  | _ => false

section Promise

variable (lib : Library P) (hooks : Hooks) (contract : WebhookContract) (req : Request)
  (pass : Pass) (window : String) (body : Bytes)

def Invoked : Prop := (handleOne lib hooks contract req).reaches pass.answer isHandler = true

/-- The timestamp is there, and the clock is within the window of it. -/
def WithinWindow : Prop :=
  ∃ text ts d, lib.get body "timestamp" = some text ∧ lib.parseTime text = some ts ∧
    lib.parseDuration window = some d ∧ pass.now - ts ≤ d ∧ ts - pass.now ≤ d

structure Fresh : Prop where
  read : pass.body = .ok body
  secret : pass.env contract.verify.secretEnv ≠ []
  scheme : contract.verify.scheme = VerifyHmac
  algorithm : contract.verify.algorithm = "sha256"
  signed : headerGet lib req contract.verify.header =
    lib.hmacSha256 (pass.env contract.verify.secretEnv) body
  within : WithinWindow lib pass window body

/-! ### When it is kept -/

/-- No other step than the replay check stops the request. -/
structure Passes : Prop where
  prelude : contract.gates = [] ∨ hooks.preludeRunner = false ∨ pass.prelude = .ok ()
  read : pass.body = .ok body
  secret : pass.env contract.verify.secretEnv ≠ []
  signed : verifyHmacSignature lib contract.verify (pass.env contract.verify.secretEnv) body
    (headerGet lib req contract.verify.header) = true
  decoded : (decodePayload lib body).isSome
  tenant : (resolveTenant lib contract body).isSome
  unseen : hooks.idempotencyChecker = true → pass.seen = .ok false

def TooOld : Prop :=
  ∃ ts d, lib.parseTime (stringAt lib body "timestamp") = some ts ∧
    lib.parseDuration window = some d ∧ d < saturate64 (pass.now - ts)

/-- The timestamp is not farther ahead than the window. Under the longest window its age must
be a duration. -/
def NotAhead : Prop :=
  ∃ text ts d, lib.get body "timestamp" = some text ∧ lib.parseTime text = some ts ∧
    lib.parseDuration window = some d ∧ ts - pass.now ≤ d ∧
      (d < maxDuration ∨ pass.now - ts ≤ maxDuration)

def Covered : Prop := TooOld lib pass window body ∨ NotAhead lib pass window body

end Promise

/-! ### The steps of the receiver -/

section Steps

variable {lib : Library P} {hooks : Hooks} {contract : WebhookContract} {req : Request}
  {pass : Pass} {window : String} {body : Bytes}

theorem reaches_checkIdempotency (envelope : Envelope P) :
    (checkIdempotency hooks contract envelope).reaches pass.answer isHandler = true ↔
      (hooks.idempotencyChecker = true → pass.seen = .ok false) := by
  unfold checkIdempotency
  cases hooks.idempotencyChecker with
  | false => simp [dispatch, isHandler]
  | true =>
      rcases seen : pass.seen with message | (_ | _) <;>
        simp [isHandler, Pass.answer, seen, dispatch]

theorem reaches_accept :
    (accept lib hooks contract req body).reaches pass.answer isHandler = true ↔
      (decodePayload lib body).isSome ∧ (resolveTenant lib contract body).isSome ∧
        (hooks.idempotencyChecker = true → pass.seen = .ok false) := by
  unfold accept
  cases decodePayload lib body with
  | none => simp
  | some parsed =>
      cases resolveTenant lib contract body with
      | none => simp
      | some tenant => simp [reaches_checkIdempotency]

theorem reaches_denyReplay (deny : contract.replay = some ⟨.deny, window⟩) (declared : window ≠ "")
    (rest : Receiver P Status) :
    (denyReplay lib contract body rest).reaches pass.answer isHandler = true ↔
      ¬ TooOld lib pass window body ∧ rest.reaches pass.answer isHandler = true := by
  unfold denyReplay TooOld
  rw [deny]
  simp only [declared, if_false]
  cases lib.parseDuration window with
  | none => simp
  | some d =>
      cases lib.parseTime (stringAt lib body "timestamp") with
      | none => simp
      | some ts =>
          by_cases old : d < saturate64 (pass.now - ts)
          · simp [isHandler, Pass.answer, old]
          · simp [isHandler, Pass.answer, old]

theorem reaches_authenticate (deny : contract.replay = some ⟨.deny, window⟩)
    (declared : window ≠ "") :
    (authenticate lib hooks contract req body).reaches pass.answer isHandler = true ↔
      pass.env contract.verify.secretEnv ≠ [] ∧
        verifyHmacSignature lib contract.verify (pass.env contract.verify.secretEnv) body
          (headerGet lib req contract.verify.header) = true ∧
        ¬ TooOld lib pass window body ∧
        (accept lib hooks contract req body).reaches pass.answer isHandler = true := by
  unfold authenticate
  simp only [Program.reaches_call, isHandler, Bool.false_or, Pass.answer]
  by_cases empty : pass.env contract.verify.secretEnv = []
  · simp [empty]
  · by_cases signed : verifyHmacSignature lib contract.verify (pass.env contract.verify.secretEnv)
        body (headerGet lib req contract.verify.header) = true
    · simp [empty, signed, reaches_denyReplay deny declared]
    · simp [empty, signed]

theorem reaches_receive :
    (receive lib hooks contract req).reaches pass.answer isHandler = true ↔
      ∃ body, pass.body = .ok body ∧
        (authenticate lib hooks contract req body).reaches pass.answer isHandler = true := by
  unfold receive
  cases read : pass.body with
  | error message => simp [isHandler, Pass.answer, read]
  | ok body => simp [isHandler, Pass.answer, read]

/-- The handler is invoked when no step stops the request. -/
theorem invoked_iff (deny : contract.replay = some ⟨.deny, window⟩) (declared : window ≠ "") :
    Invoked lib hooks contract req pass ↔
      ∃ body, Passes lib hooks contract req pass body ∧ ¬ TooOld lib pass window body := by
  have received : Invoked lib hooks contract req pass ↔
      (contract.gates = [] ∨ hooks.preludeRunner = false ∨ pass.prelude = .ok ()) ∧
        (receive lib hooks contract req).reaches pass.answer isHandler = true := by
    unfold Invoked handleOne
    by_cases ungated : contract.gates = [] ∨ hooks.preludeRunner = false
    · rcases ungated with none | none <;> simp [none]
    · rw [if_neg ungated]
      rcases gated : pass.prelude with message | ⟨⟩
      · simpa [isHandler, Pass.answer, gated] using fun h => absurd h ungated
      · simp [isHandler, Pass.answer, gated]
  simp only [received, reaches_receive, reaches_authenticate deny declared, reaches_accept]
  constructor
  · rintro ⟨prelude, body, read, secret, signed, recent, decoded, tenant, unseen⟩
    exact ⟨body, ⟨prelude, read, secret, signed, decoded, tenant, unseen⟩, recent⟩
  · rintro ⟨body, passes, recent⟩
    exact ⟨passes.prelude, body, passes.read, passes.secret, passes.signed, recent, passes.decoded,
      passes.tenant, passes.unseen⟩

theorem Passes.fresh (passes : Passes lib hooks contract req pass body)
    (within : WithinWindow lib pass window body) : Fresh lib contract req pass window body := by
  have signed := passes.signed
  unfold verifyHmacSignature at signed
  split at signed
  case isTrue scheme =>
    split at signed
    case isTrue algorithm =>
      exact ⟨passes.read, passes.secret, scheme, algorithm, (of_decide_eq_true signed).symm, within⟩
    case isFalse => cases signed
  case isFalse => cases signed

theorem WithinWindow.notAhead (within : WithinWindow lib pass window body) :
    NotAhead lib pass window body := by
  obtain ⟨text, ts, d, present, parsed, declared, recent, near⟩ := within
  obtain ⟨-, long⟩ := lib.duration window d declared
  exact ⟨text, ts, d, present, parsed, declared, near, .inr (Int.le_trans recent long)⟩

theorem NotAhead.withinWindow (notAhead : NotAhead lib pass window body)
    (recent : ¬ TooOld lib pass window body) : WithinWindow lib pass window body := by
  obtain ⟨text, ts, d, present, parsed, declared, near, room⟩ := notAhead
  have age : saturate64 (pass.now - ts) ≤ d := by
    by_contra older
    exact recent ⟨ts, d, by simp [stringAt, present, parsed], declared, by omega⟩
  refine ⟨text, ts, d, present, parsed, declared, ?_, near⟩
  rcases room with short | age'
  · exact le_of_saturate64_le age short
  · exact Int.le_trans (le_saturate64 age') age

/-- **Replay-denied webhooks are fresh** just when no request that only the replay check could
stop has a window or a timestamp that it leaves out, or a timestamp that lies ahead. -/
theorem replay_denied_fresh (lib : Library P) (hooks : Hooks) (contract : WebhookContract)
    (req : Request) (pass : Pass) (window : String)
    (deny : contract.replay = some ⟨.deny, window⟩) (declared : window ≠ "") :
    (Invoked lib hooks contract req pass → ∃ body, Fresh lib contract req pass window body) ↔
      ∀ body, Passes lib hooks contract req pass body → Covered lib pass window body := by
  rw [invoked_iff deny declared]
  constructor
  · intro promise body passes
    by_cases old : TooOld lib pass window body
    · exact .inl old
    · obtain ⟨body', fresh⟩ := promise ⟨body, passes, old⟩
      obtain rfl : body = body' := Except.ok.inj (passes.read.symm.trans fresh.read)
      exact .inr fresh.within.notAhead
  · rintro covered ⟨body, passes, recent⟩
    refine ⟨body, passes.fresh ?_⟩
    exact ((covered body passes).resolve_left recent).withinWindow recent

end Steps

/-! ### The inbound webhook of customers -/

def asciiBytes (text : String) : Bytes := text.toList.map fun c => UInt8.ofNat c.toNat

def stampedBody : Bytes :=
  asciiBytes "\x7b\"id\":\"evt_1\",\"timestamp\":\"2026-05-11T12:00:00Z\"\x7d"

def unstampedBody : Bytes := asciiBytes "\x7b\"id\":\"evt_1\"\x7d"

def stampedSignature : String := "12740bf3ef17b79385a15f11e36cee2a0b5ca2567391dd1bb32aad994765c781"

def unstampedSignature : String :=
  "19eb4a8074992c2a74ed8edbff745246e058672464716e20eaff561e31ec01b2"

/-- What the libraries answer for the two bodies. -/
def inboundLibrary : Library Unit where
  hmacSha256 _ body := if body = stampedBody then stampedSignature else unstampedSignature
  sha256 body :=
    if body = stampedBody then "0b22110b25985231135e1d179d8fa48850bf06da5de15fa22d342b41459d7efa"
    else "40993c639ffb5f13a0a2ef5c93c965f10b405f2b87a379272381da2dbc158dfa"
  get body path :=
    if path = "id" then some "evt_1"
    else if path = "timestamp" ∧ body = stampedBody then some "2026-05-11T12:00:00Z"
    else none
  unmarshal _ := some ()
  parseDuration text := if text = "24h" then some 86400000000000 else none
  parseTime text := if text = "2026-05-11T12:00:00Z" then some 1778500800000000000 else none
  canonicalKey := id
  duration := by
    intro text d parsed
    split at parsed
    · obtain rfl := Option.some.inj parsed
      decide
    · cases parsed

def inboundContract : WebhookContract :=
  { feature := "customer"
    name := "inbound"
    verify := ⟨VerifyHmac, "sha256", "INBOUND_SECRET", "X-Signature"⟩
    tenantFrom := none
    idempotencyBy := "id"
    emits := []
    replay := some ⟨.deny, "24h"⟩
    gates := [] }

def signedRequest (signature : String) : Request where
  header name := if name = "X-Signature" then [signature] else []

def noHooks : Hooks := ⟨false, false, false, false⟩

/-- A minute after noon. -/
def inboundPass (body : Bytes) : Pass :=
  { prelude := .ok ()
    body := .ok body
    env := fun _ => asciiBytes "shh"
    now := 1778500860000000000
    seen := .ok false
    handled := .ok ()
    incremented := .ok () }

theorem replay_denied_fresh_stamped :
    (Invoked inboundLibrary noHooks inboundContract (signedRequest stampedSignature)
        (inboundPass stampedBody) →
      ∃ body, Fresh inboundLibrary inboundContract (signedRequest stampedSignature)
        (inboundPass stampedBody) "24h" body) ∧
      inboundContract.replay = some ⟨.deny, "24h"⟩ := by
  refine ⟨(replay_denied_fresh inboundLibrary noHooks inboundContract
    (signedRequest stampedSignature) (inboundPass stampedBody) "24h" rfl (by decide)).mpr ?_, rfl⟩
  intro body passes
  obtain rfl : stampedBody = body := Except.ok.inj passes.read
  refine .inr ⟨"2026-05-11T12:00:00Z", 1778500800000000000, 86400000000000, ?_⟩
  decide

theorem unstamped_let_through :
    ¬ ∀ (lib : Library Unit) (hooks : Hooks) (contract : WebhookContract) (req : Request)
      (pass : Pass) (window : String), contract.replay = some ⟨.deny, window⟩ → window ≠ "" →
        Invoked lib hooks contract req pass → ∃ body, Fresh lib contract req pass window body := by
  intro promise
  obtain ⟨body, fresh⟩ := promise inboundLibrary noHooks inboundContract
    (signedRequest unstampedSignature) (inboundPass unstampedBody) "24h" rfl (by decide)
    (by unfold Invoked; decide)
  obtain rfl : unstampedBody = body := Except.ok.inj fresh.read
  obtain ⟨text, -, -, present, -⟩ := fresh.within
  have absent : inboundLibrary.get unstampedBody "timestamp" = none := by decide
  rw [absent] at present
  cases present

end Lazuli.Webhooks
