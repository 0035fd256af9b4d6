import Mathlib.Logic.Function.Basic
import Lazuli.Notifications.Send

/-!
Tenant and identity of a notification come from its payload, as far as they do.

The tenant is the value at the path of the contract unless a path without a dot leads nowhere: then
the path itself is taken (`tenantFromPayload_iff`). Two calls share an identity when the keys they
declare are the same text, whichever notification they are for (`distinguished_iff`).
-/

namespace Lazuli.Notifications

open Lazuli.General

/-! ### Hexadecimal texts -/

theorem hexDigit_inj : ∀ m < 16, ∀ n < 16, hexDigit m = hexDigit n → m = n := by decide

theorem encodeToString_injective : Function.Injective encodeToString := by
  intro bytes bytes' h
  have digits := String.ofList_injective h
  clear h
  induction bytes generalizing bytes' with
  | nil =>
      cases bytes' with
      | nil => rfl
      | cons b' bytes' => cases digits
  | cons b bytes ih =>
      cases bytes' with
      | nil => cases digits
      | cons b' bytes' =>
          simp only [List.flatMap_cons, List.cons_append, List.nil_append, List.cons.injEq]
            at digits
          obtain ⟨high, low, rest⟩ := digits
          have hb := b.toNat_lt
          have hb' := b'.toNat_lt
          have high := hexDigit_inj _ (by omega) _ (by omega) high
          have low := hexDigit_inj _ (by omega) _ (by omega) low
          rw [UInt8.toNat_inj.mp (by omega : b.toNat = b'.toNat), ih rest]

section Calls

variable {Payload : Type}

/-- A call of `Send`. -/
structure Call (Payload : Type) where
  registry : Registry
  contract : NotificationContract
  payload : Payload

variable (codec : Codec Payload)

def Call.program (call : Call Payload) : Sending Payload (Except SendError Unit) :=
  send codec call.registry call.contract call.payload

/-- The call can come to hand this envelope to an adapter. -/
def Call.Hands (call : Call Payload) (env : Envelope Payload) : Prop :=
  (call.program codec).MayCall (.dispatch env)

/-! ### Which envelopes are handed over -/

/-- With favourable answers the call gets to the channels, and attempts to send. -/
structure Call.Delivers (call : Call Payload) (bytes tenant : String) : Prop where
  marshal : codec.marshal call.payload = .ok bytes
  recipient : resolvePath codec bytes call.contract.recipient ≠ ""
  tenant : resolveTenant codec bytes call.contract = some tenant
  direct : call.contract.digest = none ∨ call.registry.digest = false
  attempts : maxAttempts call.contract.retry ≠ 0

/-- The call has an adapter. -/
def Call.HasChannel (call : Call Payload) : Prop :=
  ∃ ch ∈ call.contract.channels, ch ∈ call.registry.dispatchers

variable {codec}

def favourable : (op : SendOp Payload) → op.Res
  | .digestAdd .. => .ok ()
  | .allow .. => (true, none)
  | .wait .. => .ok ()
  | .dispatch _ => .ok ()
  | .publish .. => ()

theorem mayCall_dispatchFrom {env env' : Envelope Payload} {retry : Option RetryPolicy}
    {attempt left : Nat} {last : Except String Unit}
    (may : (dispatchFrom env retry attempt last left).MayCall (.dispatch env')) : env' = env := by
  induction left generalizing attempt last with
  | zero => exact may.elim
  | succ left ih =>
      rw [dispatchFrom, Program.mayCall_bind] at may
      rcases may with may | ⟨trace, answer, -, may⟩
      · unfold pause at may
        split at may
        · split at may
          · rcases may with same | ⟨r, may⟩
            · cases same
            · exact may.elim
          · exact may.elim
        · exact may.elim
      · cases answer with
        | error err => exact may.elim
        | ok _ =>
            rcases may with same | ⟨r, may⟩
            · cases same
              rfl
            · cases r with
              | ok _ => exact may.elim
              | error err => exact ih may

theorem mayCall_dispatchWithRetry {env env' : Envelope Payload} {retry : Option RetryPolicy} :
    (dispatchWithRetry env retry).MayCall (.dispatch env') ↔
      maxAttempts retry ≠ 0 ∧ env' = env := by
  unfold dispatchWithRetry
  constructor
  · intro may
    refine ⟨fun none => ?_, mayCall_dispatchFrom may⟩
    rw [none] at may
    exact may.elim
  · rintro ⟨some, rfl⟩
    obtain ⟨left, hleft⟩ := Nat.exists_eq_succ_of_ne_zero some
    have start : (pause retry 0 : Sending Payload _) = .done (.ok ()) := by
      cases retry with
      | none => rfl
      | some policy => rfl
    rw [hleft, dispatchFrom, start]
    exact .here _ _

theorem not_mayCall_throttleVerdict {registry : Registry} {contract : NotificationContract}
    {key : ThrottleKey} {env : Envelope Payload} :
    ¬ (throttleVerdict registry contract key).MayCall (.dispatch env) := by
  unfold throttleVerdict
  split
  · rintro (same | ⟨⟨allowed, err⟩, may⟩)
    · cases same
    · dsimp only at may
      split at may
      · exact may
      · exact may
  · exact id

/-- The throttle may let the channel through. -/
theorem runs_throttleVerdict_go (registry : Registry) (contract : NotificationContract)
    (key : ThrottleKey) :
    ∃ trace, (throttleVerdict registry contract key : Sending Payload Verdict).Runs trace .go := by
  unfold throttleVerdict
  split
  · refine ⟨_, Program.runs_call.mpr ⟨(true, none), [], rfl, ?_⟩⟩
    exact .done _
  · exact ⟨[], .done _⟩

variable {registry : Registry} {contract : NotificationContract}
  {env : Channel → Envelope Payload} {handed : Envelope Payload} {tally : Tally}

theorem mayCall_sendChannel {ch : Channel} :
    (sendChannel registry contract env tally ch).MayCall (.dispatch handed) ↔
      ch ∈ registry.dispatchers ∧ maxAttempts contract.retry ≠ 0 ∧ handed = env ch := by
  unfold sendChannel
  split
  · rename_i missing
    exact ⟨False.elim, fun h => missing h.1⟩
  · rename_i bound
    rw [not_not] at bound
    rw [Program.mayCall_bind, or_iff_right not_mayCall_throttleVerdict]
    constructor
    · rintro ⟨trace, verdict, -, may⟩
      cases verdict with
      | failed err => exact may.elim
      | throttled => exact may.elim
      | go =>
          rw [Program.mayCall_bind] at may
          rcases may with may | ⟨_, answer, -, may⟩
          · exact ⟨bound, mayCall_dispatchWithRetry.mp may⟩
          · cases answer with
            | error err => exact may.elim
            | ok _ => exact may.elim
    · rintro ⟨-, attempted⟩
      obtain ⟨trace, run⟩ := @runs_throttleVerdict_go Payload registry contract
        ⟨contract.name, (env ch).recipient, ch⟩
      refine ⟨trace, .go, run, ?_⟩
      exact Program.mayCall_bind.mpr (.inl (mayCall_dispatchWithRetry.mpr attempted))

theorem mayCall_sendChannels {channels : List Channel} :
    (sendChannels registry contract env tally channels).MayCall (.dispatch handed) ↔
      maxAttempts contract.retry ≠ 0 ∧
        ∃ ch ∈ channels, ch ∈ registry.dispatchers ∧ handed = env ch := by
  induction channels generalizing tally with
  | nil => exact ⟨False.elim, fun h => by simp at h⟩
  | cons ch channels ih =>
      rw [sendChannels, Program.mayCall_bind, mayCall_sendChannel]
      simp only [ih, List.exists_mem_cons_iff]
      obtain ⟨trace, first, run⟩ :=
        Program.exists_runs favourable (sendChannel registry contract env tally ch)
      constructor
      · rintro (⟨bound, attempted, same⟩ | ⟨-, -, -, attempted, later⟩)
        · exact ⟨attempted, .inl ⟨bound, same⟩⟩
        · exact ⟨attempted, .inr later⟩
      · rintro ⟨attempted, ⟨bound, same⟩ | later⟩
        · exact .inl ⟨bound, attempted, same⟩
        · exact .inr ⟨trace, first, run, attempted, later⟩

theorem not_mayCall_conclude {payload : Payload} :
    ¬ (conclude contract payload tally).MayCall (.dispatch handed) := by
  have published (names : List String) :
      ¬ (publishAll payload names).MayCall (.dispatch handed) := by
    induction names with
    | nil => exact id
    | cons name names ih =>
        rintro (same | ⟨_, may⟩)
        · cases same
        · exact ih may
  unfold conclude
  split
  · exact published contract.emits
  · split
    · exact id
    · exact id

theorem hands_iff {call : Call Payload} :
    call.Hands codec handed ↔ ∃ bytes tenant, call.Delivers codec bytes tenant ∧
      ∃ ch ∈ call.contract.channels, ch ∈ call.registry.dispatchers ∧
        handed = envelope codec call.contract call.payload bytes tenant ch := by
  unfold Call.Hands Call.program send
  cases marshalled : codec.marshal call.payload with
  | error message =>
      refine ⟨False.elim, ?_⟩
      rintro ⟨bytes, tenant, delivers, -⟩
      cases marshalled.symm.trans delivers.marshal
  | ok bytes =>
      have same {bytes' tenant : String} (delivers : call.Delivers codec bytes' tenant) :
          bytes' = bytes := Except.ok.inj (delivers.marshal.symm.trans marshalled)
      dsimp only
      split
      · rename_i unresolved
        refine ⟨False.elim, ?_⟩
        rintro ⟨bytes', tenant, delivers, -⟩
        exact delivers.recipient (same delivers ▸ unresolved)
      · rename_i recipient
        cases resolved : resolveTenant codec bytes call.contract with
        | none =>
            refine ⟨False.elim, ?_⟩
            rintro ⟨bytes', tenant, delivers, -⟩
            cases resolved.symm.trans (same delivers ▸ delivers.tenant)
        | some tenant =>
            dsimp only
            split
            · rename_i digest isDigest batched
              constructor
              · rintro (other | ⟨answer, may⟩)
                · cases other
                · dsimp only at may
                  split at may
                  · exact may.elim
                  · exact may.elim
              · rintro ⟨bytes', tenant', delivers, -⟩
                rcases delivers.direct with none | off
                · cases isDigest.symm.trans none
                · cases batched.symm.trans off
            · rename_i direct
              rw [Program.mayCall_bind, mayCall_sendChannels]
              constructor
              · rintro (⟨attempted, found⟩ | ⟨_, _, _, may⟩)
                · refine ⟨bytes, tenant, ⟨marshalled, recipient, resolved, ?_, attempted⟩, found⟩
                  cases isDigest : call.contract.digest with
                  | none => exact .inl rfl
                  | some digest =>
                      refine .inr (Bool.eq_false_iff.mpr fun batched => ?_)
                      exact direct digest isDigest batched
                · exact (not_mayCall_conclude may).elim
              · rintro ⟨bytes', tenant', delivers, found⟩
                obtain rfl := same delivers
                obtain rfl := Option.some.inj (resolved.symm.trans delivers.tenant)
                exact .inl ⟨delivers.attempts, found⟩

/-! ### The tenant -/

variable (codec) in
/-- Every envelope has the tenant that the payload has at the path, and without a value there the
call ends in that error. -/
def TenantFromPayload (call : Call Payload) : Prop :=
  ∀ spec bytes, call.contract.tenantFrom = some spec → codec.marshal call.payload = .ok bytes →
    (∀ env, call.Hands codec env → codec.getBytes bytes spec.path = some env.tenant) ∧
      (codec.getBytes bytes spec.path = none →
        ∀ trace r, (call.program codec).Runs trace r → r = .error .tenantUnresolved)

/-- The path of the tenant leads to a value, or else the recipient is known and the path has a dot
(or is empty). -/
def TenantFound (codec : Codec Payload) (call : Call Payload) : Prop :=
  ∀ spec bytes, call.contract.tenantFrom = some spec → codec.marshal call.payload = .ok bytes →
    codec.getBytes bytes spec.path = none →
      resolvePath codec bytes call.contract.recipient ≠ "" ∧
        (spec.path = "" ∨ '.' ∈ spec.path.toList)

theorem lastErr_sendChannel {ch : Channel} {trace : List (Program.Answered (@SendOp.Res Payload))}
    {next : Tally} (run : (sendChannel registry contract env tally ch).Runs trace next)
    (h : tally.lastErr ≠ some .tenantUnresolved) : next.lastErr ≠ some .tenantUnresolved := by
  unfold sendChannel at run
  split at run
  · obtain ⟨-, rfl⟩ := Program.runs_done.mp run
    simp
  · obtain ⟨_, verdict, _, -, -, run⟩ := Program.runs_bind.mp run
    cases verdict with
    | failed message =>
        obtain ⟨-, rfl⟩ := Program.runs_done.mp run
        simp
    | throttled =>
        obtain ⟨-, rfl⟩ := Program.runs_done.mp run
        exact h
    | go =>
        obtain ⟨_, answer, _, -, -, run⟩ := Program.runs_bind.mp run
        cases answer with
        | error err =>
            obtain ⟨-, rfl⟩ := Program.runs_done.mp run
            simp
        | ok _ =>
            obtain ⟨-, rfl⟩ := Program.runs_done.mp run
            exact h

theorem lastErr_sendChannels {channels : List Channel}
    {trace : List (Program.Answered (@SendOp.Res Payload))} {next : Tally}
    (run : (sendChannels registry contract env tally channels).Runs trace next)
    (h : tally.lastErr ≠ some .tenantUnresolved) : next.lastErr ≠ some .tenantUnresolved := by
  induction channels generalizing tally trace with
  | nil =>
      obtain ⟨-, rfl⟩ := Program.runs_done.mp run
      exact h
  | cons ch channels ih =>
      obtain ⟨_, between, _, -, first, later⟩ := Program.runs_bind.mp run
      exact ih later (lastErr_sendChannel first h)

theorem conclude_ne_tenantUnresolved {payload : Payload}
    {trace : List (Program.Answered (@SendOp.Res Payload))}
    (h : tally.lastErr ≠ some .tenantUnresolved) :
    ¬ (conclude contract payload tally).Runs trace (.error .tenantUnresolved) := by
  have published (names : List String)
      {trace : List (Program.Answered (@SendOp.Res Payload))} :
      ¬ (publishAll payload names).Runs trace (.error .tenantUnresolved) := by
    induction names generalizing trace with
    | nil => simp [publishAll]
    | cons name names ih =>
        intro run
        obtain ⟨_, later, -, run⟩ := Program.runs_call.mp run
        exact ih run
  unfold conclude
  split
  · exact published contract.emits
  · split
    · simp
    · cases lastErr : tally.lastErr with
      | none => simp
      | some err =>
          rw [lastErr] at h
          have other : err ≠ .tenantUnresolved := by simpa using h
          simp [Ne.symm other]

/-- That error is the answer only where a recipient has no tenant. -/
theorem runs_tenantUnresolved {call : Call Payload}
    {trace : List (Program.Answered (@SendOp.Res Payload))} {bytes : String}
    (marshalled : codec.marshal call.payload = .ok bytes)
    (run : (call.program codec).Runs trace (.error .tenantUnresolved)) :
    resolvePath codec bytes call.contract.recipient ≠ "" ∧
      resolveTenant codec bytes call.contract = none := by
  unfold Call.program send at run
  rw [marshalled] at run
  dsimp only at run
  split at run
  · simp at run
  · rename_i recipient
    refine ⟨recipient, ?_⟩
    cases resolved : resolveTenant codec bytes call.contract with
    | none => rfl
    | some tenant =>
        rw [resolved] at run
        dsimp only at run
        split at run
        · obtain ⟨answer, _, -, run⟩ := Program.runs_call.mp run
          split at run
          · simp at run
          · simp at run
        · obtain ⟨_, tally, _, -, first, last⟩ := Program.runs_bind.mp run
          exact (conclude_ne_tenantUnresolved (lastErr_sendChannels first (by simp)) last).elim

/-- Without a tenant the call ends before anything is done. -/
theorem program_eq_tenantUnresolved {call : Call Payload} {bytes : String}
    (marshalled : codec.marshal call.payload = .ok bytes)
    (recipient : resolvePath codec bytes call.contract.recipient ≠ "")
    (unresolved : resolveTenant codec bytes call.contract = none) :
    call.program codec = .done (.error .tenantUnresolved) := by
  unfold Call.program send
  rw [marshalled]
  simp [recipient, unresolved]

theorem resolvePath_eq_empty_iff {bytes path : String} :
    resolvePath codec bytes path = "" ↔
      path = "" ∨ codec.getBytes bytes path = some "" ∨
        codec.getBytes bytes path = none ∧ '.' ∈ path.toList := by
  unfold resolvePath
  split
  · simp [*]
  · rename_i nonempty
    cases found : codec.getBytes bytes path with
    | some value => simp [nonempty]
    | none => simp [nonempty]

theorem resolvePath_of_getBytes {bytes path value : String} (nonempty : path ≠ "")
    (found : codec.getBytes bytes path = some value) : resolvePath codec bytes path = value := by
  simp [resolvePath, nonempty, found]

theorem tenantFromPayload_iff {call : Call Payload} :
    TenantFromPayload codec call ↔ TenantFound codec call := by
  refine forall_congr' fun spec => forall_congr' fun bytes => ?_
  refine imp_congr_right fun declared => imp_congr_right fun marshalled => ?_
  have unresolved : resolveTenant codec bytes call.contract = none ↔
      resolvePath codec bytes spec.path = "" := by
    simp [resolveTenant, declared]
  constructor
  · rintro ⟨-, missing⟩ none
    obtain ⟨trace, r, run⟩ := Program.exists_runs favourable (call.program codec)
    obtain rfl := missing none trace r run
    obtain ⟨recipient, tenant⟩ := runs_tenantUnresolved marshalled run
    refine ⟨recipient, ?_⟩
    rcases resolvePath_eq_empty_iff.mp (unresolved.mp tenant) with empty | empty | ⟨-, dotted⟩
    · exact .inl empty
    · cases none.symm.trans empty
    · exact .inr dotted
  · intro found
    constructor
    · intro env hands
      obtain ⟨bytes', tenant, delivers, ch, -, -, rfl⟩ := hands_iff.mp hands
      obtain rfl := Except.ok.inj (delivers.marshal.symm.trans marshalled)
      have resolves : resolvePath codec bytes' spec.path ≠ "" ∧
          resolvePath codec bytes' spec.path = tenant := by
        simpa [resolveTenant, declared] using delivers.tenant
      obtain ⟨nonempty, rfl⟩ := resolves
      have path : spec.path ≠ "" := fun empty => nonempty (by simp [resolvePath, empty])
      cases value : codec.getBytes bytes' spec.path with
      | some tenant => exact congrArg some (resolvePath_of_getBytes path value).symm
      | none =>
          refine absurd (resolvePath_eq_empty_iff.mpr ?_) nonempty
          exact (found value).2.imp id fun dotted => .inr ⟨value, dotted⟩
    · intro none trace r run
      obtain ⟨recipient, unliteral⟩ := found none
      have empty := resolvePath_eq_empty_iff.mpr
        (unliteral.imp id fun dotted => Or.inr ⟨none, dotted⟩)
      rw [program_eq_tenantUnresolved marshalled recipient (unresolved.mpr empty)] at run
      exact (Program.runs_done.mp run).2

/-! ### The identity -/

/-- What the payload has at the path of the declared key. An empty path leads nowhere. -/
def idempotencyValue (codec : Codec Payload) (bytes : String) (contract : NotificationContract) :
    Option String :=
  contract.idempotency.bind fun spec =>
    if spec.path = "" then none else codec.getBytes bytes spec.path

def SameNotification (contract contract' : NotificationContract) : Prop :=
  contract.feature = contract'.feature ∧ contract.name = contract'.name

/-- One notification, with equal values of the declared key or equal payloads. -/
def SharedFairly (codec : Codec Payload) (contract contract' : NotificationContract)
    (bytes bytes' : String) : Prop :=
  SameNotification contract contract' ∧
    ((∃ value, idempotencyValue codec bytes contract = some value ∧
      idempotencyValue codec bytes' contract' = some value) ∨ bytes = bytes')

/-- Envelopes of the two calls share an identity only fairly. -/
def Distinguished (codec : Codec Payload) (call call' : Call Payload) : Prop :=
  ∀ bytes bytes', codec.marshal call.payload = .ok bytes →
    codec.marshal call'.payload = .ok bytes' →
      ∀ env env', call.Hands codec env → call'.Hands codec env' → env.id = env'.id →
        SharedFairly codec call.contract call'.contract bytes bytes'

/-- Whether keys are declared by both calls, by one or by neither, and what must then tell them
apart. -/
def KeysApart (codec : Codec Payload) (contract contract' : NotificationContract)
    (bytes bytes' : String) : Prop :=
  match declaredKey codec bytes contract, declaredKey codec bytes' contract' with
  | some key, some key' =>
      key = key' → SameNotification contract contract' ∧
        (bytes = bytes' ∨ (idempotencyValue codec bytes contract).isSome ∧
          (idempotencyValue codec bytes' contract').isSome)
  | some key, none =>
      key = encodeToString (codec.sha256 (contentText bytes' contract')) →
        SameNotification contract contract' ∧ bytes = bytes'
  | none, some key' =>
      encodeToString (codec.sha256 (contentText bytes contract)) = key' →
        SameNotification contract contract' ∧ bytes = bytes'
  | none, none =>
      contentText bytes contract = contentText bytes' contract' →
        SameNotification contract contract'

section Keys

variable {contract contract' : NotificationContract} {bytes bytes' key : String}

theorem declaredKey_eq_of_value {value : String}
    (h : idempotencyValue codec bytes contract = some value) :
    declaredKey codec bytes contract = if value = "" then none else some value := by
  unfold idempotencyValue at h
  unfold declaredKey
  cases spec : contract.idempotency with
  | none => simp [spec] at h
  | some spec' =>
      rw [spec, Option.bind_some] at h
      split at h
      · cases h
      · rename_i path
        simp [resolvePath_of_getBytes path h]

theorem declaredKey_ne_empty (declared : declaredKey codec bytes contract = some key) :
    key ≠ "" := by
  unfold declaredKey at declared
  rw [Option.bind_eq_some_iff] at declared
  obtain ⟨spec, -, declared⟩ := declared
  dsimp only at declared
  split at declared
  · cases declared
  · rename_i nonempty
    exact Option.some.inj declared ▸ nonempty

/-- A declared key is the value at its path, if there is one. -/
theorem declaredKey_of_value {value : String}
    (h : idempotencyValue codec bytes contract = some value)
    (declared : declaredKey codec bytes contract = some key) : value = key := by
  rw [declaredKey_eq_of_value h] at declared
  split at declared
  · cases declared
  · exact Option.some.inj declared

theorem value_of_undeclared {value : String}
    (h : idempotencyValue codec bytes contract = some value)
    (undeclared : declaredKey codec bytes contract = none) : value = "" := by
  rw [declaredKey_eq_of_value h] at undeclared
  split at undeclared
  · assumption
  · cases undeclared

/-- A key that only one of two calls declares is no value of the other. -/
theorem not_shared (declared : declaredKey codec bytes contract = some key)
    (undeclared : declaredKey codec bytes' contract' = none) :
    ¬ ∃ value, idempotencyValue codec bytes contract = some value ∧
      idempotencyValue codec bytes' contract' = some value := by
  rintro ⟨value, h, h'⟩
  have empty := value_of_undeclared h' undeclared
  exact declaredKey_ne_empty declared ((declaredKey_of_value h declared).symm.trans empty)

theorem contentText_inj (same : SameNotification contract contract')
    (h : contentText bytes contract = contentText bytes' contract') : bytes = bytes' := by
  unfold contentText at h
  rw [same.1, same.2] at h
  simpa using h

theorem sharedFairly_iff_of_declared {key' : String} (same : key = key')
    (declared : declaredKey codec bytes contract = some key)
    (declared' : declaredKey codec bytes' contract' = some key') :
    SharedFairly codec contract contract' bytes bytes' ↔
      SameNotification contract contract' ∧
        (bytes = bytes' ∨ (idempotencyValue codec bytes contract).isSome ∧
          (idempotencyValue codec bytes' contract').isSome) := by
  refine and_congr_right fun _ => or_comm.trans (or_congr_right ?_)
  constructor
  · rintro ⟨value, h, h'⟩
    exact ⟨Option.isSome_iff_exists.mpr ⟨value, h⟩, Option.isSome_iff_exists.mpr ⟨value, h'⟩⟩
  · rintro ⟨h, h'⟩
    obtain ⟨value, h⟩ := Option.isSome_iff_exists.mp h
    obtain ⟨value', h'⟩ := Option.isSome_iff_exists.mp h'
    obtain rfl := declaredKey_of_value h declared
    obtain rfl := declaredKey_of_value h' declared'
    exact ⟨value, h, same ▸ h'⟩

theorem sharedFairly_iff_of_unshared
    (unshared : ¬ ∃ value, idempotencyValue codec bytes contract = some value ∧
      idempotencyValue codec bytes' contract' = some value) :
    SharedFairly codec contract contract' bytes bytes' ↔
      SameNotification contract contract' ∧ bytes = bytes' :=
  and_congr_right fun _ => or_iff_right unshared

theorem keysApart_iff (injective : Function.Injective codec.sha256) :
    KeysApart codec contract contract' bytes bytes' ↔
      (resolveIdempotencyKey codec bytes contract = resolveIdempotencyKey codec bytes' contract' →
        SharedFairly codec contract contract' bytes bytes') := by
  unfold KeysApart resolveIdempotencyKey
  cases declared : declaredKey codec bytes contract with
  | some key =>
      cases declared' : declaredKey codec bytes' contract' with
      | some key' =>
          refine imp_congr_right fun same => ?_
          exact (sharedFairly_iff_of_declared same declared declared').symm
      | none =>
          refine imp_congr_right fun _ => ?_
          exact (sharedFairly_iff_of_unshared (not_shared declared declared')).symm
  | none =>
      cases declared' : declaredKey codec bytes' contract' with
      | some key' =>
          refine imp_congr_right fun _ => ?_
          refine (sharedFairly_iff_of_unshared fun ⟨value, h, h'⟩ => ?_).symm
          exact not_shared declared' declared ⟨value, h', h⟩
      | none =>
          dsimp only
          rw [encodeToString_injective.eq_iff, injective.eq_iff]
          refine imp_congr_right fun same => ?_
          exact ⟨fun h => ⟨h, .inr (contentText_inj h same)⟩, And.left⟩

end Keys

/-- Whenever both calls get to an adapter, something tells their identities apart. -/
def IdentitiesApart (codec : Codec Payload) (call call' : Call Payload) : Prop :=
  ∀ bytes tenant bytes' tenant', call.Delivers codec bytes tenant →
    call'.Delivers codec bytes' tenant' → call.HasChannel → call'.HasChannel →
      KeysApart codec call.contract call'.contract bytes bytes'

theorem distinguished_iff (injective : Function.Injective codec.sha256) {call call' : Call Payload} :
    Distinguished codec call call' ↔ IdentitiesApart codec call call' := by
  constructor
  · intro fair bytes tenant bytes' tenant' delivers delivers' ⟨ch, mem, bound⟩ ⟨ch', mem', bound'⟩
    refine (keysApart_iff injective).mpr fun same => ?_
    exact fair bytes bytes' delivers.marshal delivers'.marshal
      (envelope codec call.contract call.payload bytes tenant ch)
      (envelope codec call'.contract call'.payload bytes' tenant' ch')
      (hands_iff.mpr ⟨bytes, tenant, delivers, ch, mem, bound, rfl⟩)
      (hands_iff.mpr ⟨bytes', tenant', delivers', ch', mem', bound', rfl⟩) same
  · intro apart bytes bytes' marshalled marshalled' env env' hands hands' same
    obtain ⟨own, tenant, delivers, ch, mem, bound, rfl⟩ := hands_iff.mp hands
    obtain ⟨own', tenant', delivers', ch', mem', bound', rfl⟩ := hands_iff.mp hands'
    obtain rfl := Except.ok.inj (marshalled.symm.trans delivers.marshal)
    obtain rfl := Except.ok.inj (marshalled'.symm.trans delivers'.marshal)
    have keys := apart bytes tenant bytes' tenant' delivers delivers' ⟨ch, mem, bound⟩
      ⟨ch', mem', bound'⟩
    exact (keysApart_iff injective).mp keys same

variable (codec) in
/-- Tenant and identity come from the payload exactly where no path stands for itself and no key is
shared by accident. -/
theorem fromPayload_iff (injective : Function.Injective codec.sha256) (call call' : Call Payload) :
    TenantFromPayload codec call ∧ Distinguished codec call call' ↔
      TenantFound codec call ∧ IdentitiesApart codec call call' :=
  and_congr tenantFromPayload_iff (distinguished_iff injective)

end Calls

/-! ### A greeting -/

def greetingText : String := "\x7b\"target\":\"alice\"\x7d"

/-- The payload is the text itself, and its own hash. -/
def greetingCodec : Codec String where
  marshal := .ok
  getBytes payload path := if payload = greetingText ∧ path = "target" then some "alice" else none
  sha256 text := text.toByteArray.data.toList

theorem greetingCodec_injective : Function.Injective greetingCodec.sha256 := by
  intro text text' h
  exact String.toByteArray_inj.mp (ByteArray.ext (Array.toList_inj.mp h))

def greeting : Call String where
  registry := ⟨[.email], false, false⟩
  contract :=
    { feature := "outreach", name := "greeting", channels := [.email], recipient := "target"
      tenantFrom := some ⟨"target"⟩, idempotency := some ⟨"target"⟩ }
  payload := greetingText

theorem fromPayload_iff_greeting :
    TenantFromPayload greetingCodec greeting ∧ Distinguished greetingCodec greeting greeting := by
  refine (fromPayload_iff greetingCodec greetingCodec_injective greeting greeting).mpr ⟨?_, ?_⟩
  · rintro spec bytes ⟨rfl⟩ ⟨rfl⟩ none
    cases none
  · rintro bytes tenant bytes' tenant' delivers delivers' - -
    obtain rfl : greetingText = bytes := Except.ok.inj delivers.marshal
    obtain rfl : greetingText = bytes' := Except.ok.inj delivers'.marshal
    exact fun _ => ⟨⟨rfl, rfl⟩, .inl rfl⟩

/-- A path to a tenant that the payload does not have. -/
def misaddressed : Call String :=
  { greeting with contract := { greeting.contract with tenantFrom := some ⟨"org"⟩ } }

theorem path_taken_for_tenant :
    ¬ ∀ (codec : Codec String) (call call' : Call String), Function.Injective codec.sha256 →
      TenantFromPayload codec call ∧ Distinguished codec call call' := by
  intro claim
  obtain ⟨tenant, -⟩ := claim greetingCodec misaddressed greeting greetingCodec_injective
  have found := tenantFromPayload_iff.mp tenant ⟨"org"⟩ greetingText rfl rfl rfl
  revert found
  decide

end Lazuli.Notifications
