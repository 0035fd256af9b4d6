import Lazuli.Runtime.Effect

/-!
Commands: their effects, and the transaction in which an effect runs
(`runtime/go/lazuli/command.go`, `effect.go`, `db.go`, `handle.go`).

A `Tx` threads the database through the statements of one attempt and counts them. Any
statement may fail, also BEGIN and COMMIT; `Faults` says which. A failed attempt leaves the
database as it was, and `withTx` tries again when Postgres asks for it.
-/

namespace Lazuli.Runtime

/-! ### Effects -/

structure OwnerCheckSpec where
  fkColumn : Ident
  relatedTable : Ident
  throughColumn : Ident

structure CreatesEffect where
  resource : Resource
  binds : Bindings
  ownerCheck : Option OwnerCheckSpec

/-- A field of the Go struct that a command returns. -/
structure OutputField where
  name : String
  exported : Bool
  db : String
  json : String
  deriving DecidableEq

/-- The Go type that a command returns, behind its pointers. -/
inductive OutputType where
  | struct (fields : List OutputField)
  | other
  deriving DecidableEq

/-- What a command returns: the values of its fields. -/
abbrev Output := String → Value

structure ReturnsEffect where
  handler : Option (Ctx → Slot → Except Error Output)

inductive Effect where
  | creates (eff : CreatesEffect)
  | updates (eff : UpdatesEffect)
  | deletes (eff : DeletesEffect)
  | returns (eff : ReturnsEffect)
  | reorder (eff : ReorderEffect)

/-! ### Events and audit -/

inductive EventDeriveFrom where
  | explicit
  | creates
  | updates
  | deletes
  deriving DecidableEq

inductive OutboxMode where
  | none
  | guaranteed
  deriving DecidableEq

structure EventEmit where
  name : String
  origin : EventDeriveFrom
  bind : List (String × Source)
  outbox : OutboxMode

structure EventTraceEmit where
  name : String
  bind : List (String × Source)

abbrev Payload := List (String × Value)

structure Event where
  name : String
  trace : Bool
  tenant : Option Tenant
  actor : Actor
  userID : Option Int
  payload : Payload
  occurredAt : Option Int
  deriving DecidableEq

structure AuditSpec where
  materializeTable : String
  deriving DecidableEq

structure AuditRecord where
  orgID : Option Int
  actorID : Option Int
  actorKind : String
  commandName : String
  resultStatus : String
  deriving DecidableEq

structure OutboxRow where
  eventName : String
  payload : Payload
  deriving DecidableEq

/-! ### Commands -/

/-- `checks` are the steps before the effect: policy, rate limit, input tags, validators.
`scan` reads a row into the output type and decrypts it. -/
structure Command where
  name : String
  checks : Ctx → Slot → Except Error Unit
  effect : Option Effect
  transitions : List TransitionAdvance
  lifecycleColumn : Option Ident
  emits : List EventEmit
  emitsTrace : List EventTraceEmit
  audit : Option AuditSpec
  invalidates : List String
  outputType : OutputType
  zero : Output
  scan : Row → Except Error Output

/-! ### The database -/

structure Db where
  tables : Ident → List Row
  outbox : List OutboxRow
  audit : String → List AuditRecord

/-- What a command runs in. `fresh` is the row that an INSERT makes of its columns, with the
defaults of the table; `encodes` says which payloads are JSON. -/
structure Env where
  hooks : Hooks
  engine : Engine
  fresh : List Row → List (Ident × Value) → Row
  encodes : Payload → Bool
  defaultTenant : Ctx → Except Error (Option Tenant)

/-- A failure of a transaction, and whether Postgres asks for another attempt. -/
structure TxError where
  failure : Failure
  retryable : Bool

/-- The statements of an attempt that fail. -/
abbrev Faults := Nat → Option TxError

structure TxState where
  db : Db
  next : Nat

abbrev Tx := StateT TxState (Except TxError)

def Tx.lift {α : Type} (x : Except Failure α) : Tx α := fun s =>
  match x with
  | .ok a => .ok (a, s)
  | .error e => .error ⟨e, false⟩

/-- One statement. -/
def Tx.statement {α : Type} (faults : Faults) (f : Db → Except Failure (α × Db)) : Tx α := fun s =>
  match faults s.next with
  | some e => .error e
  | none =>
      match f s.db with
      | .ok (a, db) => .ok (a, ⟨db, s.next + 1⟩)
      | .error e => .error ⟨e, false⟩

section TxLemmas

variable {α β : Type} {s t : TxState} {a : α} {b : β}

theorem Tx.bind_eq_ok {x : Tx α} {f : α → Tx β} :
    (x >>= f) s = .ok (b, t) ↔ ∃ a u, x s = .ok (a, u) ∧ f a u = .ok (b, t) := by
  show (x s >>= fun p => f p.1 p.2) = .ok (b, t) ↔ _
  rw [Lazuli.Runtime.bind_eq_ok]
  constructor
  · rintro ⟨⟨a, u⟩, hx, hf⟩
    exact ⟨a, u, hx, hf⟩
  · rintro ⟨a, u, hx, hf⟩
    exact ⟨(a, u), hx, hf⟩

theorem Tx.pure_eq_ok {a' : α} : (pure a : Tx α) s = .ok (a', t) ↔ a = a' ∧ s = t := by
  constructor
  · intro h
    cases h
    exact ⟨rfl, rfl⟩
  · rintro ⟨rfl, rfl⟩
    rfl

theorem Tx.lift_eq_ok {x : Except Failure α} : Tx.lift x s = .ok (a, t) ↔ x = .ok a ∧ t = s := by
  unfold Tx.lift
  cases x with
  | error e =>
      constructor
      · intro h
        cases h
      · rintro ⟨h, -⟩
        cases h
  | ok a' =>
      constructor
      · intro h
        cases h
        exact ⟨rfl, rfl⟩
      · rintro ⟨h, rfl⟩
        cases h
        rfl

theorem Tx.statement_eq_ok {faults : Faults} {f : Db → Except Failure (α × Db)} :
    Tx.statement faults f s = .ok (a, t) ↔
      faults s.next = none ∧ f s.db = .ok (a, t.db) ∧ t.next = s.next + 1 := by
  unfold Tx.statement
  cases faults s.next with
  | some e => simp
  | none =>
      cases hf : f s.db with
      | error e => simp
      | ok res =>
          obtain ⟨a', db⟩ := res
          obtain ⟨db', next⟩ := t
          simp only [true_and]
          constructor
          · intro h
            cases h
            exact ⟨rfl, rfl⟩
          · rintro ⟨h, rfl⟩
            cases h
            rfl

end TxLemmas

/-- A statement that changes nothing. -/
def Tx.control (faults : Faults) : Tx Unit := Tx.statement faults fun db => .ok ((), db)

def runTxAttempt {α : Type} (faults : Faults) (body : Tx α) (db : Db) : Except TxError (α × Db) :=
  let attempt : Tx α := do
    Tx.control faults
    let a ← body
    Tx.control faults
    pure a
  match attempt ⟨db, 0⟩ with
  | .ok (a, s) => .ok (a, s.db)
  | .error e => .error e

/-- An attempt that commits is a run of its body. -/
theorem runTxAttempt_ok {α : Type} {faults : Faults} {body : Tx α} {db db' : Db} {a : α}
    (h : runTxAttempt faults body db = .ok (a, db')) :
    ∃ s, body ⟨db, 1⟩ = .ok (a, s) ∧ s.db = db' := by
  unfold runTxAttempt at h
  dsimp only at h
  split at h
  next a' s hattempt =>
    cases h
    obtain ⟨_, begun, hbegin, hattempt⟩ := Tx.bind_eq_ok.mp hattempt
    obtain ⟨a', done, hbody, hattempt⟩ := Tx.bind_eq_ok.mp hattempt
    obtain ⟨_, committed, hcommit, hattempt⟩ := Tx.bind_eq_ok.mp hattempt
    obtain ⟨rfl, rfl⟩ := Tx.pure_eq_ok.mp hattempt
    obtain ⟨-, hdb, hnext⟩ := Tx.statement_eq_ok.mp hbegin
    obtain ⟨-, hdb', -⟩ := Tx.statement_eq_ok.mp hcommit
    obtain ⟨begunDb, begunNext⟩ := begun
    cases hdb
    cases hnext
    exact ⟨done, hbody, congrArg Prod.snd (Except.ok.inj hdb')⟩
  · cases h

/-- The attempts from number `attempt` on, `left` of them; `cancelled` is a context that ends
while the runtime waits. -/
def withTxFrom {α : Type} (faults : Nat → Faults) (cancelled : Nat → Option Failure)
    (body : Faults → Tx α) (db : Db) (attempt : Nat) : Nat → Except Failure (α × Db)
  | 0 => .error .panic
  | left + 1 =>
      match runTxAttempt (faults attempt) (body (faults attempt)) db with
      | .ok res => .ok res
      | .error e =>
          if !e.retryable || left = 0 then .error e.failure
          else
            match cancelled attempt with
            | some failure => .error failure
            | none => withTxFrom faults cancelled body db (attempt + 1) left

def maxAttempts : Nat := 3

def withTx {α : Type} (faults : Nat → Faults) (cancelled : Nat → Option Failure)
    (body : Faults → Tx α) (db : Db) : Except Failure (α × Db) :=
  withTxFrom faults cancelled body db 0 maxAttempts

/-- A transaction that succeeds is one attempt from the database it found. -/
theorem withTx_ok {α : Type} {faults : Nat → Faults} {cancelled : Nat → Option Failure}
    {body : Faults → Tx α} {db : Db} {res : α × Db} (h : withTx faults cancelled body db = .ok res) :
    ∃ attempt, runTxAttempt (faults attempt) (body (faults attempt)) db = .ok res := by
  unfold withTx at h
  generalize (0 : Nat) = attempt at h
  generalize maxAttempts = left at h
  induction left generalizing attempt with
  | zero => cases h
  | succ left ih =>
      unfold withTxFrom at h
      split at h
      next res' hattempt =>
        obtain rfl := Except.ok.inj h
        exact ⟨attempt, hattempt⟩
      · split at h
        · cases h
        · split at h
          · cases h
          · exact ih (attempt + 1) h

end Lazuli.Runtime
