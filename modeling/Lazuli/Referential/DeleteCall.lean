import Lazuli.Codegen.Wrapper
import Lazuli.Runtime.Handle

/-!
Calls that remove rows, beside each other and beside foreign transactions
(`emitter/referential_guard.rs`, `runtime/go/lazuli/handle.go`, `db.go`).

A call runs the `Handle<Command>` function of its command. A probe of a guard is a statement of
its own. The effect opens a transaction afterwards, sends its statement and commits; Postgres
may ask for another attempt, which does not probe again. Transactions are read committed: what
one has changed the others see when it has committed, and the rows that it has taken no other
can change before.
-/

namespace Lazuli.Referential

open Lazuli.Codegen Lazuli.General Lazuli.Ir Lazuli.Runtime

/-! ### Tables -/

/-- A row, and the place where it stays when it is written. -/
structure Entry where
  place : Nat
  row : Row

structure Table where
  columns : List String
  entries : List Entry

abbrev Tables := String → Option Table

def Tables.rows (tables : Tables) (name : String) : List Entry :=
  match tables name with
  | none => []
  | some table => table.entries

/-- What becomes of a row that the statement has taken: nothing when it is deleted. -/
def outcome (engine : Engine) (plan : Plan) (row : Row) : Option Row :=
  match plan.stmt with
  | .delete _ _ => none
  | .update _ sets _ _ => some (sets.foldl (Assign.apply engine plan.values) row)
  | _ => some row

/-- What a statement of an open transaction has changed. -/
structure Change where
  table : String
  places : List Nat
  plan : Plan

namespace Change

variable (engine : Engine) (c : Change)

def after (x : Entry) : Option Entry :=
  if x.place ∈ c.places then (outcome engine c.plan x.row).map fun row => ⟨x.place, row⟩
  else some x

def apply (tables : Tables) : Tables := fun name =>
  if name = c.table then
    (tables name).map fun table => { table with entries := table.entries.filterMap (c.after engine) }
  else tables name

def Takes (name : String) (x : Entry) : Prop := name = c.table ∧ x.place ∈ c.places

/-- The row is deleted, or no longer without a time of deletion. -/
def Removes (x : Entry) : Prop :=
  x.place ∈ c.places ∧ ∀ row, outcome engine c.plan x.row = some row →
    x.row "deleted_at" = .nil ∧ row "deleted_at" ≠ .nil

end Change

/-! ### Guards -/

/-- The tenant of the caller; 0 without one. -/
def TenantOrgID (ctx : Option Ctx) : Int :=
  match ctx.bind Ctx.tenant with
  | some tenant => tenant.orgID
  | none => 0

/-- An argument as it is bound. -/
def bound : Slot → Value
  | .direct v | .pointer v => v
  | .nilPointer => .nil

structure Postgres where
  engine : Engine
  /-- Is the lowered `where` of a guard true of the row? -/
  meets : EvalPredicate → Row → Bool

section Guard

variable (pg : Postgres) (guard : RestrictOnDelete)

/-- The columns that the query names itself. -/
def guardColumns : List String :=
  guard.fk :: ((if guard.tenantScoped then ["tenant_id"] else []) ++
    if guard.softDelete then ["deleted_at"] else [])

/-- The condition of the query, `$1` the id and `$2` the tenant. -/
def finds (tenantID : Int) (id : Value) (row : Row) : Bool :=
  sqlEq (row guard.fk) id && (!guard.tenantScoped || sqlEq (row "tenant_id") (.int tenantID)) &&
    (!guard.softDelete || row "deleted_at" = .nil) && guard.extraWhere.all fun p => pg.meets p row

def CodeReferencedInUse : String := "referenced_in_use"

def NewReferencedInUseError (code : String) : Error :=
  let code := if code = "" then CodeReferencedInUse else code
  { status := 409, code := code, message := "resource is referenced and cannot be deleted"
    messageKey := code }

def ErrReferencedInUse : Error := NewReferencedInUseError CodeReferencedInUse

def guardError : Error :=
  match guard.errorCode with
  | some code => NewReferencedInUseError code
  | none => ErrReferencedInUse

end Guard

def undefinedTable : Failure := .error (internalServerError "undefined_table")
def undefinedColumn : Failure := .error (internalServerError "undefined_column")
def lockNotAvailable : Failure := .error (internalServerError "lock_not_available")

/-! ### Operations -/

/-- `ask` is an operation of the wrapper that has nothing to do with the tables. `started` stands
for BEGIN and what a transaction does before its effect, `finished` for what it does after it. -/
inductive Op where
  | ask (op : WrapperOp)
  | probe (guard : RestrictOnDelete) (tenantID : Int) (id : Slot)
  | sleep
  | started (call : Nat)
  | send (call : Nat) (plan : Plan)
  | finished (call : Nat)
  | commit (call : Nat)
  | rollback (call : Nat)

@[reducible] def Op.Res : Op → Type
  | .ask _ | .probe .. | .sleep => Except Failure Unit
  | .started _ | .finished _ | .commit _ => Except TxError Unit
  | .send .. => Except TxError (List Row)
  | .rollback _ => Unit

/-! ### Calls -/

/-- A command that removes rows of a resource, its value, and what it is called with. -/
structure Call where
  feature : Feature
  command : Ir.Command
  resource : Ir.Resource
  value : Runtime.Command
  ctx : Ctx
  input : Slot

/-- The queries that the wrapper makes. -/
def Call.probes (c : Call) : List (RestrictOnDelete × Slot) :=
  (wiredGuards c.feature c.command).map fun g => (g.1, structField c.input g.2)

/-- The effects that can remove rows. -/
def removalPlan (hooks : Hooks) (ctx : Ctx) (input : Slot) : Option Effect → Except Failure Plan
  | some (.deletes eff) => applyDeletes hooks (some ctx) input eff
  | some (.updates eff) => applyUpdates hooks (some ctx) input eff
  | _ => fail noEffect

def missing : Option Effect → Error
  | some (.deletes _) => noDeleteRow
  | _ => noUpdateRow

section Transaction

variable (hooks : Hooks) (c : Call) (call : Nat)

abbrev Attempt := Program Op.Res (Except TxError Output)

/-- The deferred rollback. -/
def abort (e : TxError) : Attempt := .call (.rollback call) fun _ => .done (.error e)

def runTxAttempt : Attempt :=
  .call (.started call) fun
    | .error e => abort call e
    | .ok () =>
        match removalPlan hooks c.ctx c.input c.value.effect with
        | .error e => abort call ⟨e, false⟩
        | .ok plan =>
            .call (.send call plan) fun
              | .error e => abort call e
              | .ok rows =>
                  match scanFirst c.value (missing c.value.effect) rows with
                  | .error e => abort call ⟨e, false⟩
                  | .ok out =>
                      .call (.finished call) fun
                        | .error e => abort call e
                        | .ok () =>
                            .call (.commit call) fun
                              | .error e => .done (.error e)
                              | .ok () => .done (.ok out)

/-- `left` attempts. -/
def withTx : Nat → Program Op.Res (Except Failure Output)
  | 0 => .done (.error .panic)
  | left + 1 =>
      (runTxAttempt hooks c call).bind fun
        | .ok out => .done (.ok out)
        | .error e =>
            if !e.retryable || left = 0 then .done (.error e.failure)
            else
              .call .sleep fun
                | .error cancelled => .done (.error cancelled)
                | .ok () => withTx left

/-- The wrapper's operations. -/
def carryOut : (op : WrapperOp) → Program Op.Res (op.Res Failure Output)
  | .check (.probe guard id) =>
      .call (.probe guard (TenantOrgID (some c.ctx)) id) fun r => .done r
  | .check check => .call (.ask (.check check)) fun r => .done r
  | .checks input => .call (.ask (.checks input)) fun r => .done r
  | .effect _ => withTx hooks c call maxAttempts
  | .incrQuota limit => .call (.ask (.incrQuota limit)) fun r => .done r

def Call.program : Program Op.Res (Except (Refusal Failure) Output) :=
  (commandHandlerWrapper c.feature c.command c.input).expand (carryOut hooks c call)

end Transaction

/-! ### The database -/

structure OpenTx where
  call : Nat
  change : Change

/-- The tables as they are committed, and the changes of the open transactions. -/
structure Store where
  tables : Tables
  opened : List OpenTx

namespace Store

def change (s : Store) (call : Nat) : Option Change :=
  (s.opened.find? fun t => t.call = call).map OpenTx.change

def close (s : Store) (call : Nat) : Store :=
  { s with opened := s.opened.filter fun t => t.call ≠ call }

def begin (s : Store) (call : Nat) (c : Change) : Store :=
  { s with opened := ⟨call, c⟩ :: (s.close call).opened }

/-- Has another transaction taken the row? -/
def locked (s : Store) (call : Option Nat) (table : String) (place : Nat) : Bool :=
  s.opened.any fun t => some t.call ≠ call && t.change.table = table && place ∈ t.change.places

/-- The rows that a statement would take. -/
def taking (pg : Postgres) (s : Store) (plan : Plan) : Change where
  table := (tableOf plan.stmt.table).text
  places := ((s.tables.rows (tableOf plan.stmt.table).text).filter fun x =>
    plan.touches pg.engine.server x.row).map Entry.place
  plan := plan

def query (pg : Postgres) (s : Store) (guard : RestrictOnDelete) (tenantID : Int) (id : Slot) :
    Except Failure Unit :=
  match s.tables guard.relation with
  | none => .error undefinedTable
  | some table =>
      if (guardColumns guard).any fun col => col ∉ table.columns then .error undefinedColumn
      else if table.entries.any fun x => finds pg guard tenantID (bound id) x.row then
        fail (guardError guard)
      else .ok ()

/-- A statement that reads takes no rows. One that meets a row that is taken has waited in
vain. -/
def send (pg : Postgres) (s : Store) (call : Nat) (plan : Plan) :
    Store × Except TxError (List Row) :=
  match s.tables (tableOf plan.stmt.table).text with
  | none => (s, .error ⟨undefinedTable, false⟩)
  | some table =>
      let found := plan.returned pg.engine (table.entries.map Entry.row)
      match plan.stmt with
      | .select .. => (s, .ok found)
      | _ =>
          let c := s.taking pg plan
          if c.places.any (s.locked (some call) c.table) then (s, .error ⟨lockNotAvailable, false⟩)
          else (s.begin call c, .ok found)

def commit (pg : Postgres) (s : Store) (call : Nat) : Store :=
  match s.change call with
  | none => s
  | some c => { s.close call with tables := c.apply pg.engine s.tables }

/-- Any operation may fail. -/
def exec (pg : Postgres) : (op : Op) → Option TxError → Store → Store × op.Res
  | .ask _, some e, s | .sleep, some e, s => (s, .error e.failure)
  | .ask _, none, s | .sleep, none, s => (s, .ok ())
  | .probe _ _ _, some e, s => (s, .error e.failure)
  | .probe guard tenantID id, none, s => (s, s.query pg guard tenantID id)
  | .started _, some e, s | .finished _, some e, s => (s, .error e)
  | .started _, none, s | .finished _, none, s => (s, .ok ())
  | .send _ _, some e, s => (s, .error e)
  | .send call plan, none, s => s.send pg call plan
  | .commit call, some e, s => (s.close call, .error e)
  | .commit call, none, s => (s.commit pg call, .ok ())
  | .rollback call, _, s => (s.close call, ())

/-! ### Foreign transactions -/

/-- A row that is put in its place, or deleted. -/
structure Write where
  table : String
  place : Nat
  row : Option Row

def Write.apply (tables : Tables) (w : Write) : Tables := fun name =>
  if name = w.table then
    (tables name).map fun table =>
      { table with
        entries := table.entries.filter (fun x => x.place ≠ w.place) ++
          (w.row.map fun row => ⟨w.place, row⟩).toList }
  else tables name

/-- A foreign transaction commits; it could not when it has met a row that is taken. -/
def foreign (writes : List Write) (s : Store) : Store :=
  if writes.any fun w => s.locked none w.table w.place then s
  else { s with tables := writes.foldl Write.apply s.tables }

end Store

def machine (pg : Postgres) : Machine Store Op.Res (Option TxError) (List Store.Write) where
  exec := Store.exec pg
  outside := Store.foreign

end Lazuli.Referential
