import Lazuli.Runtime.Command

/-!
`Command.Handle` (`runtime/go/lazuli/handle.go`).

After the checks an effect runs in a transaction, between the guard and the advance of the
command's lifecycle transitions; outbox and audit rows are written by the same transaction.
Events are published and caches invalidated after it. A `returns` effect has no transaction.
-/

namespace Lazuli.Runtime

def lifecycleNeedsUpdates : Error :=
  { status := 500, code := CodeInternal
    message := "lifecycle transitions require an updates effect" }

def noTransitionRow : Error :=
  { status := 404, code := CodeNotFound, message := "no row matches lifecycle transition guard" }

def noUpdateRow : Error :=
  { status := 404, code := CodeNotFound, message := "no row matches update where clause" }

def noDeleteRow : Error :=
  { status := 404, code := CodeNotFound, message := "no row matches delete where clause" }

def notOwner : Error :=
  { status := 403, code := CodePolicyDenied, message := "actor does not own the referenced row" }

def ownerColumnNotBound (col : Ident) : Error :=
  { status := 500, code := CodeInternal
    message := "owner-check FK column not bound: " ++ col.text }

def noEffect : Error := { status := 500, code := CodeInternal, message := "command has no effect" }

def noHandler : Error :=
  { status := 500, code := CodeInternal, message := "returns effect requires Handler" }

/-! ### Lifecycle states -/

/-- The declared from-set. -/
def TransitionAdvance.froms (t : TransitionAdvance) : List String :=
  if t.fromAny ≠ [] then t.fromAny else [t.fromState]

def TransitionAdvance.allowsFrom (t : TransitionAdvance) (state : String) : Bool :=
  t.froms.any fun f => f = state

def lifecycleStateMismatch (t : TransitionAdvance) (actual : String) : Error :=
  { status := 409, code := CodeLifecycleStateMismatch
    message :=
      if 1 < t.froms.length then
        "lifecycle_state mismatch: expected one of [" ++ " ".intercalate t.froms ++ "], got \"" ++
          actual ++ "\""
      else
        "lifecycle_state mismatch: expected \"" ++ t.fromState ++ "\", got \"" ++ actual ++ "\""
    cause := some .lifecycleStateMismatch }

/-- All selected rows are locked; the state of the first is checked. -/
def checkLocked (target : LifecycleTarget) (transitions : List TransitionAdvance)
    (found : List Row) : Except Failure Unit :=
  match transitions, found with
  | [], _ => .error .panic
  | _, [] => fail noTransitionRow
  | first :: _, row :: _ =>
      match row target.column.text with
      | .string actual =>
          if first.allowsFrom actual then .ok () else fail (lifecycleStateMismatch first actual)
      | _ => fail (internalServerError "lifecycle transition guard failed")

/-! ### Payloads and records -/

def resolvePayload (h : Hooks) (ctx : Ctx) (input : Slot) :
    List (String × Source) → Except Failure Payload
  | [] => .ok []
  | (col, src) :: rest => do
      let val ← resolveSource h (some ctx) input src
      let values ← resolvePayload h ctx input rest
      .ok ((col, val) :: values)

def outputColumn (field : OutputField) : String :=
  if field.db ≠ "" then field.db
  else
    let json := String.ofList (field.json.toList.takeWhile (· ≠ ','))
    if json ≠ "" then json else String.ofList (field.name.toList.map Char.toLower)

/-- The fields that a payload shows. -/
def OutputType.shown : OutputType → List OutputField
  | .struct fields => fields.filter fun f => f.exported && outputColumn f ≠ "-"
  | .other => []

/-- The exported fields of a struct under their column names. -/
def rowToMap (type : OutputType) (out : Output) : Payload :=
  type.shown.map fun f => (outputColumn f, out f.name)

def buildEmitPayload (h : Hooks) (type : OutputType) (ctx : Ctx) (emit : EventEmit) (input : Slot)
    (out : Output) : Except Failure Payload :=
  if emit.origin = .explicit then resolvePayload h ctx input emit.bind
  else .ok (rowToMap type out)

def eventFromCtx (ctx : Ctx) (name : String) (trace : Bool) (payload : Payload) : Event where
  name := name
  trace := trace
  tenant := ctx.tenant
  actor := ctx.actor
  userID := ctx.user.map User.id
  payload := payload
  occurredAt := ctx.now

def assembleAuditRecord (ctx : Ctx) (command : String) : AuditRecord :=
  let asUser := ctx.actor = ActorUser ∨ (ctx.actor = "" ∧ ctx.user.isSome)
  { orgID := ctx.tenant.map Tenant.orgID
    actorID := if asUser then ctx.user.map User.id else none
    actorKind :=
      if asUser then ActorUser else if ctx.actor = "" then ActorSystem else ctx.actor
    commandName := command
    resultStatus := "ok" }

/-! ### Statements on the database -/

def Stmt.table : Stmt → Ident
  | .select _ table _ _ => table
  | .update table _ _ _ => table
  | .delete table _ => table
  | .renumber table _ _ => table

/-- The rows behind a SELECT or a RETURNING clause. -/
def Plan.returned (e : Engine) (p : Plan) (rows : List Row) : List Row :=
  (p.found e rows).map (p.write e)

def Db.setTable (db : Db) (table : Ident) (rows : List Row) : Db :=
  { db with tables := Function.update db.tables table rows }

theorem Db.tables_setTable (db : Db) (table : Ident) (rows : List Row) :
    (db.setTable table rows).tables table = rows := Function.update_self ..

@[simp] theorem Db.outbox_setTable (db : Db) (table : Ident) (rows : List Row) :
    (db.setTable table rows).outbox = db.outbox := rfl

@[simp] theorem Db.audit_setTable (db : Db) (table : Ident) (rows : List Row) :
    (db.setTable table rows).audit = db.audit := rfl

theorem Db.setTable_self (db : Db) (table : Ident) : db.setTable table (db.tables table) = db := by
  unfold Db.setTable
  rw [Function.update_eq_self]

def Db.run (env : Env) (p : Plan) (db : Db) : Except Failure (List Row × Db) := do
  let table := tableOf p.stmt.table
  let after ← p.exec env.engine (db.tables table)
  .ok (p.returned env.engine (db.tables table), db.setTable table after)

def Db.insert (env : Env) (table : Ident) (cols : List (Ident × Value)) (db : Db) :
    Except Failure (Row × Db) :=
  let row := env.fresh (db.tables table) cols
  let after := db.tables table ++ [row]
  if env.engine.accepts after then .ok (row, db.setTable table after) else fail statementFailed

section Tx

variable (env : Env) (c : Command) (input : Slot) (faults : Faults)

def runPlan (p : Plan) : Tx (List Row) := Tx.statement faults (Db.run env p)

/-! ### Effects -/

/-- A tenant resource without a tenant asks the application for one, and keeps it. -/
def pinTenant (res : Resource) (ctx : Ctx) : Except Failure Ctx :=
  match res.tenancy, ctx.tenant with
  | .org, none =>
      match env.defaultTenant ctx with
      | .error _ => fail (internalServerError "default tenant resolver failed")
      | .ok none => .ok ctx
      | .ok (some tenant) => .ok { ctx with tenant := some tenant }
  | _, _ => .ok ctx

def colOrgID : Ident := ⟨"org_id", by decide⟩
def colOrg : Ident := ⟨"org", by decide⟩

/-- The columns that an INSERT sets without a binding. -/
def autoColumns (eff : CreatesEffect) (ctx : Ctx) : List (Ident × Value) :=
  let tenant :=
    match eff.resource.tenancy, ctx.tenant with
    | .org, some tenant =>
        ([colOrgID, colOrg].filter fun col => !eff.binds.has col.text).map fun col =>
          (col, Value.int tenant.orgID)
    | _, _ => []
  let updatedAt :=
    if eff.resource.hasColumn "updated_at" && !eff.binds.has "updated_at" then
      [(colUpdatedAt, Value.time env.hooks.wall)]
    else []
  tenant ++ updatedAt

def insertColumns (eff : CreatesEffect) (ctx : Ctx) : Except Failure (List (Ident × Value)) := do
  let bound ← resolveBinds env.hooks (some ctx) input eff.binds.entries
  let ctx ← pinTenant env eff.resource ctx
  let cols := sanitizeColumnValues env.hooks eff.resource (bound ++ autoColumns env eff ctx)
  (encryptColumnValues env.hooks (some ctx) eff.resource cols).mapError fun _ =>
    .error (internalServerError "insert encrypt failed")

/-- Does the actor own the row that the new one refers to? -/
def ownerAdmits (eff : CreatesEffect) (ctx : Ctx) (cols : List (Ident × Value)) :
    Except Failure Bool :=
  match eff.ownerCheck with
  | none => .ok true
  | some oc =>
      match cols.find? fun b => b.1.text = oc.fkColumn.text with
      | none => fail (ownerColumnNotBound oc.fkColumn)
      | some fk => do
          let actor ← readCtx env.hooks.wall (some ctx) "user.id"
          .ok ((env.engine.server.ownedIds oc.relatedTable oc.throughColumn actor).any
            (sqlEq fk.2))

def applyCreates (eff : CreatesEffect) (ctx : Ctx) : Tx (Output × Ctx) := do
  let cols ← Tx.lift (insertColumns env input eff ctx)
  let ctx ← Tx.lift (pinTenant env eff.resource ctx)
  let admitted ← Tx.lift (ownerAdmits env eff ctx cols)
  if admitted then do
    let row ← Tx.statement faults (Db.insert env (tableOf eff.resource.name) cols)
    let out ← Tx.lift (wrapError (c.scan row))
    pure (out, ctx)
  else do
    Tx.control faults
    Tx.lift (fail notOwner)

/-- The first row that a statement gives back, as output. -/
def scanFirst (missing : Error) (rows : List Row) : Except Failure Output :=
  match rows with
  | [] => fail missing
  | row :: _ => wrapError (c.scan row)

def applyReturns (eff : ReturnsEffect) (ctx : Ctx) : Except Failure Output :=
  match eff.handler with
  | none => fail noHandler
  | some handler => wrapError (handler ctx input)

def applyEffect (ctx : Ctx) : Tx (Output × Ctx) :=
  match c.effect with
  | none => Tx.lift (fail noEffect)
  | some (.creates eff) => applyCreates env c input faults eff ctx
  | some (.updates eff) => do
      let p ← Tx.lift (applyUpdates env.hooks (some ctx) input eff)
      let rows ← runPlan env faults p
      let out ← Tx.lift (scanFirst c noUpdateRow rows)
      pure (out, ctx)
  | some (.deletes eff) => do
      let p ← Tx.lift (applyDeletes env.hooks (some ctx) input eff)
      let rows ← runPlan env faults p
      let out ← Tx.lift (scanFirst c noDeleteRow rows)
      pure (out, ctx)
  | some (.returns eff) => do
      let out ← Tx.lift (applyReturns input eff ctx)
      pure (out, ctx)
  | some (.reorder eff) => do
      match ← Tx.lift (applyReorder eff input) with
      | none => pure (c.zero, ctx)
      | some p => do
          let _ ← runPlan env faults p
          pure (c.zero, ctx)

/-! ### Around the effect -/

def lifecycleTarget (ctx : Ctx) : Except Failure LifecycleTarget :=
  match c.effect with
  | some (.updates eff) => resolveLifecycleTarget env.hooks (some ctx) input eff c.lifecycleColumn
  | _ => fail lifecycleNeedsUpdates

/-- The row of the transition, locked and checked. -/
def lockTransitions (ctx : Ctx) : Tx (Option LifecycleTarget) :=
  if c.transitions = [] then pure none
  else do
    let target ← Tx.lift (lifecycleTarget env c input ctx)
    let p ← Tx.lift (lockLifecycleTransition (some ctx) target)
    let rows ← runPlan env faults p
    Tx.lift (checkLocked target c.transitions rows)
    pure (some target)

def advanceTransitions (ctx : Ctx) (target : Option LifecycleTarget) : Tx Unit :=
  match target with
  | none => pure ()
  | some target => do
      let p ← Tx.lift (advanceLifecycleTransition (some ctx) target c.transitions)
      let _ ← runPlan env faults p
      pure ()

def writeOutboxRow (row : OutboxRow) : Tx Unit :=
  Tx.statement faults fun db => .ok ((), { db with outbox := db.outbox ++ [row] })

def writeGuaranteedOutboxRows (ctx : Ctx) (out : Output) : List EventEmit → Tx Unit
  | [] => pure ()
  | emit :: rest =>
      if emit.outbox ≠ .guaranteed then writeGuaranteedOutboxRows ctx out rest
      else do
        let payload ← Tx.lift (buildEmitPayload env.hooks c.outputType ctx emit input out)
        if env.encodes payload then do
          writeOutboxRow faults ⟨emit.name, payload⟩
          writeGuaranteedOutboxRows ctx out rest
        else Tx.lift (fail (internalServerError "payload does not encode"))

def auditLog : String := "audit_log"

def writeAuditRow (table : String) (record : AuditRecord) : Tx Unit :=
  Tx.statement faults fun db =>
    .ok ((), { db with audit := Function.update db.audit table (db.audit table ++ [record]) })

/-- One record in each declared sink. -/
def writeAudit (ctx : Ctx) : Tx Unit :=
  match c.audit with
  | none => pure ()
  | some spec => do
      writeAuditRow faults auditLog (assembleAuditRecord ctx c.name)
      if spec.materializeTable ≠ "" then
        writeAuditRow faults spec.materializeTable (assembleAuditRecord ctx c.name)

/-- The body of the transaction. -/
def commandTx (ctx : Ctx) : Tx (Output × Ctx) := do
  let target ← lockTransitions env c input faults ctx
  let res ← applyEffect env c input faults ctx
  advanceTransitions env c faults res.2 target
  writeGuaranteedOutboxRows env c input faults res.2 res.1 c.emits
  writeAudit c faults res.2
  pure res

end Tx

/-! ### The command -/

/-- What a call leaves behind. -/
structure Result where
  output : Except Failure Output
  db : Db
  published : List Event
  invalidated : List String

section Handle

variable (env : Env) (c : Command)

/-- Events whose payload does not resolve are left out. -/
def publishEmits (ctx : Ctx) (input : Slot) (out : Output) : List Event :=
  let emits := c.emits.filterMap fun emit =>
    if emit.outbox = .guaranteed then none
    else
      match buildEmitPayload env.hooks c.outputType ctx emit input out with
      | .ok payload => some (eventFromCtx ctx emit.name false payload)
      | .error _ => none
  let traces := c.emitsTrace.filterMap fun emit =>
    match resolvePayload env.hooks ctx input emit.bind with
    | .ok payload => some (eventFromCtx ctx emit.name true payload)
    | .error _ => none
  emits ++ traces

def refused (db : Db) (e : Failure) : Result := ⟨.error e, db, [], []⟩

def finished (ctx : Ctx) (input : Slot) (out : Output) (db : Db) : Result :=
  ⟨.ok out, db, publishEmits env c ctx input out, c.invalidates⟩

def handle (faults : Nat → Faults) (cancelled : Nat → Option Failure) (ctx : Ctx) (input : Slot)
    (db : Db) : Result :=
  match c.checks ctx input with
  | .error e => refused db (.error e)
  | .ok () =>
      match c.effect with
      | some (.returns eff) =>
          if c.transitions ≠ [] then refused db (.error lifecycleNeedsUpdates)
          else
            match applyReturns input eff ctx with
            | .error e => refused db e
            | .ok out => finished env c ctx input out db
      | _ =>
          match withTx faults cancelled (fun f => commandTx env c input f ctx) db with
          | .error e => refused db e
          | .ok ((out, ctx), db) => finished env c ctx input out db

/-- All that a call can come to: it is refused and leaves no trace, a `returns` handler
answers, or the transaction commits. -/
inductive Handled (ctx : Ctx) (input : Slot) (db : Db) : Result → Prop where
  | refused (e : Failure) : Handled ctx input db (refused db e)
  | returned {eff : ReturnsEffect} {out : Output} : c.effect = some (.returns eff) →
      c.transitions = [] → applyReturns input eff ctx = .ok out →
      Handled ctx input db (finished env c ctx input out db)
  | committed {f : Faults} {out : Output} {ctx' : Ctx} {s : TxState} :
      (∀ eff, c.effect ≠ some (.returns eff)) →
      commandTx env c input f ctx ⟨db, 1⟩ = .ok ((out, ctx'), s) →
      Handled ctx input db (finished env c ctx' input out s.db)

theorem handled (faults : Nat → Faults) (cancelled : Nat → Option Failure) (ctx : Ctx)
    (input : Slot) (db : Db) :
    Handled env c ctx input db (handle env c faults cancelled ctx input db) := by
  unfold handle
  split
  · exact .refused _
  · split
    next eff heffect =>
      split
      · exact .refused _
      next empty =>
        split
        · exact .refused _
        next out hout => exact .returned heffect (not_not.mp empty) hout
    next heffect =>
      split
      · exact .refused _
      next out ctx' db' hwith =>
        obtain ⟨attempt, hattempt⟩ := withTx_ok hwith
        obtain ⟨s, hbody, rfl⟩ := runTxAttempt_ok hattempt
        exact .committed (fun eff heff => heffect eff heff) hbody

end Handle

end Lazuli.Runtime
