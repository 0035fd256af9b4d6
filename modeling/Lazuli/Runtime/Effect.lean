import Lazuli.Runtime.Query
import Mathlib.Logic.Function.Basic

/-!
The statements of command effects and lifecycle transitions (`runtime/go/lazuli/handle.go`).

Each function ends with the statement it sends; what becomes of the rows it gets back is
not part of this module. An effect binds the values of its SET side first, then the tenant
scope, then its WHERE side, so the number of the scope's placeholder depends on the values
before it.
-/

namespace Lazuli.Runtime

/-- A map from columns to sources, in the order in which the runtime reads it. -/
structure Bindings where
  entries : List (Ident × Source)
  sorted : entries.Pairwise fun a b => a.1.text < b.1.text

/-- One column. -/
def Bindings.single (col : Ident) (src : Source) : Bindings := ⟨[(col, src)], by simp⟩

def Bindings.has (b : Bindings) (col : String) : Bool := b.entries.any fun e => e.1.text = col

structure UpdatesEffect where
  resource : Resource
  wheres : Bindings
  binds : Bindings

structure DeletesEffect where
  resource : Resource
  wheres : Bindings

structure ReorderEffect where
  resource : Resource
  positionColumn : Ident

def colUpdatedAt : Ident := ⟨"updated_at", by decide⟩
def colDeletedAt : Ident := ⟨"deleted_at", by decide⟩
def colDeletedBy : Ident := ⟨"deleted_by", by decide⟩
def colLifecycleState : Ident := ⟨"lifecycle_state", by decide⟩

def updatesRequireWhere : Error :=
  { status := 500, code := CodeInternal, message := "updates effect requires Where bindings" }

def updatesRequireBind : Error :=
  { status := 500, code := CodeInternal, message := "updates effect requires Bind bindings" }

def deletesRequireWhere : Error :=
  { status := 500, code := CodeInternal, message := "deletes effect requires Where bindings" }

def reorderRequiresIds : Error :=
  { status := 400, code := CodeBadRequest
    message := "reorder command requires an ordered `ids` list" }

def reorderIdsNotList : Error :=
  { status := 400, code := CodeBadRequest, message := "reorder `ids` must be a list" }

def transitionRequiresId : Error :=
  { status := 500, code := CodeInternal
    message := "lifecycle transition updates effect requires an id where binding" }

section Effects

variable (h : Hooks) (ctx : Option Ctx) (input : Slot)

/-! ### Bound columns -/

def Source.isInputOptional : Source → Bool
  | .inputOptional _ => true
  | _ => false

/-- An optional input that is absent leaves its column alone. -/
def resolveBinds : List (Ident × Source) → Except Failure (List (Ident × Value))
  | [] => .ok []
  | (col, src) :: rest => do
      let val ← resolveSource h ctx input src
      let bound ← resolveBinds rest
      .ok (if src.isInputOptional && val = .nil then bound else (col, val) :: bound)

def sanitizeColumnValue (res : Resource) (col : Ident) (val : Value) : Value :=
  match res.sanitizeColumns col.text, val with
  | some profile, .string s => .string (h.sanitizeHTML profile s)
  | some profile, .stringPointer s => .stringPointer (h.sanitizeHTML profile s)
  | _, val => val

def sanitizeColumnValues (res : Resource) (bound : List (Ident × Value)) : List (Ident × Value) :=
  bound.map fun b => (b.1, sanitizeColumnValue h res b.1 b.2)

/-- The bytes of a value; a value that is no slice of bytes has none. -/
def bindingBytes : Value → Option (List UInt8)
  | .bytes b | .bytesPointer b => some b
  | _ => none

/-- Values that are no bytes, and empty ones, bypass the cipher. -/
def encryptColumnValue (res : Resource) (col : Ident) (val : Value) : Except Error Value :=
  match res.encryptedColumns col.text, bindingBytes val with
  | some scope, some plaintext =>
      if plaintext = [] then .ok val
      else do
        let encrypt ← h.cipher ctx scope
        let ciphertext ← encrypt plaintext
        .ok (.bytes ciphertext)
  | _, _ => .ok val

def encryptColumnValues (res : Resource) :
    List (Ident × Value) → Except Error (List (Ident × Value))
  | [] => .ok []
  | (col, val) :: rest => do
      let encrypted ← encryptColumnValue h ctx res col val
      let values ← encryptColumnValues res rest
      .ok ((col, encrypted) :: values)

/-- The SET side of an update: resolved, sanitized and encrypted. -/
def boundColumns (eff : UpdatesEffect) : Except Failure (List (Ident × Value)) := do
  let bound ← resolveBinds h ctx input eff.binds.entries
  let sanitized := sanitizeColumnValues h eff.resource bound
  (encryptColumnValues h ctx eff.resource sanitized).mapError fun _ =>
    .error (internalServerError "update encrypt failed")

def assigns (bound : List (Ident × Value)) : List Assign :=
  (bound.zipIdx 1).map fun b => .bound b.1.1 b.2

/-- The clock column is set when the resource has it and the author did not bind it. -/
def touchUpdatedAt (eff : UpdatesEffect) : List Assign :=
  if !eff.binds.has "updated_at" && eff.resource.hasColumn "updated_at" then [.now colUpdatedAt]
  else []

/-! ### Effects -/

def addWhere : List (Ident × Source) → Collected → Except Failure Collected
  | [], c => .ok c
  | (col, src) :: rest, c => do
      let val ← resolveSource h ctx input src
      addWhere rest (c.push (fragmentOf col src) val)

theorem addWhere_extends {entries : List (Ident × Source)} {c c' : Collected}
    (ok : addWhere h ctx input entries c = .ok c') : c.Extends c' := by
  induction entries generalizing c with
  | nil =>
      cases ok
      exact .refl _
  | cons e rest ih =>
      obtain ⟨val, -, ok⟩ := bind_eq_ok.mp ok
      exact (Collected.Extends.push c _ val).trans (ih ok)

/-- Scope and WHERE side, behind `values`. -/
def scopedWhere (res : Resource) (wheres : Bindings) (values : List Value) :
    Except Failure Collected := do
  let scope ← baseScopeConditions ctx res (values.length + 1)
  addWhere h ctx input wheres.entries (scope.1, values ++ scope.2)

/-- The fallback of an update that sets nothing. -/
def selectByEffectWhere (eff : UpdatesEffect) : Except Failure Plan := do
  let found ← scopedWhere h ctx input eff.resource eff.wheres []
  .ok ⟨.select "*" eff.resource.name found.1 "LIMIT 1", found.2⟩

def applyUpdates (eff : UpdatesEffect) : Except Failure Plan :=
  if eff.wheres.entries = [] then fail updatesRequireWhere
  else if eff.binds.entries = [] then fail updatesRequireBind
  else do
    let bound ← boundColumns h ctx input eff
    let sets := assigns bound ++ touchUpdatedAt eff
    if sets = [] then selectByEffectWhere h ctx input eff
    else do
      let found ← scopedWhere h ctx input eff.resource eff.wheres (bound.map Prod.snd)
      .ok ⟨.update eff.resource.name sets found.1 true, found.2⟩

/-- The deleting user; NULL for a caller without one. -/
def deletedBy (ctx : Option Ctx) : Value :=
  match ctx.bind Ctx.user with
  | some user => .int user.id
  | none => .nil

def softDelete (res : Resource) (found : Collected) : Plan :=
  let touch := if res.hasColumn "updated_at" then [Assign.now colUpdatedAt] else []
  let sets := .now colDeletedAt :: touch
  if res.softDeleteActor then
    let values := found.2 ++ [deletedBy ctx]
    ⟨.update res.name (sets ++ [.bound colDeletedBy values.length]) found.1 true, values⟩
  else ⟨.update res.name sets found.1 true, found.2⟩

def applyDeletes (eff : DeletesEffect) : Except Failure Plan :=
  if eff.wheres.entries = [] then fail deletesRequireWhere
  else do
    let found ← scopedWhere h ctx input eff.resource eff.wheres []
    .ok (if eff.resource.softDelete then softDelete ctx eff.resource found
      else ⟨.delete eff.resource.name found.1, found.2⟩)

variable {h ctx input} in
/-- An update is sent with its assignments, or reads its row when it has none. -/
theorem applyUpdates_cases {eff : UpdatesEffect} {p : Plan}
    (ok : applyUpdates h ctx input eff = .ok p) :
    ∃ bound found, boundColumns h ctx input eff = .ok bound ∧
      (assigns bound ++ touchUpdatedAt eff = [] ∧
          scopedWhere h ctx input eff.resource eff.wheres [] = .ok found ∧
          p = ⟨.select "*" eff.resource.name found.1 "LIMIT 1", found.2⟩ ∨
        scopedWhere h ctx input eff.resource eff.wheres (bound.map Prod.snd) = .ok found ∧
          p = ⟨.update eff.resource.name (assigns bound ++ touchUpdatedAt eff) found.1 true,
            found.2⟩) := by
  unfold applyUpdates at ok
  split at ok
  · cases ok
  · split at ok
    · cases ok
    · obtain ⟨bound, hbound, ok⟩ := bind_eq_ok.mp ok
      dsimp only at ok
      split at ok
      next empty =>
        obtain ⟨found, hfound, hp⟩ := bind_eq_ok.mp ok
        exact ⟨bound, found, hbound, .inl ⟨empty, hfound, (Except.ok.inj hp).symm⟩⟩
      · obtain ⟨found, hfound, hp⟩ := bind_eq_ok.mp ok
        exact ⟨bound, found, hbound, .inr ⟨hfound, (Except.ok.inj hp).symm⟩⟩

variable {h ctx input} in
theorem applyDeletes_ok {eff : DeletesEffect} {p : Plan}
    (ok : applyDeletes h ctx input eff = .ok p) :
    ∃ found, scopedWhere h ctx input eff.resource eff.wheres [] = .ok found ∧
      p = if eff.resource.softDelete then softDelete ctx eff.resource found
        else ⟨.delete eff.resource.name found.1, found.2⟩ := by
  unfold applyDeletes at ok
  split at ok
  · cases ok
  · obtain ⟨found, hfound, hp⟩ := bind_eq_ok.mp ok
    exact ⟨found, hfound, (Except.ok.inj hp).symm⟩

/-- The `ids` list of a reorder. -/
def reorderIds (input : Slot) : Except Failure (List Value) :=
  match readPath input "ids" with
  | .error _ => fail reorderRequiresIds
  | .ok raw =>
      match toAnySlice raw with
      | none => fail reorderIdsNotList
      | some ids => .ok ids

/-- `none` when there is nothing to send. -/
def applyReorder (eff : ReorderEffect) (input : Slot) : Except Failure (Option Plan) := do
  let ids ← reorderIds input
  if ids = [] then .ok none
  else
    let tuples := ids.zipIdx.map fun id => (id.2 + 1, id.2)
    .ok (some ⟨.renumber eff.resource.name eff.positionColumn tuples, ids⟩)

/-! ### Lifecycle transitions -/

structure TransitionAdvance where
  fromState : String
  fromAny : List String
  toState : String
  deriving DecidableEq

structure LifecycleTarget where
  resource : Resource
  idColumn : Ident
  idValue : Value
  stateColumn : Option Ident

/-- The binding of `id`, or the only one. -/
def lifecycleIDBinding (wheres : Bindings) : Option (Ident × Source) :=
  match wheres.entries.find? fun e => e.1.text = "id" with
  | some e => some e
  | none =>
      match wheres.entries with
      | [e] => some e
      | _ => none

def resolveLifecycleTarget (eff : UpdatesEffect) (stateColumn : Option Ident) :
    Except Failure LifecycleTarget :=
  match lifecycleIDBinding eff.wheres with
  | none => fail transitionRequiresId
  | some (col, src) => do
      let id ← resolveSource h ctx input src
      .ok ⟨eff.resource, col, id, stateColumn⟩

def LifecycleTarget.column (target : LifecycleTarget) : Ident :=
  target.stateColumn.getD colLifecycleState

/-- The id condition, and behind it the scope. -/
def LifecycleTarget.scoped (ctx : Option Ctx) (target : LifecycleTarget) (values : List Value) :
    Except Failure Collected := do
  let scope ← baseScopeConditions ctx target.resource (values.length + 1)
  .ok (.bound (.eq target.idColumn) values.length :: scope.1, values ++ scope.2)

def lockLifecycleTransition (ctx : Option Ctx) (target : LifecycleTarget) :
    Except Failure Plan := do
  let found ← target.scoped ctx [target.idValue]
  .ok ⟨.select (quoteIdent target.column) target.resource.name found.1 "FOR UPDATE", found.2⟩

def advanceLifecycleTransition (ctx : Option Ctx) (target : LifecycleTarget)
    (transitions : List TransitionAdvance) : Except Failure Plan :=
  match transitions.getLast? with
  | none => .error .panic
  | some last => do
      let found ← target.scoped ctx [.string last.toState, target.idValue]
      .ok ⟨.update target.resource.name [.bound target.column 1] found.1 false, found.2⟩

end Effects

end Lazuli.Runtime

/-!
What the statements of `Effect` do to the rows of their table.

A table is a list of rows. A statement selects rows with its conditions and writes or
removes them; the rest of the database says what else a condition can see (`Server`), what
`now()` is and which tables satisfy their constraints (`Engine`). A row keeps its place in
the list when it is written, so a table can be compared with itself before a statement.
-/

namespace Lazuli.Runtime

structure Engine where
  server : Server
  accepts : List Row → Bool
  now : Value

def Assign.col : Assign → Ident
  | .bound col _ => col
  | .now col => col

def Assign.value (e : Engine) (values : List Value) : Assign → Value
  | .bound _ k => (arg values k).getD .nil
  | .now _ => e.now

def Assign.apply (e : Engine) (values : List Value) (row : Row) (a : Assign) : Row :=
  Function.update row a.col.text (a.value e values)

/-- What becomes of a row that stays. -/
def Plan.write (e : Engine) (p : Plan) (row : Row) : Row :=
  match p.stmt with
  | .update _ sets _ _ =>
      if p.touches e.server row then sets.foldl (Assign.apply e p.values) row else row
  | .renumber _ position tuples =>
      match tuples.find? fun t => (arg p.values t.1).any (sqlEq (row "id")) with
      | some t => Function.update row position.text (.int t.2)
      | none => row
  | _ => row

/-- The rows that the conditions select. -/
def Plan.found (e : Engine) (p : Plan) (rows : List Row) : List Row :=
  rows.filter (p.touches e.server)

def Plan.after (e : Engine) (p : Plan) (rows : List Row) : List Row :=
  match p.stmt with
  | .delete _ _ => rows.filter fun row => !p.touches e.server row
  | _ => rows.map (p.write e)

def statementFailed : Error := internalServerError "statement failed"

/-- A statement that a constraint refuses changes nothing. -/
def Plan.exec (e : Engine) (p : Plan) (rows : List Row) : Except Failure (List Row) :=
  if e.accepts (p.after e rows) then .ok (p.after e rows) else fail statementFailed

theorem exec_eq_ok {e : Engine} {p : Plan} {rows after : List Row} (h : p.exec e rows = .ok after) :
    after = p.after e rows := by
  unfold Plan.exec at h
  split at h
  · exact (Except.ok.inj h).symm
  · cases h

theorem apply_of_ne {e : Engine} {values : List Value} {col : String} {row : Row} {a : Assign}
    (h : a.col.text ≠ col) : a.apply e values row col = row col := Function.update_of_ne h.symm ..

/-! ### The scope of a statement -/

/-- The row is not soft-deleted and belongs to the caller's tenant. -/
def inScope (ctx : Option Ctx) (res : Resource) (row : Row) : Bool :=
  (!res.softDelete || row "deleted_at" = .nil) &&
  match res.tenancy with
  | .org => (ctx.bind Ctx.tenant).any fun tenant => sqlEq (row "org_id") (.int tenant.orgID)
  | _ => true

/-- The conditions of the scope, wherever they stand in the statement. -/
theorem all_scope {ctx : Option Ctx} {res : Resource} {server : Server} {row : Row}
    {values : List Value} {scope : Collected}
    (h : baseScopeConditions ctx res (values.length + 1) = .ok scope) :
    scope.1.all (Cond.holds server (values ++ scope.2) row) = inScope ctx res row := by
  unfold baseScopeConditions at h
  unfold inScope
  cases tenancy : res.tenancy with
  | org =>
      rw [tenancy] at h
      cases tenant : ctx.bind Ctx.tenant with
      | none =>
          rw [tenant] at h
          cases h
      | some t =>
          rw [tenant] at h
          obtain rfl := Except.ok.inj h
          cases res.softDelete <;> simp [Cond.holds, arg_length]
  | none | team | custom =>
      rw [tenancy] at h
      obtain rfl := Except.ok.inj h
      cases res.softDelete <;> simp [Cond.holds]

end Lazuli.Runtime
