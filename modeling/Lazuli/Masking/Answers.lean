import Lazuli.Masking.Returning
import Lazuli.Runtime.CacheRace
import Lazuli.Runtime.Lifecycle

/-!
Read policies on every path that answers with rows of a resource (`run.go`, `handle.go`).

Queries, cached or not, and commands are called in any order around one cache. A row that a query
has read masks the columns that are gated for its reader. A hit gives that row to another caller,
and a command returns its row unmasked; `Careful` says when the promise of the policies is kept
nevertheless.
-/

namespace Lazuli.Masking

open Lazuli.Codegen Lazuli.General Lazuli.Runtime
open Lazuli.Runtime.CacheRace

/-! ### The application -/

/-- A list or lookup query on a resource, whose rows are scanned into the resource's struct. -/
structure DeclaredQuery where
  declared : Declared
  query : Query
  on : query.resource = some declared.value
  rows : query.rowType = declared.rowType

/-- What a query has read. The reader is only there to be talked about. -/
structure Found where
  reader : Ctx
  rows : List ReturnedRow

structure ReadCall (A : Type) where
  ctx : Ctx
  name : QueryName
  args : A
  cache : Option CacheSpec

structure WriteCall where
  ctx : Ctx
  input : Slot
  command : ReturningCommand
  faults : Faults

def WriteCall.run (env : Env) (call : WriteCall) (db : Db) : Option (Row × Db) :=
  call.command.run env call.faults call.ctx call.input db

/-- The queries of an application, and all calls of a run. `arrange` is what ORDER BY and LIMIT
make of the rows that a statement finds. -/
structure App (A : Type) where
  backing : Backing (Stamped Found)
  hash : ArgsHash A
  view : A → Slot
  env : Env
  arrange : Plan → List Row → List Row
  catalog : QueryName → Option DeclaredQuery
  reads : Nat → ReadCall A
  writes : Nat → WriteCall

/-- A lookup takes the first row, and fails without one. -/
def collect (kind : QueryKind) (rows : List Row) : Option (List Row) :=
  match kind, rows with
  | .list, rows => some rows
  | .lookup, [] => none
  | .lookup, row :: _ => some [row]

namespace App

variable {A : Type} (app : App A)

/-- Builds the statement, runs it and scans the rows. -/
def fetch (q : QueryCall A) (db : Db) : Option Found := do
  let ctx ← q.ctx
  let dq ← app.catalog q.name
  match buildSQL app.env.hooks (some ctx) (app.view q.args) dq.query with
  | .error _ => none
  | .ok p =>
      let found := app.arrange p (p.found app.env.engine (db.tables (tableOf p.stmt.table)))
      let chosen ← collect dq.query.kind found
      let cols := dq.declared.columns
      let rows ← chosen.mapM
        (scanRow cols (selectionOf app.env.hooks ctx dq.declared.value cols))
      some ⟨ctx, rows⟩

def world : World A Found Db where
  backing := app.backing
  hash := app.hash
  queries i := ⟨some (app.reads i).ctx, (app.reads i).name, (app.reads i).args, (app.reads i).cache⟩
  commands j :=
    { invalidates := (app.writes j).command.command.invalidates
      tx := fun db => ((app.writes j).run app.env db).map Prod.snd }
  fetch := app.fetch
  typed _ _ := true

/-! ### The promise -/

/-- Rows of a resource that a caller is given. -/
structure Answer where
  declared : Declared
  caller : Ctx
  rows : List ReturnedRow

/-- A query answers when it hits and when it has stored what it read, a command when it
commits. -/
def answer (s : State app.world) : Act → Option Answer
  | .lookup i => do
      let dq ← app.catalog (app.reads i).name
      let v ← (step app.world s (.lookup i)).2
      some ⟨dq.declared, (app.reads i).ctx, v.value.rows⟩
  | .store i =>
      match s.queries i with
      | .loaded v => do
          let dq ← app.catalog (app.reads i).name
          some ⟨dq.declared, (app.reads i).ctx, v.value.rows⟩
      | _ => none
  | .commit j =>
      match s.commands j with
      | .running => do
          let call := app.writes j
          let (row, _) ← call.run app.env s.db
          let returned ← scanRow call.command.declared.columns .all row
          some ⟨call.command.declared, call.ctx, [returned]⟩
      | _ => none
  | _ => none

/-- A column with a read policy is shown only to those who satisfy it. -/
def Answer.Kept (hooks : Rbac) (a : Answer) : Prop :=
  ∀ col read, a.declared.Lists col read → ∀ row ∈ a.rows, Shows row col →
    Satisfies hooks a.caller read

def Upheld (s : State app.world) (act : Act) : Prop :=
  ∀ a, app.answer s act = some a → a.Kept app.env.hooks.rbac

end App

/-! ### The condition -/

namespace Declared

variable (hooks : Rbac) (d : Declared)

/-- A column with an entry that lists no atom is gated by another one. -/
def Listed (reader : Ctx) : Prop :=
  ∀ col ∈ names d.columns, d.Lists col [] → d.Gated hooks reader col

/-- The caller satisfies every policy that the reader satisfied. -/
def Follows (reader caller : Ctx) : Prop :=
  ∀ col ∈ names d.columns, ∀ read, d.Lists col read →
    Satisfies hooks reader read → Satisfies hooks caller read

/-- The caller satisfies every policy. -/
def Cleared (caller : Ctx) : Prop :=
  ∀ col ∈ names d.columns, ∀ read, d.Lists col read → Satisfies hooks caller read

end Declared

def App.Careful {A : Type} (app : App A) (s : State app.world) : Act → Prop
  | .lookup i => ∀ dq v, app.catalog (app.reads i).name = some dq →
      (step app.world s (.lookup i)).2 = some v →
      dq.declared.Listed app.env.hooks.rbac v.value.reader ∧
        dq.declared.Follows app.env.hooks.rbac v.value.reader (app.reads i).ctx
  | .store i => ∀ dq, app.catalog (app.reads i).name = some dq →
      dq.declared.Listed app.env.hooks.rbac (app.reads i).ctx
  | .commit j => (app.writes j).command.declared.Cleared app.env.hooks.rbac (app.writes j).ctx
  | _ => True

/-! ### What was read -/

/-- The rows mask what is gated for their reader. -/
def Found.Masks (hooks : Rbac) (d : Declared) (found : Found) : Prop :=
  ∀ row ∈ found.rows, ∀ col,
    Shows row col ↔ col ∈ names d.columns ∧ ¬ d.Gated hooks found.reader col

section Reads

variable {A : Type} {app : App A} {s : State app.world} {i : Nat}

theorem fetch_masks {q : QueryCall A} {db : Db} {found : Found}
    (read : app.fetch q db = some found) :
    q.ctx = some found.reader ∧ ∃ dq, app.catalog q.name = some dq ∧
      found.Masks app.env.hooks.rbac dq.declared := by
  obtain ⟨ctx, hctx, read⟩ := Option.bind_eq_some_iff.mp read
  obtain ⟨dq, hdq, read⟩ := Option.bind_eq_some_iff.mp read
  split at read
  · cases read
  next p hp =>
    obtain ⟨chosen, -, read⟩ := Option.bind_eq_some_iff.mp read
    obtain ⟨rows, hrows, read⟩ := Option.bind_eq_some_iff.mp read
    cases read
    obtain ⟨-, rfl⟩ := mapM_eq_some_iff.mp hrows
    refine ⟨hctx, dq, hdq, ?_⟩
    intro row hrow col
    obtain ⟨stored, -, hscan⟩ := List.mem_filterMap.mp hrow
    exact Declared.shows_selectionOf hscan

/-- What call `i` has loaded was read for its own caller. -/
theorem loaded_masks (origin : Origin s) {v : Stamped Found} (hload : s.queries i = .loaded v) :
    v.value.reader = (app.reads i).ctx ∧ ∃ dq, app.catalog (app.reads i).name = some dq ∧
      v.value.Masks app.env.hooks.rbac dq.declared := by
  obtain ⟨db, read⟩ := origin.loaded i v hload
  obtain ⟨hctx, hdq⟩ := fetch_masks read
  exact ⟨(Option.some.inj hctx).symm, hdq⟩

/-- A hit was read for a caller with the same key, by the same query. -/
theorem hit_masks (origin : Origin s) {v : Stamped Found}
    (hit : (step app.world s (.lookup i)).2 = some v) :
    SameKey (some v.value.reader) (some (app.reads i).ctx) ∧
      ∃ dq, app.catalog (app.reads i).name = some dq ∧
        v.value.Masks app.env.hooks.rbac dq.declared := by
  obtain ⟨j, key, hi, hj, db, read⟩ := origin.hit hit
  obtain ⟨hctx, dq, hdq, masks⟩ := fetch_masks read
  have sameName : (app.world.queries j).name = (app.world.queries i).name :=
    QueryName.eq_of_text (queryName_eq_of_key hj hi)
  rw [sameName] at hdq
  unfold callKey at hj
  rw [hctx, sameName] at hj
  exact ⟨(eq_of_key hj hi).2, dq, hdq, masks⟩

/-! ### What a key settles -/

/-- Under one key, a caller whose kind is filled in satisfies all but the roles that a reader
satisfied. -/
theorem leafMatches_of_sameKey {hooks : Rbac} {reader caller : Ctx} {ns nm : String}
    (same : SameKey (some reader) (some caller)) (filled : caller.actor ≠ "")
    (closed : closedAtom ns nm = true) (noRole : ns ≠ "role")
    (h : Ir.leafMatches hooks reader ns nm = true) : Ir.leafMatches hooks caller ns nm = true := by
  unfold closedAtom at closed
  split at closed
  · have kind : reader.actor ≠ "" → reader.actor = caller.actor := by
      intro known
      simpa [keyActor, known, filled] using same.actor
    have known : reader.actor ≠ "" := by
      intro unknown
      simp [Ir.leafMatches, atomMatches, unknown, ActorUser, ActorSystem, ActorAnonymous] at h
      split at h <;> simp at h
    simpa [Ir.leafMatches, atomMatches, kind known] using h
  · exact absurd rfl noRole
  · have user : reader.user.isSome = caller.user.isSome := by
      simpa using congrArg Option.isSome same.userID
    have tenant : reader.tenant = caller.tenant := same.tenant
    simpa [Ir.leafMatches, atomMatches, user, tenant] using h
  · cases closed

/-- A hit on a query whose policies list no role is for a caller who satisfies what its reader
did. -/
theorem follows_of_sameKey {hooks : Rbac} {d : Declared} {reader caller : Ctx}
    (same : SameKey (some reader) (some caller)) (filled : caller.actor ≠ "")
    (noRole : ∀ col read, d.Lists col read → ∀ atom ∈ read, ∀ nm,
      runtimeEvaluableAtom atom ≠ some ("role", nm)) :
    d.Follows hooks reader caller := by
  rintro col - read listed ⟨atom, hatom, ⟨ns, nm⟩, hpair, hleaf⟩
  refine ⟨atom, hatom, (ns, nm), hpair, ?_⟩
  apply leafMatches_of_sameKey same filled (closedAtom_of_evaluable hpair) _ hleaf
  rintro rfl
  exact noRole col read listed atom hatom nm hpair

/-! ### One step -/

variable {hooks : Rbac} {d : Declared} {reader caller : Ctx} {found : Found}

/-- Two entries for one column that list atoms are satisfied by the same callers. -/
theorem satisfies_congr {col : String} {read read' : List String} (listed : d.Lists col read)
    (ne : read ≠ []) (listed' : d.Lists col read') (ne' : read' ≠ []) :
    Satisfies hooks reader read ↔ Satisfies hooks reader read' := by
  obtain ⟨pol, hpol, granted⟩ :=
    granted_of_lists hooks reader d.compiled listed ne
  obtain ⟨pol', hpol', granted'⟩ :=
    granted_of_lists hooks reader d.compiled listed' ne'
  rw [hpol] at hpol'
  cases hpol'
  exact granted.symm.trans granted'

theorem not_gated_of_satisfies {col : String} {read : List String} (listed : d.Lists col read)
    (satisfied : Satisfies hooks reader read) : ¬ d.Gated hooks reader col := by
  rintro ⟨read', listed', ne', unsatisfied⟩
  have ne : read ≠ [] := by
    rintro rfl
    obtain ⟨atom, hatom, -⟩ := satisfied
    cases hatom
  exact unsatisfied ((satisfies_congr listed ne listed' ne').mp satisfied)

/-- Rows that were read for one caller and given to another keep the promise when the two
stand in order. -/
theorem kept_iff_of_masks (masks : found.Masks hooks d) (nonempty : found.rows ≠ []) :
    (App.Answer.mk d caller found.rows).Kept hooks ↔
      d.Listed hooks found.reader ∧ d.Follows hooks found.reader caller := by
  constructor
  · intro kept
    obtain ⟨row, hrow⟩ := List.exists_mem_of_ne_nil _ nonempty
    constructor
    · intro col hcol listed
      by_contra open_
      obtain ⟨atom, hatom, -⟩ :=
        kept col [] listed row hrow ((masks row hrow col).mpr ⟨hcol, open_⟩)
      cases hatom
    · intro col hcol read listed satisfied
      apply kept col read listed row hrow
      exact (masks row hrow col).mpr ⟨hcol, not_gated_of_satisfies listed satisfied⟩
  · rintro ⟨hlisted, follows⟩ col read listed row hrow shown
    obtain ⟨hcol, free⟩ := (masks row hrow col).mp shown
    by_cases ne : read = []
    · subst ne
      exact absurd (hlisted col hcol listed) free
    · apply follows col hcol read listed
      by_contra unsatisfied
      exact free ⟨read, listed, ne, unsatisfied⟩

/-- A row that a command returns shows all columns. -/
theorem kept_iff_of_all {row : Row} {returned : ReturnedRow}
    (scanned : scanRow d.columns .all row = some returned) :
    (App.Answer.mk d caller [returned]).Kept hooks ↔ d.Cleared hooks caller := by
  constructor
  · intro kept col hcol read listed
    exact kept col read listed returned List.mem_cons_self ((shows_all scanned).mpr hcol)
  · intro cleared col read listed row hrow shown
    obtain rfl := List.mem_singleton.mp hrow
    exact cleared col ((shows_all scanned).mp shown) read listed

/-- A step that answers with a row keeps the promise exactly when it is careful. -/
theorem kept_iff_careful (origin : Origin s) {act : Act} {a : App.Answer}
    (answered : app.answer s act = some a) (nonempty : a.rows ≠ []) :
    a.Kept app.env.hooks.rbac ↔ app.Careful s act := by
  cases act with
  | lookup i =>
      obtain ⟨dq, hdq, answered⟩ := Option.bind_eq_some_iff.mp answered
      obtain ⟨v, hit, answered⟩ := Option.bind_eq_some_iff.mp answered
      cases answered
      obtain ⟨-, dq', hdq', masks⟩ := hit_masks origin hit
      obtain rfl : dq = dq' := Option.some.inj (hdq.symm.trans hdq')
      rw [kept_iff_of_masks masks nonempty]
      constructor
      · intro ordered dq' v' hdq' hit'
        obtain rfl : dq = dq' := Option.some.inj (hdq.symm.trans hdq')
        obtain rfl : v = v' := Option.some.inj (hit.symm.trans hit')
        exact ordered
      · intro careful
        exact careful dq v hdq hit
  | store i =>
      unfold App.answer at answered
      dsimp only at answered
      split at answered
      next v hload =>
        obtain ⟨dq, hdq, answered⟩ := Option.bind_eq_some_iff.mp answered
        cases answered
        obtain ⟨hreader, dq', hdq', masks⟩ := loaded_masks origin hload
        obtain rfl : dq = dq' := Option.some.inj (hdq.symm.trans hdq')
        rw [kept_iff_of_masks masks nonempty, hreader]
        constructor
        · rintro ⟨listed, -⟩ dq' hdq'
          obtain rfl : dq = dq' := Option.some.inj (hdq.symm.trans hdq')
          exact listed
        · intro careful
          exact ⟨careful dq hdq, fun _ _ _ _ satisfied => satisfied⟩
      · cases answered
  | commit j =>
      unfold App.answer at answered
      dsimp only at answered
      split at answered
      · obtain ⟨⟨row, db⟩, -, answered⟩ := Option.bind_eq_some_iff.mp answered
        obtain ⟨returned, scanned, answered⟩ := Option.bind_eq_some_iff.mp answered
        cases answered
        exact kept_iff_of_all scanned
      · cases answered
  | read i => cases answered
  | invalidate j => cases answered
  | tick n => cases answered
  | sweep ttl => cases answered

theorem upheld_of_careful (origin : Origin s) {act : Act} (careful : app.Careful s act) :
    app.Upheld s act := by
  intro a answered
  by_cases nonempty : a.rows = []
  · intro col read listed row hrow
    rw [nonempty] at hrow
    cases hrow
  · exact (kept_iff_careful origin answered nonempty).mpr careful

end Reads

/-! ### Runs -/

/-- A run of careful steps keeps the promise of every read policy in every answer, and in any run
no other step that answers with a row does. -/
theorem field_reads {A : Type} (app : App A) (capacity wall : Int) (db : Db) (acts : List Act) :
    (Along (step app.world) app.Careful (init app.world capacity wall db) acts →
      Along (step app.world) app.Upheld (init app.world capacity wall db) acts) ∧
    ∀ act a, app.answer (runState (step app.world) (init app.world capacity wall db) acts) act =
        some a → a.rows ≠ [] →
      (a.Kept app.env.hooks.rbac ↔
        app.Careful (runState (step app.world) (init app.world capacity wall db) acts) act) := by
  constructor
  · apply Along.strengthen _ (origin_init capacity wall db)
    intro s act origin careful
    exact ⟨origin.step, upheld_of_careful origin careful⟩
  · intro act a answered nonempty
    apply kept_iff_careful _ answered nonempty
    apply Along.inv _ (origin_init capacity wall db) (Along.trivial _ _ _)
    intro s act origin _
    exact origin.step

/-! ### A payroll -/

/-- `fields Employee`, `salary`, `read: @role.admin`. -/
def salaryBlocks : List Ir.FieldPolicies :=
  [⟨⟨none, "Employee"⟩, [⟨"salary", some ["@role.admin"]⟩]⟩]

def salaryGate : FieldReadGate := ⟨"salary", [("role", "admin")], "@role.admin"⟩

def employeeValue : Runtime.Resource where
  name := employee.name
  fieldReadPolicies col := ([salaryGate].find? fun gate => gate.column = col).map FieldReadGate.policy

def employeeDeclared : Declared where
  feature := { name := "hr" }
  resource :=
    { name := "Employee"
      fields := [{ name := "salary", typeRef := .builtin .integer, required := true }] }
  blocks := salaryBlocks
  kind _ := .integer
  value := employeeValue
  named := rfl
  compiled := rfl

/-- `updates Employee where id = 40`, `grade = 2`. -/
def regrade : ReturningCommand where
  declared := employeeDeclared
  command :=
    { name := "employee.regrade"
      checks := fun _ _ => .ok ()
      effect := some (.updates
        { resource := employeeValue
          wheres := .single idColumn (.const (.int 40))
          binds := .single ⟨"grade", by decide⟩ (.const (.int 2)) })
      transitions := []
      lifecycleColumn := none
      emits := []
      emitsTrace := []
      audit := none
      invalidates := []
      outputType := .other
      zero := fun _ => .nil
      scan := .ok }
  effect := .updates
    { resource := employeeValue
      wheres := .single idColumn (.const (.int 40))
      binds := .single ⟨"grade", by decide⟩ (.const (.int 2)) }
  does := rfl
  on := rfl

/-- Calls with an even number are an admin's; the others are of the same user without the role. -/
def payroll : App Unit where
  backing := .reference (Stamped Found)
  hash := unitHash
  view _ := .direct .nil
  env := plainEnv
  arrange _ rows := rows
  catalog _ := some ⟨employeeDeclared,
    { name := employees.name, kind := .list, resource := some employeeValue,
      rowType := employeeDeclared.rowType }, rfl, rfl⟩
  reads i := ⟨if i % 2 = 0 then admin else demoted, employees.name, (), some ⟨0⟩⟩
  writes i := ⟨if i % 2 = 0 then admin else demoted, .direct .nil, regrade, fun _ => none⟩

def payrollDb : Db where
  tables _ := [fun col => if col = "id" then .int 40 else if col = "salary" then .int 9000 else .nil]
  outbox := []
  audit _ := []

def payrollInit : State payroll.world := init payroll.world 8 0 payrollDb

def shownRow : ReturnedRow := [("id", .stored (.int 40)), ("salary", .stored (.int 9000))]

theorem lists_salary {col : String} {read : List String} (listed : employeeDeclared.Lists col read) :
    col = "salary" ∧ read = ["@role.admin"] := by
  cases listed with
  | entry hblock _ hfp hread _ =>
      obtain rfl := List.mem_singleton.mp hblock
      obtain rfl := List.mem_singleton.mp hfp
      exact ⟨rfl, (Option.some.inj hread).symm⟩

theorem salary_listed : employeeDeclared.Lists "salary" ["@role.admin"] := by
  let fp : Ir.FieldPolicy := ⟨"salary", some ["@role.admin"]⟩
  have entry : fp ∈ [fp] := List.mem_singleton_self fp
  have evaluable : ∀ atom ∈ ["@role.admin"], (runtimeEvaluableAtom atom).isSome := by decide
  exact .entry (List.mem_singleton_self ⟨⟨none, "Employee"⟩, [fp]⟩) rfl entry rfl evaluable

theorem satisfies_role_admin (ctx : Ctx) : Satisfies plainEnv.hooks.rbac ctx ["@role.admin"] ↔
    anyRole ctx (fun r => r = "admin") = true := by
  rw [satisfies_iff]
  show (∃ pair ∈ [("role", "admin")], _) ↔ _
  simp [Ir.leafMatches, atomMatches]

theorem field_reads_admin :
    Along (step payroll.world) payroll.Upheld payrollInit [.commit 0] := by
  apply (field_reads payroll 8 0 payrollDb [.commit 0]).1
  refine ⟨?_, trivial⟩
  intro col _ read listed
  obtain ⟨-, rfl⟩ := lists_salary listed
  exact (satisfies_role_admin admin).mpr rfl

/-- A command shows the salary to a user who is no admin, and so does a hit on what the user
read before the role was taken away. -/
theorem salary_shown :
    ¬ Along (step payroll.world) payroll.Upheld payrollInit [.commit 1] ∧
    ¬ Along (step payroll.world) payroll.Upheld payrollInit
        [.lookup 0, .read 0, .store 0, .lookup 1] := by
  have shown : Shows shownRow "salary" := ⟨.int 9000, .tail _ (.head _)⟩
  have unsatisfied : ¬ Satisfies plainEnv.hooks.rbac demoted ["@role.admin"] := by
    rw [satisfies_role_admin]
    decide
  have not_kept : ¬ (App.Answer.mk employeeDeclared demoted [shownRow]).Kept plainEnv.hooks.rbac :=
    fun kept => unsatisfied (kept "salary" _ salary_listed shownRow (.head _) shown)
  constructor
  · rintro ⟨upheld, -⟩
    exact not_kept (upheld _ rfl)
  · rintro ⟨-, -, -, upheld, -⟩
    exact not_kept (upheld _ rfl)

end Lazuli.Masking
