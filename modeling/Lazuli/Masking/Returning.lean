import Lazuli.Runtime.CachedQuery
import Lazuli.Runtime.Handle
import Lazuli.Codegen.FieldPolicy
import Lazuli.Codegen.RowStruct
import Lazuli.Runtime.StatementText

/-!
What a returned row shows of the table (`runtime/go/lazuli/read_projection.go`).

A statement answers with result columns, each a column of the table or a constant under the name
of one, and `pgx.RowToStructByName` reads them into the fields of the row struct. A cell keeps
where its content is from, so that a masked zero is told from a stored one.
-/

namespace Lazuli.Masking

open Lazuli.Codegen Lazuli.General Lazuli.Runtime

/-! ### Result columns -/

inductive SelectItem where
  | column (name : String)
  | constant (literal name : String)
  deriving DecidableEq

def SelectItem.name : SelectItem → String
  | .column name => name
  | .constant _ name => name

def SelectItem.text : SelectItem → String
  | .column name => "\"" ++ name ++ "\""
  | .constant literal name => literal ++ " AS " ++ ("\"" ++ name ++ "\"")

/-- A column list; `all` is the asterisk. -/
inductive Selection where
  | all
  | items (list : List SelectItem)
  deriving DecidableEq

def Selection.text : Selection → String
  | .all => "*"
  | .items list => ", ".intercalate (list.map SelectItem.text)

/-! ### Cells -/

inductive Cell where
  | stored (v : Value)
  | masked (literal : String)
  deriving DecidableEq

def SelectItem.cell (row : Row) : SelectItem → Cell
  | .column name => .stored (row name)
  | .constant literal _ => .masked literal

/-- The result column of a name. -/
def Selection.cell (row : Row) (name : String) : Selection → Option Cell
  | .all => some (.stored (row name))
  | .items list => (list.find? fun item => item.name = name).map (SelectItem.cell row)

abbrev ReturnedRow := List (String × Cell)

/-- Each field of the struct reads the result column of its name; without one the scan fails. -/
def scanRow (cols : List DbColumn) (sel : Selection) (row : Row) : Option ReturnedRow :=
  cols.mapM fun col => (sel.cell row col.name).map fun cell => (col.name, cell)

/-- The stored value of the column is in the row. -/
def Shows (row : ReturnedRow) (col : String) : Prop := ∃ v, (col, Cell.stored v) ∈ row

def names (cols : List DbColumn) : List String := cols.map DbColumn.name

section Cells

variable {cols : List DbColumn} {sel : Selection} {row : Row} {r : ReturnedRow} {name : String}

theorem shows_scanRow (h : scanRow cols sel row = some r) :
    Shows r name ↔ name ∈ names cols ∧ ∃ v, sel.cell row name = some (.stored v) := by
  obtain ⟨-, rfl⟩ := mapM_eq_some_iff.mp h
  constructor
  · rintro ⟨v, hv⟩
    obtain ⟨col, hcol, hcell⟩ := List.mem_filterMap.mp hv
    obtain ⟨cell, hcell, heq⟩ := Option.map_eq_some_iff.mp hcell
    cases heq
    exact ⟨List.mem_map_of_mem hcol, v, hcell⟩
  · rintro ⟨hname, v, hv⟩
    obtain ⟨col, hcol, rfl⟩ := List.mem_map.mp hname
    refine ⟨v, List.mem_filterMap.mpr ⟨col, hcol, ?_⟩⟩
    rw [hv]
    rfl

/-- `RETURNING *` and `SELECT *` show every column of the struct. -/
theorem shows_all (h : scanRow cols .all row = some r) : Shows r name ↔ name ∈ names cols := by
  rw [shows_scanRow h]
  exact and_iff_left ⟨row name, rfl⟩

end Cells

/-! ### The projection of a query -/

section Projection

variable (h : Hooks) (ctx : Ctx) (res : Resource)

def itemOf (col : DbColumn) : SelectItem :=
  if denied h ctx res col then .constant (maskLiteral col.kind) col.name else .column col.name

def selectionOf (cols : List DbColumn) : Selection :=
  if cols = [] then .all else .items (cols.map (itemOf h ctx res))

variable {h ctx res}

@[simp] theorem itemOf_name (col : DbColumn) : (itemOf h ctx res col).name = col.name := by
  unfold itemOf
  split <;> rfl

/-- Columns of one name are masked alike. -/
theorem denied_congr {col col' : DbColumn} (same : col.name = col'.name) :
    denied h ctx res col = denied h ctx res col' := by
  unfold denied
  rw [same]

theorem cell_selectionOf {cols : List DbColumn} {col : DbColumn} (mem : col ∈ cols) (row : Row) :
    (∃ v, (selectionOf h ctx res cols).cell row col.name = some (.stored v)) ↔
      denied h ctx res col = false := by
  have ne : cols ≠ [] := List.ne_nil_of_mem mem
  obtain ⟨item, hfound⟩ : ∃ item,
      (cols.map (itemOf h ctx res)).find? (fun item => item.name = col.name) = some item := by
    apply Option.isSome_iff_exists.mp
    apply List.find?_isSome.mpr
    exact ⟨_, List.mem_map_of_mem mem, by simp⟩
  obtain ⟨col', -, rfl⟩ := List.mem_map.mp (List.mem_of_find?_eq_some hfound)
  have same : col'.name = col.name := by simpa using List.find?_some hfound
  simp only [selectionOf, if_neg ne, Selection.cell, hfound, Option.map_some, Option.some_inj]
  rw [← denied_congr same]
  unfold itemOf
  cases hdenied : denied h ctx res col' with
  | true => simp [SelectItem.cell]
  | false => simp [SelectItem.cell]

end Projection

/-! ### Declared resources -/

/-- A resource with the blocks of its feature and what the emitter writes for it. `kind` is the
Go type of a field of its struct. -/
structure Declared where
  feature : Ir.Feature
  resource : Ir.Resource
  blocks : List Ir.FieldPolicies
  kind : TaggedField → RowKind
  value : Runtime.Resource
  named : value.name.text = resource.name
  compiled : fieldReadPolicies blocks resource.name = some value.fieldReadPolicies

namespace Declared

def rowType (d : Declared) : RowType :=
  .struct ((structRows d.feature d.resource).map fun row =>
    { db := some row.dbCol, kind := d.kind row })

def columns (d : Declared) : List DbColumn := dbColumnsOf d.rowType

/-- An entry of a block is a read policy of the column. -/
def Lists (d : Declared) (col : String) (read : List String) : Prop :=
  Codegen.Lists d.blocks d.resource.name col read

/-- The caller satisfies no atom of an entry that lists some. -/
def Gated (hooks : Rbac) (ctx : Ctx) (d : Declared) (col : String) : Prop :=
  ∃ read, d.Lists col read ∧ read ≠ [] ∧ ¬ Satisfies hooks ctx read

variable {h : Hooks} {ctx : Ctx} {d : Declared}

/-- A column is masked for those whom one of its policies turns away. -/
theorem denied_iff (col : DbColumn) :
    denied h ctx d.value col = true ↔ d.Gated h.rbac ctx col.name := by
  unfold denied
  constructor
  · intro hdenied
    split at hdenied
    · cases hdenied
    next pol hpol =>
      obtain ⟨read, listed, ne, granted⟩ :=
        lists_of_policy h.rbac ctx d.compiled hpol
      refine ⟨read, listed, ne, ?_⟩
      intro satisfied
      have none : evalPolicy h.rbac ctx pol = none := granted.mpr satisfied
      rw [none] at hdenied
      cases hdenied
  · rintro ⟨read, listed, ne, unsatisfied⟩
    obtain ⟨pol, hpol, granted⟩ :=
      granted_of_lists h.rbac ctx d.compiled listed ne
    simp only [hpol]
    apply Option.isSome_iff_ne_none.mpr
    intro none
    exact unsatisfied (granted.mp none)

/-- A query shows the columns that are not gated. -/
theorem shows_selectionOf {row : Row} {r : ReturnedRow}
    (scanned : scanRow d.columns (selectionOf h ctx d.value d.columns) row = some r)
    {name : String} :
    Shows r name ↔ name ∈ names d.columns ∧ ¬ d.Gated h.rbac ctx name := by
  rw [shows_scanRow scanned]
  apply and_congr_right
  intro hname
  obtain ⟨col, hcol, rfl⟩ := List.mem_map.mp hname
  rw [cell_selectionOf hcol, ← denied_iff, Bool.not_eq_true]

end Declared

end Lazuli.Masking

/-!
The row that a command returns (`applyCreates`, `applyUpdates`, `selectByEffectWhere` and
`applyDeletes` in `runtime/go/lazuli/handle.go`).

The statement of such an effect returns whole rows, whoever calls (`projection_applyUpdates`,
`projection_applyDeletes`), and the output is scanned from the first of them. `tracedTx` is the
transaction of the command with that row beside its result.
-/

namespace Lazuli.Masking

open Lazuli.Runtime

/-- The effects that return a row of their resource. -/
inductive RowEffect where
  | creates (eff : CreatesEffect)
  | updates (eff : UpdatesEffect)
  | deletes (eff : DeletesEffect)

namespace RowEffect

def effect : RowEffect → Effect
  | .creates eff => .creates eff
  | .updates eff => .updates eff
  | .deletes eff => .deletes eff

def resource : RowEffect → Runtime.Resource
  | .creates eff => eff.resource
  | .updates eff => eff.resource
  | .deletes eff => eff.resource

theorem effect_ne_returns (e : RowEffect) (eff : ReturnsEffect) : e.effect ≠ .returns eff := by
  cases e <;> exact nofun

end RowEffect

/-! ### What the statements ask for -/

section Projection

variable {h : Hooks} {ctx : Option Ctx} {input : Slot} {p : Plan}

/-- The statement of an update, be it the one without an assignment, names no columns. -/
theorem projection_applyUpdates {eff : UpdatesEffect} (ok : applyUpdates h ctx input eff = .ok p) :
    p.stmt.projection = Selection.all.text := by
  obtain ⟨bound, found, -, ⟨-, -, rfl⟩ | ⟨-, rfl⟩⟩ := applyUpdates_cases ok
  · rfl
  · rfl

theorem projection_applyDeletes {eff : DeletesEffect} (ok : applyDeletes h ctx input eff = .ok p) :
    p.stmt.projection = Selection.all.text := by
  obtain ⟨found, -, rfl⟩ := applyDeletes_ok ok
  unfold softDelete
  split
  · dsimp only
    split <;> rfl
  · rfl

end Projection

/-! ### The row of an effect -/

section Traced

variable (env : Env) (c : Command) (input : Slot) (faults : Faults)

def firstRow (missing : Error) : List Row → Except Failure Row
  | [] => fail missing
  | row :: _ => .ok row

/-- The effect, up to the scan of its row. -/
def effectRow (ctx : Ctx) : RowEffect → Tx (Row × Ctx)
  | .creates eff => do
      let cols ← Tx.lift (insertColumns env input eff ctx)
      let ctx ← Tx.lift (pinTenant env eff.resource ctx)
      let admitted ← Tx.lift (ownerAdmits env eff ctx cols)
      if admitted then do
        let row ← Tx.statement faults (Db.insert env (tableOf eff.resource.name) cols)
        pure (row, ctx)
      else do
        Tx.control faults
        Tx.lift (fail notOwner)
  | .updates eff => do
      let p ← Tx.lift (applyUpdates env.hooks (some ctx) input eff)
      let rows ← runPlan env faults p
      let row ← Tx.lift (firstRow noUpdateRow rows)
      pure (row, ctx)
  | .deletes eff => do
      let p ← Tx.lift (applyDeletes env.hooks (some ctx) input eff)
      let rows ← runPlan env faults p
      let row ← Tx.lift (firstRow noDeleteRow rows)
      pure (row, ctx)

/-- The transaction, with the row that its output is scanned from. -/
def tracedTx (e : RowEffect) (ctx : Ctx) : Tx (Row × Output × Ctx) := do
  let target ← lockTransitions env c input faults ctx
  let found ← effectRow env input faults ctx e
  let out ← Tx.lift (wrapError (c.scan found.1))
  advanceTransitions env c faults found.2 target
  writeGuaranteedOutboxRows env c input faults found.2 out c.emits
  writeAudit c faults found.2
  pure (found.1, out, found.2)

variable {env c input faults}

theorem lift_scanFirst (missing : Error) (rows : List Row) :
    Tx.lift (scanFirst c missing rows) = (do
      let row ← Tx.lift (firstRow missing rows)
      Tx.lift (wrapError (c.scan row))) := by
  cases rows <;> rfl

/-- The output is scanned from the row of the effect. -/
theorem applyEffect_eq {e : RowEffect} (does : c.effect = some e.effect) (ctx : Ctx) :
    applyEffect env c input faults ctx = (do
      let found ← effectRow env input faults ctx e
      let out ← Tx.lift (wrapError (c.scan found.1))
      pure (out, found.2)) := by
  unfold applyEffect
  rw [does]
  cases e with
  | creates eff =>
      simp only [RowEffect.effect, applyCreates, effectRow, bind_assoc]
      apply bind_congr
      intro cols
      apply bind_congr
      intro ctx
      apply bind_congr
      intro admitted
      cases admitted with
      | true => simp only [if_true, bind_assoc, pure_bind]
      | false =>
          simp only [Bool.false_eq_true, if_false, bind_assoc]
          rfl
  | updates eff =>
      simp only [RowEffect.effect, effectRow, lift_scanFirst, bind_assoc, pure_bind]
  | deletes eff =>
      simp only [RowEffect.effect, effectRow, lift_scanFirst, bind_assoc, pure_bind]

theorem commandTx_eq {e : RowEffect} (does : c.effect = some e.effect) (ctx : Ctx) :
    commandTx env c input faults ctx = Prod.snd <$> tracedTx env c input faults e ctx := by
  simp only [commandTx, tracedTx, applyEffect_eq does, bind_assoc, map_bind, pure_bind, map_pure]

theorem scan_of_tracedTx {e : RowEffect} {ctx ctx' : Ctx} {s t : TxState} {row : Row} {out : Output}
    (ok : tracedTx env c input faults e ctx s = .ok ((row, out, ctx'), t)) :
    c.scan row = .ok out := by
  obtain ⟨target, s₁, -, ok⟩ := Tx.bind_eq_ok.mp ok
  obtain ⟨found, s₂, -, ok⟩ := Tx.bind_eq_ok.mp ok
  obtain ⟨scanned, s₃, hscan, ok⟩ := Tx.bind_eq_ok.mp ok
  obtain ⟨-, s₄, -, ok⟩ := Tx.bind_eq_ok.mp ok
  obtain ⟨-, s₅, -, ok⟩ := Tx.bind_eq_ok.mp ok
  obtain ⟨-, s₆, -, ok⟩ := Tx.bind_eq_ok.mp ok
  obtain ⟨heq, -⟩ := Tx.pure_eq_ok.mp ok
  cases heq
  obtain ⟨hscan, -⟩ := Tx.lift_eq_ok.mp hscan
  unfold wrapError at hscan
  cases hrow : c.scan found.1 with
  | error e =>
      rw [hrow] at hscan
      cases hscan
  | ok scanned =>
      rw [hrow] at hscan
      cases hscan
      rfl

end Traced

/-! ### Calls -/

/-- A command of the application that returns a row of its resource. -/
structure ReturningCommand where
  declared : Declared
  command : Command
  effect : RowEffect
  does : command.effect = some effect.effect
  on : effect.resource = declared.value

/-- The row that is returned, and the database, when the call is let through and its
transaction commits. -/
def ReturningCommand.run (env : Env) (rc : ReturningCommand) (faults : Faults) (ctx : Ctx)
    (input : Slot) (db : Db) : Option (Row × Db) :=
  match rc.command.checks ctx input with
  | .error _ => none
  | .ok () =>
      match tracedTx env rc.command input faults rc.effect ctx ⟨db, 1⟩ with
      | .ok ((row, _, _), s) => some (row, s.db)
      | .error _ => none

theorem map_eq_ok {α β : Type} {f : α → β} {x : Tx α} {s t : TxState} {b : β}
    (h : (f <$> x) s = .ok (b, t)) : ∃ a, x s = .ok (a, t) ∧ f a = b := by
  rw [map_eq_pure_bind] at h
  obtain ⟨a, u, hx, hf⟩ := Tx.bind_eq_ok.mp h
  obtain ⟨rfl, rfl⟩ := Tx.pure_eq_ok.mp hf
  exact ⟨a, hx, rfl⟩

/-- What a call returns is scanned from the row of such a run. -/
theorem handle_run (env : Env) (rc : ReturningCommand) (faults : Nat → Faults)
    (cancelled : Nat → Option Failure) (ctx : Ctx) (input : Slot) (db : Db) {out : Output}
    (ok : (handle env rc.command faults cancelled ctx input db).output = .ok out) :
    ∃ attempt row,
      rc.run env attempt ctx input db =
        some (row, (handle env rc.command faults cancelled ctx input db).db) ∧
      rc.command.scan row = .ok out := by
  cases hchecks : rc.command.checks ctx input with
  | error e =>
      unfold handle at ok
      rw [hchecks] at ok
      cases ok
  | ok =>
      have possible := handled env rc.command faults cancelled ctx input db
      generalize handle env rc.command faults cancelled ctx input db = result at ok possible
      cases possible with
      | refused e => cases ok
      | returned heffect =>
          rw [rc.does] at heffect
          exact absurd (Option.some.inj heffect) (rc.effect.effect_ne_returns _)
      | @committed f _ _ s _ hbody =>
          rw [commandTx_eq rc.does] at hbody
          obtain ⟨⟨row, found, ctx'⟩, htraced, heq⟩ := map_eq_ok hbody
          cases heq
          cases ok
          refine ⟨f, row, ?_, scan_of_tracedTx htraced⟩
          simp only [ReturningCommand.run, hchecks, htraced]
          rfl

end Lazuli.Masking
