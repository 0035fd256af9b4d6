import Lazuli.Runtime.Handle
import Lazuli.Runtime.TenantScope

/-!
Lifecycle transitions of a command.

The guard locks the rows with the given id in the caller's scope and checks the state of the
first; the effect writes the rows of its own WHERE side; the advance writes the rows with the
given id again, as the effect left them. `LifecycleTarget.guards` is the condition that guard
and advance have in common.

`moves_admissible_iff`: what it takes for the three sets of rows to coincide.
-/

namespace Lazuli.Runtime

/-! ### The rows of guard and advance -/

/-- The row has the id and is in the caller's scope. -/
def LifecycleTarget.guards (ctx : Option Ctx) (target : LifecycleTarget)
    (row : Row) : Bool :=
  sqlEq (row target.idColumn.text) target.idValue && inScope ctx target.resource row

/-- The conditions of guard and advance, behind the values `vs`. -/
theorem all_scoped {server : Server} {ctx : Option Ctx} {target : LifecycleTarget} {row : Row}
    (vs : List Value) {found : Collected}
    (h : target.scoped ctx (vs ++ [target.idValue]) = .ok found) :
    found.1.all (Cond.holds server found.2 row) = target.guards ctx row := by
  obtain ⟨scope, hscope, hfound⟩ := bind_eq_ok.mp h
  obtain rfl := Except.ok.inj hfound
  have hid : arg ((vs ++ [target.idValue]) ++ scope.2) (vs ++ [target.idValue]).length =
      some target.idValue := by
    apply arg_append
    rw [List.length_append, List.length_singleton]
    exact arg_length vs target.idValue
  rw [List.all_cons, all_scope hscope]
  simp only [Cond.holds, hid, Option.any_some, Fragment.holds]
  rfl

theorem touches_lock {server : Server} {ctx : Option Ctx} {target : LifecycleTarget} {p : Plan}
    (h : lockLifecycleTransition ctx target = .ok p) (row : Row) :
    p.touches server row = target.guards ctx row := by
  obtain ⟨found, hfound, hp⟩ := bind_eq_ok.mp h
  obtain rfl := Except.ok.inj hp
  exact all_scoped [] hfound

theorem advance_eq {ctx : Option Ctx} {target : LifecycleTarget} {ts : List TransitionAdvance}
    {p : Plan} (h : advanceLifecycleTransition ctx target ts = .ok p) :
    ∃ last found, ts.getLast? = some last ∧
      target.scoped ctx ([.string last.toState] ++ [target.idValue]) = .ok found ∧
      p = ⟨.update target.resource.name [.bound target.column 1] found.1 false, found.2⟩ := by
  unfold advanceLifecycleTransition at h
  split at h
  · cases h
  next last hlast =>
    obtain ⟨found, hfound, hp⟩ := bind_eq_ok.mp h
    exact ⟨last, found, hlast, hfound, (Except.ok.inj hp).symm⟩

/-- The last state of the chain. -/
def lastState (ts : List TransitionAdvance) : Value :=
  match ts.getLast? with
  | some t => .string t.toState
  | none => .nil

/-- The advance writes the last state into the rows with the id, and nothing else. -/
theorem write_advance {e : Engine} {ctx : Option Ctx} {target : LifecycleTarget}
    {ts : List TransitionAdvance} {p : Plan}
    (h : advanceLifecycleTransition ctx target ts = .ok p) (row : Row) :
    p.write e row = if target.guards ctx row then
      Function.update row target.column.text (lastState ts) else row := by
  obtain ⟨last, found, hlast, hfound, rfl⟩ := advance_eq h
  have touched : (Plan.mk (.update target.resource.name [.bound target.column 1] found.1 false)
      found.2).touches e.server row = target.guards ctx row :=
    all_scoped [.string last.toState] hfound
  have value : arg found.2 1 = some (lastState ts) := by
    obtain ⟨scope, -, hscope⟩ := bind_eq_ok.mp hfound
    obtain rfl := Except.ok.inj hscope
    simp [arg, lastState, hlast]
  unfold Plan.write
  dsimp only
  rw [touched]
  simp only [List.foldl_cons, List.foldl_nil, Assign.apply, Assign.col, Assign.value, value,
    Option.getD_some]

/-! ### What the transaction does to the table -/

theorem after_select (e : Engine) (projection : String) (table : Ident) (conds : List Cond)
    (tail : String) (values : List Value) (rows : List Row) :
    (Plan.mk (.select projection table conds tail) values).after e rows = rows :=
  List.map_id' rows

section Tx

variable {env : Env} {c : Command} {input : Slot} {faults : Faults} {ctx : Ctx} {s t : TxState}

theorem runPlan_ok {p : Plan} {rows : List Row} (h : runPlan env faults p s = .ok (rows, t)) :
    rows = p.returned env.engine (s.db.tables (tableOf p.stmt.table)) ∧
      t.db = s.db.setTable (tableOf p.stmt.table)
        (p.after env.engine (s.db.tables (tableOf p.stmt.table))) := by
  obtain ⟨-, hrun, -⟩ := Tx.statement_eq_ok.mp h
  obtain ⟨after, hafter, hres⟩ := bind_eq_ok.mp hrun
  obtain ⟨rfl, hdb⟩ := Prod.mk.inj (Except.ok.inj hres)
  rw [exec_eq_ok hafter] at hdb
  exact ⟨rfl, hdb.symm⟩

/-- A SELECT leaves the database as it is. -/
theorem runPlan_select {projection : String} {table : Ident} {conds : List Cond} {tail : String}
    {values : List Value} {rows : List Row}
    (h : runPlan env faults ⟨.select projection table conds tail, values⟩ s = .ok (rows, t)) :
    t.db = s.db := by
  obtain ⟨-, hdb⟩ := runPlan_ok h
  rw [hdb, after_select]
  exact Db.setTable_self ..

theorem writeOutbox_tables {out : Output} {emits : List EventEmit} {u : Unit}
    (h : writeGuaranteedOutboxRows env c input faults ctx out emits s = .ok (u, t)) :
    t.db.tables = s.db.tables := by
  induction emits generalizing s with
  | nil =>
      obtain ⟨-, rfl⟩ := Tx.pure_eq_ok.mp h
      rfl
  | cons emit rest ih =>
      unfold writeGuaranteedOutboxRows at h
      split at h
      · exact ih h
      · obtain ⟨payload, s₁, hpayload, hrest⟩ := Tx.bind_eq_ok.mp h
        obtain ⟨-, rfl⟩ := Tx.lift_eq_ok.mp hpayload
        split at hrest
        · obtain ⟨_, s₂, hrow, hmore⟩ := Tx.bind_eq_ok.mp hrest
          obtain ⟨-, hdb, -⟩ := Tx.statement_eq_ok.mp hrow
          rw [ih hmore, ← (Prod.mk.inj (Except.ok.inj hdb)).2]
        · obtain ⟨refuse, -⟩ := Tx.lift_eq_ok.mp hrest
          cases refuse

theorem writeAuditRow_tables {table : String} {record : AuditRecord} {u : Unit}
    (h : writeAuditRow faults table record s = .ok (u, t)) : t.db.tables = s.db.tables := by
  obtain ⟨-, hdb, -⟩ := Tx.statement_eq_ok.mp h
  rw [← (Prod.mk.inj (Except.ok.inj hdb)).2]

theorem writeAudit_tables {u : Unit} (h : writeAudit c faults ctx s = .ok (u, t)) :
    t.db.tables = s.db.tables := by
  unfold writeAudit at h
  cases haudit : c.audit with
  | none =>
      rw [haudit] at h
      obtain ⟨-, rfl⟩ := Tx.pure_eq_ok.mp h
      rfl
  | some spec =>
      rw [haudit] at h
      obtain ⟨_, s₁, hlog, hrest⟩ := Tx.bind_eq_ok.mp h
      split at hrest
      · rw [writeAuditRow_tables hrest, writeAuditRow_tables hlog]
      · obtain ⟨-, rfl⟩ := Tx.pure_eq_ok.mp hrest
        exact writeAuditRow_tables hlog

end Tx

/-! ### Admissible moves -/

section Moves

variable (env : Env) (c : Command) (ctx : Ctx) (input : Slot)

/-- A state from which the chain may start. -/
def firstAllows (ts : List TransitionAdvance) (state : Value) : Bool :=
  match ts.head?, state with
  | some t, .string s => t.allowsFrom s
  | _, _ => false

/-- The guard locked this row in a state from which the chain may start. -/
def movable (target : LifecycleTarget) (row : Row) : Prop :=
  target.guards (some ctx) row = true ∧ firstAllows c.transitions (row target.column.text) = true

/-- Every row of the table whose lifecycle column changed was locked in an admissible state
and has the last state of the chain. -/
def MovesAdmissible (before after : Db) : Prop :=
  ∀ target, lifecycleTarget env c input ctx = .ok target →
    let table := tableOf target.resource.name
    (before.tables table).length = (after.tables table).length ∧
    ∀ p ∈ (before.tables table).zip (after.tables table),
      p.1 target.column.text ≠ p.2 target.column.text →
        movable c ctx target p.1 ∧ p.2 target.column.text = lastState c.transitions

/-- The row as the SET side of the effect leaves it. -/
def effectWrite (row : Row) : Row :=
  match c.effect with
  | some (.updates eff) =>
      match applyUpdates env.hooks (some ctx) input eff with
      | .ok p => p.write env.engine row
      | .error _ => row
  | _ => row

/-- What the whole transaction makes of a row. -/
def moveRow (target : LifecycleTarget) (row : Row) : Row :=
  let moved := effectWrite env c ctx input row
  if target.guards (some ctx) moved = true then
    Function.update moved target.column.text (lastState c.transitions) else moved

/-- The advance reaches no row that the guard had not found admissible, unless it is in the
last state already, and the effect itself does not touch the lifecycle column of another. -/
def ReachesChecked (before : Db) : Prop :=
  ∀ target, lifecycleTarget env c input ctx = .ok target →
    ∀ row ∈ before.tables (tableOf target.resource.name),
      let moved := effectWrite env c ctx input row
      if target.guards (some ctx) moved = true then
        row target.column.text = lastState c.transitions ∨ movable c ctx target row
      else
        row target.column.text = moved target.column.text ∨
          movable c ctx target row ∧ moved target.column.text = lastState c.transitions

variable {env c ctx input} {faults : Faults} {s t : TxState}

theorem plan_after_update {p : Plan} {e : Engine} (h : ∀ table conds, p.stmt ≠ .delete table conds)
    (rows : List Row) : p.after e rows = rows.map (p.write e) := by
  unfold Plan.after
  split
  next table conds hstmt => exact absurd hstmt (h table conds)
  · rfl

/-- A statement that is no DELETE writes the rows of its table. -/
theorem runPlan_write {p : Plan} {rows : List Row} {name : Ident}
    (h : runPlan env faults p s = .ok (rows, t)) (htable : p.stmt.table = name)
    (hstmt : ∀ table conds, p.stmt ≠ .delete table conds) :
    t.db.tables (tableOf name) = (s.db.tables (tableOf name)).map (p.write env.engine) := by
  subst htable
  rw [(runPlan_ok h).2, plan_after_update hstmt, Db.tables_setTable]

theorem applyUpdates_stmt {h : Hooks} {ctx : Option Ctx} {input : Slot} {eff : UpdatesEffect}
    {p : Plan} (hp : applyUpdates h ctx input eff = .ok p) :
    p.stmt.table = eff.resource.name ∧ ∀ table conds, p.stmt ≠ .delete table conds := by
  obtain ⟨bound, found, -, ⟨-, -, rfl⟩ | ⟨-, rfl⟩⟩ := applyUpdates_cases hp
  · exact ⟨rfl, fun _ _ h => by cases h⟩
  · exact ⟨rfl, fun _ _ h => by cases h⟩

/-- Rows that a SELECT gives back are rows of the table. -/
theorem returned_select (e : Engine) (projection : String) (table : Ident) (conds : List Cond)
    (tail : String) (values : List Value) (rows : List Row) :
    (Plan.mk (.select projection table conds tail) values).returned e rows =
      (Plan.mk (.select projection table conds tail) values).found e rows :=
  List.map_id' _

theorem checkLocked_ok {target : LifecycleTarget} {ts : List TransitionAdvance}
    {found : List Row} (h : checkLocked target ts found = .ok ()) :
    ∃ row rest, found = row :: rest ∧ firstAllows ts (row target.column.text) = true := by
  unfold checkLocked at h
  split at h
  · cases h
  · cases h
  next first rest' row rest =>
    refine ⟨row, rest, rfl, ?_⟩
    split at h
    next actual hactual =>
      split at h
      next allowed =>
        rw [hactual]
        exact allowed
      · cases h
    · cases h

theorem lockTransitions_ok {locked : Option LifecycleTarget} (nonempty : c.transitions ≠ [])
    (h : lockTransitions env c input faults ctx s = .ok (locked, t)) :
    ∃ target, lifecycleTarget env c input ctx = .ok target ∧ locked = some target ∧
      t.db = s.db ∧ ∃ row rest,
        (s.db.tables (tableOf target.resource.name)).filter (target.guards (some ctx)) =
          row :: rest ∧ firstAllows c.transitions (row target.column.text) = true := by
  unfold lockTransitions at h
  rw [if_neg nonempty] at h
  obtain ⟨target, s₁, htarget, h₁⟩ := Tx.bind_eq_ok.mp h
  obtain ⟨p, s₂, hp, h₂⟩ := Tx.bind_eq_ok.mp h₁
  obtain ⟨rows, s₃, hrun, h₃⟩ := Tx.bind_eq_ok.mp h₂
  obtain ⟨_, s₄, hcheck, h₄⟩ := Tx.bind_eq_ok.mp h₃
  obtain ⟨htarget, hs₁⟩ := Tx.lift_eq_ok.mp htarget
  obtain ⟨hp, hs₂⟩ := Tx.lift_eq_ok.mp hp
  obtain ⟨hcheck, hs₄⟩ := Tx.lift_eq_ok.mp hcheck
  obtain ⟨hlocked, ht⟩ := Tx.pure_eq_ok.mp h₄
  have touched : p.touches env.engine.server = target.guards (some ctx) := by
    funext row
    exact touches_lock hp row
  obtain ⟨found, -, hfound⟩ := bind_eq_ok.mp hp
  obtain rfl := Except.ok.inj hfound
  have hrows := (runPlan_ok hrun).1
  rw [returned_select, Plan.found, touched, hs₂, hs₁] at hrows
  obtain ⟨row, rest, hfirst, allowed⟩ := checkLocked_ok hcheck
  refine ⟨target, htarget, hlocked.symm, ?_, row, rest, hrows.symm.trans hfirst, allowed⟩
  calc
    t.db = s₃.db := by rw [← ht, hs₄]
    _ = s₂.db := runPlan_select hrun
    _ = s.db := by rw [hs₂, hs₁]

/-- The effect of a command with a lifecycle target is an update of the target's table. -/
theorem applyEffect_tables {target : LifecycleTarget} {res : Output × Ctx}
    (htarget : lifecycleTarget env c input ctx = .ok target)
    (h : applyEffect env c input faults ctx s = .ok (res, t)) :
    res.2 = ctx ∧ t.db.tables (tableOf target.resource.name) =
      (s.db.tables (tableOf target.resource.name)).map (effectWrite env c ctx input) := by
  unfold lifecycleTarget at htarget
  unfold applyEffect at h
  split at htarget
  next eff heffect =>
    rw [heffect] at h
    dsimp only at h
    obtain ⟨p, s₁, hp, h₁⟩ := Tx.bind_eq_ok.mp h
    obtain ⟨rows, s₂, hrun, h₂⟩ := Tx.bind_eq_ok.mp h₁
    obtain ⟨out, s₃, hscan, h₃⟩ := Tx.bind_eq_ok.mp h₂
    obtain ⟨hp, hs₁⟩ := Tx.lift_eq_ok.mp hp
    obtain ⟨-, hs₃⟩ := Tx.lift_eq_ok.mp hscan
    obtain ⟨hres, ht⟩ := Tx.pure_eq_ok.mp h₃
    obtain ⟨htable, hstmt⟩ := applyUpdates_stmt hp
    have hresource : target.resource = eff.resource := by
      unfold resolveLifecycleTarget at htarget
      split at htarget
      · cases htarget
      · obtain ⟨id, -, hid⟩ := bind_eq_ok.mp htarget
        rw [← Except.ok.inj hid]
    have hwrite : effectWrite env c ctx input = p.write env.engine := by
      funext row
      unfold effectWrite
      rw [heffect]
      dsimp only
      rw [hp]
    refine ⟨by rw [← hres], ?_⟩
    rw [← ht, hs₃, hresource, hwrite, ← hs₁]
    exact runPlan_write hrun htable hstmt
  · cases htarget

theorem advance_tables {target : LifecycleTarget} {u : Unit}
    (h : advanceTransitions env c faults ctx (some target) s = .ok (u, t)) :
    t.db.tables (tableOf target.resource.name) =
      (s.db.tables (tableOf target.resource.name)).map fun row =>
        if target.guards (some ctx) row = true then
          Function.update row target.column.text (lastState c.transitions) else row := by
  obtain ⟨p, s₁, hp, h₁⟩ := Tx.bind_eq_ok.mp h
  obtain ⟨rows, s₂, hrun, h₂⟩ := Tx.bind_eq_ok.mp h₁
  obtain ⟨hp, hs₁⟩ := Tx.lift_eq_ok.mp hp
  obtain ⟨-, ht⟩ := Tx.pure_eq_ok.mp h₂
  have hwrite : p.write env.engine = fun row => if target.guards (some ctx) row = true then
      Function.update row target.column.text (lastState c.transitions) else row := by
    funext row
    exact write_advance hp row
  obtain ⟨last, found, -, -, rfl⟩ := advance_eq hp
  rw [← ht, ← hwrite, ← hs₁]
  apply runPlan_write hrun
  · rfl
  · intro table conds hdelete
    cases hdelete

/-- A command with transitions whose transaction went through: the table was written by the
effect and by the advance. -/
theorem commandTx_tables {res : Output × Ctx} (nonempty : c.transitions ≠ [])
    (h : commandTx env c input faults ctx s = .ok (res, t)) :
    ∃ target, lifecycleTarget env c input ctx = .ok target ∧
      t.db.tables (tableOf target.resource.name) =
        (s.db.tables (tableOf target.resource.name)).map (moveRow env c ctx input target) ∧
      ∃ row rest,
        (s.db.tables (tableOf target.resource.name)).filter (target.guards (some ctx)) =
          row :: rest ∧ firstAllows c.transitions (row target.column.text) = true := by
  obtain ⟨locked, s₁, hlock, h₁⟩ := Tx.bind_eq_ok.mp h
  obtain ⟨res', s₂, heffect, h₂⟩ := Tx.bind_eq_ok.mp h₁
  obtain ⟨_, s₃, hadvance, h₃⟩ := Tx.bind_eq_ok.mp h₂
  obtain ⟨_, s₄, houtbox, h₄⟩ := Tx.bind_eq_ok.mp h₃
  obtain ⟨_, s₅, haudit, h₅⟩ := Tx.bind_eq_ok.mp h₄
  obtain ⟨-, ht⟩ := Tx.pure_eq_ok.mp h₅
  obtain ⟨target, htarget, rfl, hs₁, guarded⟩ := lockTransitions_ok nonempty hlock
  obtain ⟨hctx, hs₂⟩ := applyEffect_tables htarget heffect
  rw [hctx] at hadvance
  refine ⟨target, htarget, ?_, guarded⟩
  rw [← ht, writeAudit_tables haudit, writeOutbox_tables houtbox, advance_tables hadvance, hs₂, hs₁,
    List.map_map]
  rfl

/-- A call that succeeds with transitions. -/
theorem handle_tables {faults : Nat → Faults} {cancelled : Nat → Option Failure} {db : Db}
    {out : Output} (nonempty : c.transitions ≠ [])
    (h : (handle env c faults cancelled ctx input db).output = .ok out) :
    ∃ target, lifecycleTarget env c input ctx = .ok target ∧
      (handle env c faults cancelled ctx input db).db.tables (tableOf target.resource.name) =
        (db.tables (tableOf target.resource.name)).map (moveRow env c ctx input target) ∧
      ∃ row rest,
        (db.tables (tableOf target.resource.name)).filter (target.guards (some ctx)) =
          row :: rest ∧ firstAllows c.transitions (row target.column.text) = true := by
  have done := handled env c faults cancelled ctx input db
  generalize handle env c faults cancelled ctx input db = res at done h ⊢
  cases done with
  | refused e => cases h
  | returned _ empty _ => exact absurd empty nonempty
  | committed _ hbody => exact commandTx_tables nonempty hbody

end Moves

theorem forall_zip_map {α β : Type} {P : α × β → Prop} (f : α → β) (l : List α) :
    (∀ p ∈ l.zip (l.map f), P p) ↔ ∀ a ∈ l, P (a, f a) := by
  induction l with
  | nil => exact ⟨fun _ _ h => absurd h List.not_mem_nil, fun _ _ h => absurd h List.not_mem_nil⟩
  | cons a l ih =>
      rw [List.map_cons, List.zip_cons_cons, List.forall_mem_cons, List.forall_mem_cons, ih]

/-- One row: it may keep its state, or move when guard and chain allow it. -/
theorem row_admissible_iff {reached : Prop} [Decidable reached] {admitted : Prop}
    {before moved last : Value} :
    (before ≠ (if reached then last else moved) →
        admitted ∧ (if reached then last else moved) = last) ↔
      if reached then before = last ∨ admitted else before = moved ∨ admitted ∧ moved = last := by
  split
  · rw [and_iff_left rfl, ← or_iff_not_imp_left]
  · rw [← or_iff_not_imp_left]

/-- When a command with transitions succeeds, the rows it moved were admissible exactly when
guard, effect and advance reached the same rows. -/
theorem moves_admissible_iff (env : Env) (c : Command) (faults : Nat → Faults)
    (cancelled : Nat → Option Failure) (ctx : Ctx) (input : Slot) (db : Db) (out : Output)
    (nonempty : c.transitions ≠ [])
    (h : (handle env c faults cancelled ctx input db).output = .ok out) :
    MovesAdmissible env c ctx input db (handle env c faults cancelled ctx input db).db ↔
      ReachesChecked env c ctx input db := by
  obtain ⟨target, htarget, hafter, -⟩ := handle_tables nonempty h
  unfold MovesAdmissible ReachesChecked
  rw [htarget]
  have only {P : LifecycleTarget → Prop} :
      (∀ t, (.ok target : Except Failure LifecycleTarget) = .ok t → P t) ↔ P target := by
    constructor
    · exact fun all => all target rfl
    · rintro here t ⟨⟩
      exact here
  rw [only, only]
  dsimp only
  rw [hafter, List.length_map, and_iff_right rfl, forall_zip_map]
  apply forall₂_congr
  intro row _
  rw [← row_admissible_iff]
  have state : moveRow env c ctx input target row target.column.text =
      if target.guards (some ctx) (effectWrite env c ctx input row) = true then
        lastState c.transitions
      else effectWrite env c ctx input row target.column.text := by
    unfold moveRow
    split
    · exact Function.update_self ..
    · rfl
  dsimp only
  rw [state]

/-- With at most one row for the id, and an effect that leaves the lifecycle column and the
columns of the guard alone, only admissible rows move. -/
theorem reachesChecked_of_unique (env : Env) (c : Command) (faults : Nat → Faults)
    (cancelled : Nat → Option Failure) (ctx : Ctx) (input : Slot) (db : Db) (out : Output)
    (nonempty : c.transitions ≠ [])
    (h : (handle env c faults cancelled ctx input db).output = .ok out)
    (unique : ∀ target, lifecycleTarget env c input ctx = .ok target →
      ((db.tables (tableOf target.resource.name)).filter (target.guards (some ctx))).length ≤ 1)
    (kept : ∀ target, lifecycleTarget env c input ctx = .ok target → ∀ row,
      ∀ col ∈ [target.column.text, target.idColumn.text, "deleted_at", "org_id"],
        effectWrite env c ctx input row col = row col) :
    ReachesChecked env c ctx input db := by
  obtain ⟨target, htarget, -, row₀, rest, hguarded, allowed⟩ := handle_tables nonempty h
  intro target' htarget' row hrow
  obtain rfl : target = target' := Except.ok.inj (htarget.symm.trans htarget')
  have same : target.guards (some ctx) (effectWrite env c ctx input row) =
      target.guards (some ctx) row := by
    unfold LifecycleTarget.guards inScope
    rw [kept target htarget row target.idColumn.text (by simp),
      kept target htarget row "deleted_at" (by simp), kept target htarget row "org_id" (by simp)]
  dsimp only
  split
  next reached =>
    right
    rw [same] at reached
    have only := unique target htarget
    rw [hguarded, List.length_cons] at only
    have hrest : rest = [] := List.length_eq_zero_iff.mp (by omega)
    have hmem : row ∈ row₀ :: rest := by
      rw [← hguarded]
      exact List.mem_filter.mpr ⟨hrow, reached⟩
    rw [hrest, List.mem_singleton] at hmem
    subst hmem
    exact ⟨reached, allowed⟩
  · left
    exact (kept target htarget row target.column.text (by simp)).symm

/-! ### A task board -/

def plainEnv : Env where
  hooks := noHooks
  engine := ⟨⟨fun _ _ _ => [], fun _ _ => false⟩, fun _ => true, .time 0⟩
  fresh _ _ _ := .nil
  encodes _ := true
  defaultTenant _ := .ok none

/-- `updates` the tasks of a project, `triggers transition draft -> done`. -/
def closeTasks (column : Ident) : Command where
  name := "task.close"
  checks _ _ := .ok ()
  effect := some (.updates
    { resource := ⟨task.name, .none, false, false, false, fun _ => none, fun _ => none,
        fun _ => none⟩
      wheres := .single column (.const (.int 9))
      binds := .single ⟨"title", by decide⟩ (.const (.string "closed")) })
  transitions := [⟨"draft", [], "done"⟩]
  lifecycleColumn := none
  emits := []
  emitsTrace := []
  audit := none
  invalidates := []
  outputType := .other
  zero _ := .nil
  scan row := .ok row

/-- A task of project 9. -/
def taskRow (id : Int) (state : String) : Row
  | "id" => .int id
  | "project" => .int 9
  | "lifecycle_state" => .string state
  | _ => .nil

def taskBoard (rows : List Row) : Db := ⟨fun _ => rows, [], fun _ => []⟩

def noFaults : Nat → Faults := fun _ _ => none

theorem moves_admissible_iff_close :
    let c := closeTasks ⟨"id", by decide⟩
    let db := taskBoard [taskRow 9 "draft", taskRow 8 "archived"]
    MovesAdmissible plainEnv c member (.direct .nil) db
        (handle plainEnv c noFaults (fun _ => none) member (.direct .nil) db).db ↔
      ReachesChecked plainEnv c member (.direct .nil) db :=
  moves_admissible_iff plainEnv _ noFaults (fun _ => none) member (.direct .nil) _ _
    (List.cons_ne_nil _ _) rfl

/-- Two tasks of the project: the guard checks the first, the advance moves both. -/
theorem archived_task_moves :
    let c := closeTasks ⟨"project", by decide⟩
    let db := taskBoard [taskRow 7 "draft", taskRow 8 "archived"]
    let res := handle plainEnv c noFaults (fun _ => none) member (.direct .nil) db
    (∃ out, res.output = .ok out) ∧
      (db.tables (tableOf ⟨"Task", by decide⟩)).map (fun row => row "lifecycle_state") =
        [.string "draft", .string "archived"] ∧
      (res.db.tables (tableOf ⟨"Task", by decide⟩)).map (fun row => row "lifecycle_state") =
        [.string "done", .string "done"] ∧
      ¬ MovesAdmissible plainEnv c member (.direct .nil) db res.db := by
  refine ⟨⟨_, rfl⟩, rfl, rfl, ?_⟩
  intro moves
  obtain ⟨-, all⟩ := moves _ rfl
  obtain ⟨⟨-, allowed⟩, -⟩ := all _ (.tail _ (.head _)) (by decide)
  cases allowed

end Lazuli.Runtime
