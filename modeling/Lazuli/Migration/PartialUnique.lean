import Mathlib
import Lazuli.Migration.SqlCondition

/-!
Conditional uniqueness (`partial_unique_index_sql` in `emitter/migration_ddl/index.rs`).

The language reads a condition as true or false, with nil equal to nil and to nothing else. A
server indexes the rows of which the condition of the index is true, so not those where a side of
a comparison is NULL; and all rows when the condition had no SQL form.
-/

namespace Lazuli.Migration

open Ir General
open Lazuli.Runtime (Row Value sqlEq)

/-! ### The language -/

/-- What a language has beyond columns, literals and nil: how values compare, the operands that
are neither, and the predicates that are no comparison. -/
structure Reading where
  compares : Comparison
  operand : Expr → Row → Value
  holds : EvalPredicate → Row → Prop

namespace Reading

variable (lang : Reading)

def value (row : Row) : Expr → Value
  | .path p =>
      match p.segments with
      | [column] => row column
      | _ => lang.operand (.path p) row
  | .string s => .string s
  | .integer n => .int n
  | .boolean b => .bool b
  | .nil => .nil
  | e => lang.operand e row

/-- With nil on a side, equality is decided and there is no order. -/
def comparesNil (op : CompareOp) (a b : Value) : Bool :=
  if a = .nil ∨ b = .nil then
    match op with
    | .eq => a = b
    | .ne => a ≠ b
    | _ => false
  else lang.compares op a b

def Holds (row : Row) : EvalPredicate → Prop
  | .closed (.comparison left op right) =>
      lang.comparesNil op (lang.value row left) (lang.value row right) = true
  | p => lang.holds p row

end Reading

/-! ### Constraints and indexes -/

/-- The values in the columns are there and the same. -/
def Agree (columns : List String) (r s : Row) : Prop :=
  ∀ column ∈ columns, sqlEq (r column) (s column)

/-- With the column of an axis, as in an unconditional constraint. -/
def UniqueConstraint.columns (unique : UniqueConstraint) : List String :=
  unique.fields ++ (unique.per.map fun per => lowerSnake per ++ "_id").toList

/-- What the constraint forbids of two rows. -/
def Forbids (lang : Reading) (unique : UniqueConstraint) (r s : Row) : Prop :=
  Agree (UniqueConstraint.columns unique) r s ∧
    ∀ p ∈ unique.when, lang.Holds r p ∧ lang.Holds s p

/-- The server takes the row into the index. -/
def IndexStatement.Indexes (compares : Comparison) (i : IndexStatement) (row : Row) : Prop :=
  ∀ text ∈ i.condition, ∃ c : SqlCondition, c.sql = text ∧ c.eval compares row = some true

/-- It refuses one of two rows. -/
def IndexStatement.Rejects (compares : Comparison) (i : IndexStatement) (r s : Row) : Prop :=
  i.unique = true ∧ Agree i.columns r s ∧ i.Indexes compares r ∧ i.Indexes compares s

/-- The emitted index refuses one of two rows. -/
def Rejects (lang : Reading) (table : String) (unique : UniqueConstraint) (r s : Row) : Prop :=
  ∃ i, partialUniqueIndexSql table (.unique unique) = some i ∧ i.Rejects lang.compares r s

/-! ### What is indexed -/

/-- Columns and literals. -/
def isPlainOperand : Expr → Bool
  | .path p => p.segments.length = 1
  | .string _ | .integer _ | .boolean _ => true
  | _ => false

/-- An equality with nil, or a comparison of columns and literals. -/
def hasSqlForm : EvalPredicate → Bool
  | .closed (.comparison .nil op e) | .closed (.comparison e op .nil) =>
      isPlainOperand e && (op = .eq || op = .ne)
  | .closed (.comparison left _ right) => isPlainOperand left && isPlainOperand right
  | _ => false

/-- A side that is not written as nil is nil. -/
def ComparesNull (lang : Reading) (row : Row) : EvalPredicate → Prop
  | .closed (.comparison .nil _ _) | .closed (.comparison _ _ .nil) => False
  | .closed (.comparison left _ right) =>
      lang.value row left = .nil ∨ lang.value row right = .nil
  | _ => False

/-- A predicate with a SQL form counts when it is true and compares no null, another one always. -/
def Counts (lang : Reading) (p : EvalPredicate) (row : Row) : Prop :=
  hasSqlForm p = true → lang.Holds row p ∧ ¬ComparesNull lang row p

section Counts

variable {lang : Reading} {row : Row} {left right e : Expr} {op : CompareOp} {p : EvalPredicate}
  {o : SqlOperand} {c : SqlCondition}

theorem besideNil_right (left : Expr) : besideNil left .nil = some left := by
  cases left <;> rfl

theorem besideNil_of_ne (hl : left ≠ .nil) (hr : right ≠ .nil) : besideNil left right = none := by
  cases left <;> cases right <;> first | rfl | exact absurd rfl hl | exact absurd rfl hr

theorem hasSqlForm_nil_right : hasSqlForm (.closed (.comparison left op .nil)) =
    (isPlainOperand left && (op = .eq || op = .ne)) := by
  cases left <;> rfl

theorem hasSqlForm_of_ne (hl : left ≠ .nil) (hr : right ≠ .nil) :
    hasSqlForm (.closed (.comparison left op right)) =
      (isPlainOperand left && isPlainOperand right) := by
  cases left <;> cases right <;> first | rfl | exact absurd rfl hl | exact absurd rfl hr

theorem not_comparesNull_right : ¬ComparesNull lang row (.closed (.comparison left op .nil)) := by
  cases left <;> exact id

theorem comparesNull_of_ne (hl : left ≠ .nil) (hr : right ≠ .nil) :
    ComparesNull lang row (.closed (.comparison left op right)) ↔
      lang.value row left = .nil ∨ lang.value row right = .nil := by
  cases left <;> cases right <;> first | rfl | exact absurd rfl hl | exact absurd rfl hr

theorem isSome_operand (e : Expr) : (SqlOperand.of e).isSome = isPlainOperand e := by
  cases e with
  | path p => rcases p with ⟨_ | ⟨column, _ | ⟨next, rest⟩⟩⟩ <;> rfl
  | string s => rfl
  | integer n => rfl
  | boolean b => rfl
  | enum name => rfl
  | nil => rfl
  | fnCall name args => rfl

theorem value_operand (lang : Reading) (h : SqlOperand.of e = some o) :
    o.value row = lang.value row e := by
  cases e with
  | path p =>
      rcases p with ⟨_ | ⟨column, _ | ⟨next, rest⟩⟩⟩ <;> cases h
      rfl
  | string s =>
      cases h
      rfl
  | integer n =>
      cases h
      rfl
  | boolean b =>
      cases h
      rfl
  | enum name => cases h
  | nil => cases h
  | fnCall name args => cases h

/-- A test for NULL is the comparison with nil. -/
theorem eval_ofNil (h : SqlOperand.of e = some o) (of : SqlCondition.ofNil op o = some c) :
    c.eval lang.compares row = some true ↔
      lang.comparesNil op (lang.value row e) .nil = true := by
  cases op with
  | eq =>
      cases of
      simp [SqlCondition.eval, value_operand lang h, Reading.comparesNil]
  | ne =>
      cases of
      simp [SqlCondition.eval, value_operand lang h, Reading.comparesNil]
  | lt => cases of
  | le => cases of
  | gt => cases of
  | ge => cases of

theorem comparesNil_comm (h : op = .eq ∨ op = .ne) (v : Value) :
    lang.comparesNil op .nil v = lang.comparesNil op v .nil := by
  rcases h with rfl | rfl
  · simp [Reading.comparesNil, eq_comm]
  · simp [Reading.comparesNil, eq_comm]

theorem eval_compare (hl : SqlOperand.of left = some o) {o' : SqlOperand}
    (hr : SqlOperand.of right = some o') :
    (SqlCondition.compare o op o').eval lang.compares row = some true ↔
      lang.comparesNil op (lang.value row left) (lang.value row right) = true ∧
        ¬(lang.value row left = .nil ∨ lang.value row right = .nil) := by
  simp only [SqlCondition.eval, value_operand lang hl, value_operand lang hr,
    Reading.comparesNil]
  by_cases null : lang.value row left = .nil ∨ lang.value row right = .nil
  · rw [if_pos null]
    exact iff_of_false nofun fun h => h.2 null
  · rw [if_neg null, if_neg null, Option.some_inj]
    exact (and_iff_left null).symm

theorem ofComparison_nil_left :
    SqlCondition.ofComparison .nil op e = (SqlOperand.of e).bind (SqlCondition.ofNil op) :=
  Option.or_none

theorem ofComparison_nil_right :
    SqlCondition.ofComparison e op .nil = (SqlOperand.of e).bind (SqlCondition.ofNil op) := by
  rw [SqlCondition.ofComparison, besideNil_right, Option.bind_some]
  cases SqlOperand.of e with
  | none => rfl
  | some o => exact Option.or_none

theorem ofComparison_of_ne (hl : left ≠ .nil) (hr : right ≠ .nil) :
    SqlCondition.ofComparison left op right = (SqlOperand.of left).bind fun l =>
      (SqlOperand.of right).map fun r => .compare l op r := by
  rw [SqlCondition.ofComparison, besideNil_of_ne hl hr]
  cases SqlOperand.of left with
  | none => rfl
  | some l => cases SqlOperand.of right <;> rfl

theorem isSome_ofNil (e : Expr) (op : CompareOp) :
    ((SqlOperand.of e).bind (SqlCondition.ofNil op)).isSome =
      (isPlainOperand e && (op = .eq || op = .ne)) := by
  rw [← isSome_operand]
  cases SqlOperand.of e with
  | none => rfl
  | some o => cases op <;> rfl

theorem isSome_condition (p : EvalPredicate) : (SqlCondition.of p).isSome = hasSqlForm p := by
  cases p with
  | closed p =>
      cases p with
      | comparison left op right =>
          rw [SqlCondition.of]
          by_cases hl : left = .nil
          · rw [hl, ofComparison_nil_left, isSome_ofNil, hasSqlForm]
          · by_cases hr : right = .nil
            · rw [hr, ofComparison_nil_right, isSome_ofNil, hasSqlForm_nil_right]
            · rw [ofComparison_of_ne hl hr, hasSqlForm_of_ne hl hr, ← isSome_operand,
                ← isSome_operand]
              cases SqlOperand.of left with
              | none => rfl
              | some l => cases SqlOperand.of right <;> rfl
      | has collection element => rfl
      | and terms => rfl
      | or terms => rfl
  | contains text => rfl
  | toolsCalls text => rfl
  | unparsed text => rfl

/-- A condition is true of a row when the predicate is and compares no null. -/
theorem eval_iff (of : SqlCondition.of p = some c) :
    c.eval lang.compares row = some true ↔ lang.Holds row p ∧ ¬ComparesNull lang row p := by
  cases p with
  | closed p =>
      cases p with
      | comparison left op right =>
          rw [SqlCondition.of] at of
          by_cases hl : left = .nil
          · rw [hl, ofComparison_nil_left] at of
            obtain ⟨o, operand, test⟩ := Option.bind_eq_some_iff.mp of
            have decided : op = .eq ∨ op = .ne := by
              cases op <;> first | exact .inl rfl | exact .inr rfl | cases test
            rw [eval_ofNil operand test, hl, ← comparesNil_comm decided]
            exact (and_iff_left id).symm
          · by_cases hr : right = .nil
            · rw [hr, ofComparison_nil_right] at of
              obtain ⟨o, operand, test⟩ := Option.bind_eq_some_iff.mp of
              rw [eval_ofNil operand test, hr]
              exact (and_iff_left not_comparesNull_right).symm
            · rw [ofComparison_of_ne hl hr] at of
              obtain ⟨l, operandL, of⟩ := Option.bind_eq_some_iff.mp of
              obtain ⟨r, operandR, rfl⟩ := Option.map_eq_some_iff.mp of
              rw [eval_compare operandL operandR, comparesNull_of_ne hl hr]
              rfl
      | has collection element => cases of
      | and terms => cases of
      | or terms => cases of
  | contains text => cases of
  | toolsCalls text => cases of
  | unparsed text => cases of

/-- The rows that the emitted condition lets into the index. -/
theorem indexes_iff_counts (p : EvalPredicate) : (∀ text ∈ evalPredicateSql p,
    ∃ c : SqlCondition, c.sql = text ∧ c.eval lang.compares row = some true) ↔
      Counts lang p row := by
  rw [evalPredicateSql_eq, Counts, ← isSome_condition]
  cases of : SqlCondition.of p with
  | none => exact iff_of_true nofun nofun
  | some c =>
      rw [← eval_iff of]
      constructor
      · intro indexed _
        obtain ⟨c', same, holds⟩ := indexed c.sql rfl
        rwa [sql_injective same] at holds
      · intro counts text mem
        exact ⟨c, Option.some_inj.mp mem, counts rfl⟩

end Counts

/-! ### The emitted index -/

section Index

variable {unique : UniqueConstraint} {p : EvalPredicate}

theorem exists_index (table : String) (when : unique.when = some p) (fields : unique.fields ≠ []) :
    ∃ i, partialUniqueIndexSql table (.unique unique) = some i ∧ i.unique = true ∧
      i.columns = unique.fields ∧ i.condition = evalPredicateSql p :=
  ⟨_, by rw [partialUniqueIndexSql, when, Option.bind_some, if_neg fields], rfl, rfl, rfl⟩

theorem columns_of_not_per (per : unique.per = none) :
    UniqueConstraint.columns unique = unique.fields := by
  rw [UniqueConstraint.columns, per]
  exact List.append_nil _

/-- The index refuses one of two rows when they agree on the columns and the condition counts in
both. -/
theorem rejects_iff (lang : Reading) (table : String) (when : unique.when = some p)
    (fields : unique.fields ≠ []) (per : unique.per = none) (r s : Row) :
    Rejects lang table unique r s ↔
      Agree (UniqueConstraint.columns unique) r s ∧ Counts lang p r ∧ Counts lang p s := by
  obtain ⟨i, emitted, once, columns, condition⟩ := exists_index table when fields
  have rejects : Rejects lang table unique r s ↔ i.Rejects lang.compares r s := by
    constructor
    · rintro ⟨i', emitted', rejects⟩
      rwa [Option.some_inj.mp (emitted.symm.trans emitted')]
    · exact fun rejects => ⟨i, emitted, rejects⟩
  rw [rejects, IndexStatement.Rejects, columns, columns_of_not_per per]
  simp only [IndexStatement.Indexes, condition, indexes_iff_counts, once, true_and]

end Index

/-- Names of live rows. -/
def liveName : UniqueConstraint where
  fields := ["name"]
  when := some (.closed (.comparison (.path ⟨["deleted_at"]⟩) .eq .nil))

/-- Names of active rows, by a constant of an enum. -/
def activeName : UniqueConstraint where
  fields := ["name"]
  when := some (.closed (.comparison (.path ⟨["status"]⟩) .eq (.enum "active")))

/-- A constant of an enum is its name. -/
def named : Reading where
  compares op a b := op = .eq && a = b || op = .ne && a ≠ b
  operand e _ :=
    match e with
    | .enum name => .string name
    | _ => .nil
  holds _ _ := False

def archived (id : Int) : Row := fun column =>
  if column = "id" then .int id
  else if column = "name" then .string "draft"
  else if column = "status" then .string "archived"
  else .nil

theorem rejects_iff_of_live : Rejects named "page" liveName (archived 1) (archived 2) ↔
    Agree (UniqueConstraint.columns liveName) (archived 1) (archived 2) ∧
      Counts named (.closed (.comparison (.path ⟨["deleted_at"]⟩) .eq .nil)) (archived 1) ∧
      Counts named (.closed (.comparison (.path ⟨["deleted_at"]⟩) .eq .nil)) (archived 2) :=
  rejects_iff named "page" rfl (List.cons_ne_nil _ _) rfl (archived 1) (archived 2)

/-- The constant has no SQL form, so the index is about archived rows too. -/
theorem archived_rejected : ¬(Rejects named "page" activeName (archived 1) (archived 2) ↔
    Forbids named activeName (archived 1) (archived 2)) := by
  intro claim
  have agree : Agree ["name"] (archived 1) (archived 2) := List.forall_mem_singleton.mpr rfl
  have rejects : Rejects named "page" activeName (archived 1) (archived 2) :=
    ⟨_, rfl, rfl, agree, nofun, nofun⟩
  have holds := ((claim.mp rejects).2 _ rfl).1
  cases holds

end Lazuli.Migration
