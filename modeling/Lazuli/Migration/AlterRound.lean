import Lazuli.Migration.AlterTable

/-!
Altering a table forward and back (`diff` in `emitter/schema_diff/mod.rs`, `render_alter_up` and
`render_alter_down` in `emitter/migration_ddl/alter_table.rs`).

What a server does with a script is a list of edits of different columns. With drops allowed and
every cast in the catalogue, the edits of the first script lead from the columns of the one schema
to those of the other, and the edits of the second one back.
-/

namespace Lazuli.Migration.Alter

open General

/-! ### What a server does -/

def Statement.table : Statement → String
  | .add row => row.table
  | .drop table _ => table
  | .retype change => change.table

def Statement.edit : Statement → Edit String String
  | .add row => .add row.column row.sqlType
  | .drop _ column => .drop column
  | .retype change => .retype change.column change.newSqlType

/-- The statement adds the column, or drops it. -/
def Statement.Moves (column : String) : Statement → Prop
  | .add row => row.column = column
  | .drop _ dropped => dropped = column
  | .retype _ => False

/-- The columns of a table after the live statements of a script, unless one of them fails. -/
def applyScript (table : String) (lines : List Line) (columns : List (String × String)) :
    Option (List (String × String)) :=
  Edit.run (((liveStatements lines).filter fun s => s.table = table).map Statement.edit) columns

def typedColumns (schema : ResourceSchema) : List (String × String) :=
  schema.columns.map fun column => (column.name, column.sqlType)

/-- The difference of two schemas of a table, as the emitter takes it. Whether columns may be null
and their defaults are up to the caller. -/
structure SchemaDiff.Of (diff : SchemaDiff) (table : String) (d : Migration.SchemaDiff) :
    Prop where
  adds : (diff.adds.map fun add => (add.table, add.column, add.sqlType)) =
    d.adds.map fun column => (table, column.name, column.sqlType)
  drops : (diff.drops.map fun drop => (drop.table, drop.column, drop.previousSqlType)) =
    d.drops.map fun column => (table, column.name, column.sqlType)
  typeChanges : (diff.typeChanges.map fun change =>
      (change.table, change.column, change.previousSqlType, change.newSqlType)) =
    d.typeChanges.map fun change => (table, change.column, change.oldType, change.newType)

/-! ### Live statements -/

section Live

variable {α : Type} {diff : SchemaDiff} {options : AlterEmitOptions} {s : Statement}

theorem liveStatements_append (l l' : List Line) :
    liveStatements (l ++ l') = liveStatements l ++ liveStatements l' := List.filterMap_append

theorem liveStatements_part (spaced : Bool) (title : String) (lines : List Line) :
    liveStatements (part spaced title lines) = liveStatements lines := by
  unfold part
  cases lines with
  | nil => rfl
  | cons line lines => cases spaced <;> rfl

theorem liveStatements_warning : liveStatements (warning diff options) = [] := by
  simp only [warning]
  split
  · rw [liveStatements_append, liveStatements_append]
    split <;> split <;> rfl
  · rfl

theorem liveStatements_header (sourceLabel subject : String) :
    liveStatements (header sourceLabel subject) = [] := rfl

theorem head_append {s : String} {first : Char} (h : s.toList.head? = some first) (t : String) :
    (s ++ t).toList.head? = some first := by
  rw [String.toList_append, List.head?_append, h, Option.some_or]

theorem head_text (s : Statement) : s.text.toList.head? = some 'A' := by
  have front : "ALTER TABLE ".toList.head? = some 'A' := rfl
  cases s <;>
    · unfold Statement.text
      repeat' refine head_append ?_ _
      exact front

/-- In the text of a script, the live statements are the lines that are neither blank nor start
with a comment. -/
theorem isSome_run_iff (line : Line) :
    line.run.isSome ↔ line.text ≠ "" ∧ ¬∃ rest, line.text = "-- " ++ rest := by
  cases line with
  | blank => simp [Line.run, Line.text]
  | comment text => simp [Line.run, Line.text]
  | statement live s =>
      cases live with
      | false => simp [Line.run, Line.text]
      | true =>
          refine iff_of_true rfl ?_
          have front : (Line.statement true s).text.toList.head? = some 'A' := head_text s
          constructor
          · intro empty
            rw [empty] at front
            cases front
          · rintro ⟨behind, eq⟩
            rw [eq, String.toList_append] at front
            cases front

/-- Of sorted rows, the statements of those that are live. -/
theorem liveStatements_rows (column : α → String) (live : α → Bool) (statement : α → Statement)
    (rows : List α) :
    (liveStatements
      ((byColumn column rows).map fun row => .statement (live row) (statement row))).Perm
      ((rows.filter live).map statement) := by
  have sorted : ∀ rows : List α,
      liveStatements (rows.map fun row => .statement (live row) (statement row)) =
        (rows.filter live).map statement := by
    intro rows
    induction rows with
    | nil => rfl
    | cons row rows ih =>
        rw [List.map_cons, liveStatements, List.filterMap_cons, List.filter_cons]
        cases live row with
        | true => exact congrArg (statement row :: ·) ih
        | false => exact ih
  rw [sorted]
  exact ((List.mergeSort_perm rows _).filter live).map statement

theorem perm_renderAlterUp (feature resource sourceLabel : String) (diff : SchemaDiff)
    (options : AlterEmitOptions) :
    (liveStatements (renderAlterUp feature resource sourceLabel diff options)).Perm
      (diff.adds.map .add ++ (diff.drops.filter fun _ => options.allowDrops).map ColumnDrop.up ++
        (diff.typeChanges.filter TypeChange.safe).map .retype) := by
  simp only [renderAlterUp, liveStatements_append, liveStatements_part, liveStatements_header,
    liveStatements_warning, List.nil_append]
  have adds := liveStatements_rows ColumnAdd.column (fun _ => true) Statement.add diff.adds
  rw [List.filter_true] at adds
  exact (adds.append (liveStatements_rows _ _ _ _)).append (liveStatements_rows _ _ _ _)

theorem perm_renderAlterDown (feature resource sourceLabel : String) (diff : SchemaDiff)
    (options : AlterEmitOptions) :
    (liveStatements (renderAlterDown feature resource sourceLabel diff options)).Perm
      (diff.adds.map ColumnAdd.down ++
        (diff.drops.filter fun _ => options.allowDrops).map ColumnDrop.down ++
        (diff.typeChanges.filter TypeChange.safe).map TypeChange.down) := by
  simp only [renderAlterDown, liveStatements_append, liveStatements_part, liveStatements_header,
    List.nil_append]
  have adds := liveStatements_rows ColumnAdd.column (fun _ => true) ColumnAdd.down diff.adds
  rw [List.filter_true] at adds
  have parts := ((liveStatements_rows TypeChange.column TypeChange.safe TypeChange.down
    diff.typeChanges).append (liveStatements_rows ColumnDrop.column
      (fun _ => options.allowDrops) ColumnDrop.down diff.drops)).append adds
  refine parts.trans (List.perm_append_comm.trans ?_)
  rw [List.append_assoc]
  exact List.Perm.append_left _ List.perm_append_comm

end Live

/-! ### The difference of two schemas -/

section Diff

variable {b c schema : ResourceSchema} {x : Column} {k : String}

theorem typeOf_typedColumns :
    Edit.typeOf (typedColumns schema) k = (schema.find k).map (·.sqlType) := by
  rw [Edit.typeOf, typedColumns, List.find?_map, Option.map_map]
  rfl

theorem names_typedColumns (schema : ResourceSchema) :
    (typedColumns schema).map (·.1) = schema.columns.map (·.name) := by
  rw [typedColumns, List.map_map]
  rfl

theorem typeOf_of_mem (names : (schema.columns.map (·.name)).Nodup) (mem : x ∈ schema.columns) :
    Edit.typeOf (typedColumns schema) x.name = some x.sqlType :=
  (Edit.mem_iff_typeOf (names_typedColumns schema ▸ names)).mp (List.mem_map_of_mem mem)

theorem exists_of_typeOf {t : String} (found : Edit.typeOf (typedColumns schema) k = some t) :
    ∃ x ∈ schema.columns, x.name = k ∧ x.sqlType = t ∧ schema.find k = some x := by
  rw [typeOf_typedColumns] at found
  obtain ⟨x, hx, rfl⟩ := Option.map_eq_some_iff.mp found
  exact ⟨x, List.mem_of_find?_eq_some hx, of_decide_eq_true (List.find?_some hx :), rfl, hx⟩

theorem mem_adds : x ∈ (diff b c).adds ↔
    x ∈ c.columns ∧ Edit.typeOf (typedColumns b) x.name = none := by
  rw [typeOf_typedColumns, Option.map_eq_none_iff, ← Option.isNone_iff_eq_none]
  exact List.mem_filter

theorem mem_drops : x ∈ (diff b c).drops ↔
    x ∈ b.columns ∧ Edit.typeOf (typedColumns c) x.name = none := by
  rw [typeOf_typedColumns, Option.map_eq_none_iff, ← Option.isNone_iff_eq_none]
  exact List.mem_filter

theorem mem_typeChanges {change : Migration.TypeChange} : change ∈ (diff b c).typeChanges ↔
    ∃ x ∈ c.columns, Edit.typeOf (typedColumns b) x.name = some change.oldType ∧
      change.oldType ≠ x.sqlType ∧ change.column = x.name ∧ change.newType = x.sqlType := by
  simp only [diff, List.mem_filterMap, typeChange, Option.bind_eq_some_iff,
    Option.ite_none_right_eq_some, typeOf_typedColumns, Option.map_eq_some_iff]
  constructor
  · rintro ⟨x, mem, old, found, changed, eq⟩
    cases eq
    exact ⟨x, mem, ⟨old, found, rfl⟩, changed, rfl, rfl⟩
  · rintro ⟨x, mem, ⟨old, found, type⟩, changed, name, newType⟩
    refine ⟨x, mem, old, found, type ▸ changed, ?_⟩
    rw [type, ← name, ← newType]

theorem sublist_typeChanges :
    ((diff b c).typeChanges.map (·.column)).Sublist (c.columns.map (·.name)) := by
  have name : ∀ x change, typeChange b x = some change → change.column = x.name := by
    intro x change found
    obtain ⟨old, -, eq⟩ := Option.bind_eq_some_iff.mp found
    obtain ⟨-, eq⟩ := Option.ite_none_right_eq_some.mp eq
    cases eq
    rfl
  simp only [diff]
  induction c.columns with
  | nil => exact .slnil
  | cons x columns ih =>
      rw [List.filterMap_cons, List.map_cons]
      cases found : typeChange b x with
      | none => exact ih.cons _
      | some change =>
          simp only [List.map_cons, name x change found]
          exact ih.cons_cons _

end Diff

/-! ### The edits of a difference -/

def upEdits (d : Migration.SchemaDiff) : List (Edit String String) :=
  (d.adds.map fun x => .add x.name x.sqlType) ++ (d.drops.map fun x => .drop x.name) ++
    d.typeChanges.map fun change => .retype change.column change.newType

def downEdits (d : Migration.SchemaDiff) : List (Edit String String) :=
  (d.adds.map fun x => .drop x.name) ++ (d.drops.map fun x => .add x.name x.sqlType) ++
    d.typeChanges.map fun change => .retype change.column change.oldType

/-- The columns that differ. -/
def changedColumns (d : Migration.SchemaDiff) : List String :=
  d.adds.map (·.name) ++ d.drops.map (·.name) ++ d.typeChanges.map (·.column)

section Edits

variable {b c : ResourceSchema} {d : Migration.SchemaDiff} {k : String}

theorem columns_upEdits (d : Migration.SchemaDiff) :
    (upEdits d).map Edit.column = changedColumns d := by
  simp only [upEdits, changedColumns, List.map_append, List.map_map]
  rfl

theorem columns_downEdits (d : Migration.SchemaDiff) :
    (downEdits d).map Edit.column = changedColumns d := by
  simp only [downEdits, changedColumns, List.map_append, List.map_map]
  rfl

theorem nodup_changedColumns (namesB : (b.columns.map (·.name)).Nodup)
    (namesC : (c.columns.map (·.name)).Nodup) : (changedColumns (diff b c)).Nodup := by
  have adds : ((diff b c).adds.map (·.name)).Nodup := (List.filter_sublist.map _).nodup namesC
  have drops : ((diff b c).drops.map (·.name)).Nodup := (List.filter_sublist.map _).nodup namesB
  refine List.nodup_append'.mpr ⟨List.nodup_append'.mpr ⟨adds, drops, ?_⟩,
    sublist_typeChanges.nodup namesC, ?_⟩
  · intro k memAdds memDrops
    obtain ⟨x, add, rfl⟩ := List.mem_map.mp memAdds
    obtain ⟨y, drop, eq⟩ := List.mem_map.mp memDrops
    have absent := (mem_adds.mp add).2
    rw [← eq, typeOf_of_mem namesB (mem_drops.mp drop).1] at absent
    cases absent
  · intro k mem memChanges
    obtain ⟨change, changed, rfl⟩ := List.mem_map.mp memChanges
    obtain ⟨z, memZ, old, -, name, -⟩ := mem_typeChanges.mp changed
    rcases List.mem_append.mp mem with memAdds | memDrops
    · obtain ⟨x, add, eq⟩ := List.mem_map.mp memAdds
      have absent := (mem_adds.mp add).2
      rw [eq, name, old] at absent
      cases absent
    · obtain ⟨y, drop, eq⟩ := List.mem_map.mp memDrops
      have absent := (mem_drops.mp drop).2
      rw [eq, name, typeOf_of_mem namesC memZ] at absent
      cases absent

/-- A column that is neither added nor dropped and keeps its type. -/
theorem typeOf_eq_of_notMem (outside : k ∉ changedColumns (diff b c)) :
    Edit.typeOf (typedColumns b) k = Edit.typeOf (typedColumns c) k := by
  have notAdd : ∀ x ∈ (diff b c).adds, x.name ≠ k := fun x mem eq =>
    outside (List.mem_append_left _ (List.mem_append_left _ (List.mem_map.mpr ⟨x, mem, eq⟩)))
  have notDrop : ∀ x ∈ (diff b c).drops, x.name ≠ k := fun x mem eq =>
    outside (List.mem_append_left _ (List.mem_append_right _ (List.mem_map.mpr ⟨x, mem, eq⟩)))
  have notChange : ∀ change ∈ (diff b c).typeChanges, change.column ≠ k := fun change mem eq =>
    outside (List.mem_append_right _ (List.mem_map.mpr ⟨change, mem, eq⟩))
  cases inB : Edit.typeOf (typedColumns b) k with
  | none =>
      cases inC : Edit.typeOf (typedColumns c) k with
      | none => rfl
      | some t =>
          obtain ⟨x, mem, name, -, -⟩ := exists_of_typeOf inC
          exact absurd name (notAdd x (mem_adds.mpr ⟨mem, name ▸ inB⟩))
  | some old =>
      cases inC : Edit.typeOf (typedColumns c) k with
      | none =>
          obtain ⟨x, mem, name, -, -⟩ := exists_of_typeOf inB
          exact absurd name (notDrop x (mem_drops.mpr ⟨mem, name ▸ inC⟩))
      | some t =>
          obtain ⟨x, mem, name, type, -⟩ := exists_of_typeOf inC
          by_contra ne
          refine notChange ⟨x.name, old, x.sqlType⟩ (mem_typeChanges.mpr
            ⟨x, mem, name ▸ inB, fun eq => ne ?_, rfl, rfl⟩) name
          exact congrArg some (eq.trans type)

theorem leads_upEdits (namesB : (b.columns.map (·.name)).Nodup)
    (namesC : (c.columns.map (·.name)).Nodup) :
    Edit.Leads (upEdits (diff b c)) (Edit.typeOf (typedColumns b))
      (Edit.typeOf (typedColumns c)) where
  apart := by
    rw [columns_upEdits]
    exact nodup_changedColumns namesB namesC
  applies e mem := by
    rcases List.mem_append.mp mem with mem | mem
    · rcases List.mem_append.mp mem with mem | mem
      · obtain ⟨x, -, rfl⟩ := List.mem_map.mp mem
        trivial
      · obtain ⟨x, -, rfl⟩ := List.mem_map.mp mem
        trivial
    · obtain ⟨change, changed, rfl⟩ := List.mem_map.mp mem
      obtain ⟨x, -, old, -, name, -⟩ := mem_typeChanges.mp changed
      exact Option.isSome_iff_exists.mpr ⟨_, (name ▸ old :)⟩
  results e mem := by
    rcases List.mem_append.mp mem with mem | mem
    · rcases List.mem_append.mp mem with mem | mem
      · obtain ⟨x, add, rfl⟩ := List.mem_map.mp mem
        obtain ⟨memC, absent⟩ := mem_adds.mp add
        simp only [Edit.result, Edit.column, absent, typeOf_of_mem namesC memC, Option.none_or]
      · obtain ⟨x, drop, rfl⟩ := List.mem_map.mp mem
        exact (mem_drops.mp drop).2.symm
    · obtain ⟨change, changed, rfl⟩ := List.mem_map.mp mem
      obtain ⟨x, memC, old, -, name, newType⟩ := mem_typeChanges.mp changed
      simp only [Edit.result, Edit.column, name, old, typeOf_of_mem namesC memC, newType,
        Option.map_some]
  frame k outside := typeOf_eq_of_notMem (columns_upEdits (diff b c) ▸ outside)

theorem leads_downEdits (namesB : (b.columns.map (·.name)).Nodup)
    (namesC : (c.columns.map (·.name)).Nodup) :
    Edit.Leads (downEdits (diff b c)) (Edit.typeOf (typedColumns c))
      (Edit.typeOf (typedColumns b)) where
  apart := by
    rw [columns_downEdits]
    exact nodup_changedColumns namesB namesC
  applies e mem := by
    rcases List.mem_append.mp mem with mem | mem
    · rcases List.mem_append.mp mem with mem | mem
      · obtain ⟨x, -, rfl⟩ := List.mem_map.mp mem
        trivial
      · obtain ⟨x, -, rfl⟩ := List.mem_map.mp mem
        trivial
    · obtain ⟨change, changed, rfl⟩ := List.mem_map.mp mem
      obtain ⟨x, memC, -, -, name, -⟩ := mem_typeChanges.mp changed
      exact Option.isSome_iff_exists.mpr ⟨_, (name ▸ typeOf_of_mem namesC memC :)⟩
  results e mem := by
    rcases List.mem_append.mp mem with mem | mem
    · rcases List.mem_append.mp mem with mem | mem
      · obtain ⟨x, add, rfl⟩ := List.mem_map.mp mem
        exact (mem_adds.mp add).2.symm
      · obtain ⟨x, drop, rfl⟩ := List.mem_map.mp mem
        obtain ⟨memB, absent⟩ := mem_drops.mp drop
        simp only [Edit.result, Edit.column, absent, typeOf_of_mem namesB memB, Option.none_or]
    · obtain ⟨change, changed, rfl⟩ := List.mem_map.mp mem
      obtain ⟨x, memC, old, -, name, -⟩ := mem_typeChanges.mp changed
      simp only [Edit.result, Edit.column, name, old, typeOf_of_mem namesC memC, Option.map_some]
  frame k outside := (typeOf_eq_of_notMem (columns_downEdits (diff b c) ▸ outside)).symm

end Edits

/-! ### Forward and back -/

section Rounds

variable {b c : ResourceSchema} {d : Migration.SchemaDiff} {diff : SchemaDiff} {table : String}

theorem map_eq_of_rows {α β γ : Type} {row : α → β} {row' : γ → β} {l : List α} {l' : List γ}
    (eq : l.map row = l'.map row') {δ : Type} (f : β → δ) :
    (l.map fun r => f (row r)) = l'.map fun r => f (row' r) := by
  have same := congrArg (List.map f) eq
  rwa [List.map_map, List.map_map] at same

/-- Every row is about the table. -/
theorem SchemaDiff.Of.table_eq (of : diff.Of table d) :
    (∀ row ∈ diff.adds, row.table = table) ∧ (∀ row ∈ diff.drops, row.table = table) ∧
      ∀ row ∈ diff.typeChanges, row.table = table := by
  have adds : diff.adds.map (·.table) = d.adds.map fun _ => table :=
    map_eq_of_rows of.adds fun row => row.1
  have drops : diff.drops.map (·.table) = d.drops.map fun _ => table :=
    map_eq_of_rows of.drops fun row => row.1
  have changes : diff.typeChanges.map (·.table) = d.typeChanges.map fun _ => table :=
    map_eq_of_rows of.typeChanges fun row => row.1
  have constant : ∀ {α β : Type} {l : List α} {l' : List β} {f : α → String},
      l.map f = l'.map (fun _ => table) → ∀ row ∈ l, f row = table := by
    intro α β l l' f eq row mem
    have mem := List.mem_map_of_mem (f := f) mem
    rw [eq] at mem
    obtain ⟨-, -, same⟩ := List.mem_map.mp mem
    exact same.symm
  exact ⟨constant adds, constant drops, constant changes⟩

theorem SchemaDiff.Of.exists_add (of : diff.Of table d) {row : ColumnAdd} (mem : row ∈ diff.adds) :
    ∃ x ∈ d.adds, x.name = row.column := by
  have names : diff.adds.map (·.column) = d.adds.map (·.name) :=
    map_eq_of_rows of.adds fun row => row.2.1
  have mem := List.mem_map_of_mem (f := ColumnAdd.column) mem
  rw [names] at mem
  exact List.mem_map.mp mem

theorem SchemaDiff.Of.own (of : diff.Of table d) {add : ColumnAdd → Statement}
    {drop : ColumnDrop → Statement} {retype : TypeChange → Statement}
    (ofAdd : ∀ row, (add row).table = row.table) (ofDrop : ∀ row, (drop row).table = row.table)
    (ofRetype : ∀ row, (retype row).table = row.table) :
    ∀ s ∈ diff.adds.map add ++ diff.drops.map drop ++ diff.typeChanges.map retype,
      s.table = table := by
  obtain ⟨adds, drops, changes⟩ := of.table_eq
  intro s mem
  rcases List.mem_append.mp mem with front | memChanges
  · rcases List.mem_append.mp front with memAdds | memDrops
    · obtain ⟨row, added, rfl⟩ := List.mem_map.mp memAdds
      rw [ofAdd, adds row added]
    · obtain ⟨row, dropped, rfl⟩ := List.mem_map.mp memDrops
      rw [ofDrop, drops row dropped]
  · obtain ⟨row, changed, rfl⟩ := List.mem_map.mp memChanges
    rw [ofRetype, changes row changed]

theorem SchemaDiff.Of.upEdits_eq (of : diff.Of table d) :
    (diff.adds.map Statement.add ++ diff.drops.map ColumnDrop.up ++
      diff.typeChanges.map Statement.retype).map Statement.edit = upEdits d := by
  simp only [List.map_append, List.map_map, upEdits]
  congr 1
  · congr 1
    · exact map_eq_of_rows of.adds fun row => Edit.add row.2.1 row.2.2
    · exact map_eq_of_rows of.drops fun row => Edit.drop row.2.1
  · exact map_eq_of_rows of.typeChanges fun row => Edit.retype row.2.1 row.2.2.2

theorem SchemaDiff.Of.downEdits_eq (of : diff.Of table d) :
    (diff.adds.map ColumnAdd.down ++ diff.drops.map ColumnDrop.down ++
      diff.typeChanges.map TypeChange.down).map Statement.edit = downEdits d := by
  simp only [List.map_append, List.map_map, downEdits]
  congr 1
  · congr 1
    · exact map_eq_of_rows of.adds fun row => Edit.drop row.2.1
    · exact map_eq_of_rows of.drops fun row => Edit.add row.2.1 row.2.2
  · exact map_eq_of_rows of.typeChanges fun row => Edit.retype row.2.1 row.2.2.1

/-- A script whose live statements are those, in some order, and all about the table. -/
theorem exists_applyScript {lines : List Line} {statements : List Statement}
    {columns before after : List (String × String)}
    (perm : (liveStatements lines).Perm statements) (own : ∀ s ∈ statements, s.table = table)
    (leads : Edit.Leads (statements.map Statement.edit) (Edit.typeOf before) (Edit.typeOf after))
    (start : columns.Perm before) (distinct : (before.map (·.1)).Nodup)
    (distinct' : (after.map (·.1)).Nodup) :
    ∃ columns', applyScript table lines columns = some columns' ∧ columns'.Perm after := by
  have all : (liveStatements lines).filter (fun s => s.table = table) = liveStatements lines :=
    List.filter_eq_self.mpr fun s mem => decide_eq_true (own s (perm.mem_iff.mp mem))
  have nodup : (columns.map (·.1)).Nodup := (start.map _).nodup_iff.mpr distinct
  have types : Edit.typeOf columns = Edit.typeOf before :=
    funext fun k => Edit.typeOf_perm nodup start
  rw [← types] at leads
  rw [applyScript, all]
  exact (leads.perm (perm.map Statement.edit)).exists_run_perm nodup distinct'

end Rounds

/-- A note whose text becomes a document, with a column more and one less. -/
def noteBefore : ResourceSchema :=
  ⟨[⟨"id", "BIGINT", false, none⟩, ⟨"body", "TEXT", true, none⟩, ⟨"author", "TEXT", true, none⟩]⟩

def noteAfter : ResourceSchema :=
  ⟨[⟨"id", "BIGINT", false, none⟩, ⟨"body", "JSONB", true, none⟩,
    ⟨"pinned", "BOOLEAN", false, some "FALSE"⟩]⟩

def noteDiff : SchemaDiff where
  adds := [⟨"note", "pinned", "BOOLEAN", true, some (.raw "FALSE")⟩]
  drops := [⟨"note", "author", "TEXT", false, none⟩]
  typeChanges := [⟨"note", "body", "TEXT", "JSONB"⟩]

theorem noteDiff_of : noteDiff.Of "note" (Migration.diff noteBefore noteAfter) := ⟨rfl, rfl, rfl⟩

end Lazuli.Migration.Alter
