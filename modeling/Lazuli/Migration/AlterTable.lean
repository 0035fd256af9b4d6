import Lazuli.General.TableEdit
import Lazuli.Migration.SchemaDiff
import Lazuli.Migration.Topo

/-!
The scripts that alter a table (`emitter/migration_ddl/alter_table.rs`).

Of a difference of schemas the script makes a statement for each column, live or in a comment:
columns are added always, dropped when the caller allows it, and get another type when the cast is
one of the catalogue. The script that takes it back gates each statement as the first one did.
-/

namespace Lazuli.Migration.Alter

open General

/-! ### Differences -/

inductive AlterDefault where
  | string (s : String)
  | integer (n : Int)
  | boolean (b : Bool)
  | null
  | raw (text : String)
  deriving DecidableEq

def renderDefaultSql : AlterDefault → String
  | .string s => quoteText s
  | .integer n => toString n
  | .boolean b => if b then "TRUE" else "FALSE"
  | .null => "NULL"
  | .raw text => text

structure ColumnAdd where
  table : String
  column : String
  sqlType : String
  notNull : Bool
  default : Option AlterDefault
  deriving DecidableEq

/-- What the column was goes along, so that it can be added again. -/
structure ColumnDrop where
  table : String
  column : String
  previousSqlType : String
  previousNotNull : Bool
  previousDefault : Option AlterDefault
  deriving DecidableEq

structure TypeChange where
  table : String
  column : String
  previousSqlType : String
  newSqlType : String
  deriving DecidableEq

structure SchemaDiff where
  adds : List ColumnAdd
  drops : List ColumnDrop
  typeChanges : List TypeChange
  deriving DecidableEq

def SchemaDiff.isEmpty (diff : SchemaDiff) : Bool :=
  diff.adds.isEmpty && diff.drops.isEmpty && diff.typeChanges.isEmpty

/-! ### Casts -/

def safeCasts : List (String × String) :=
  [("TEXT", "JSONB"), ("TEXT", "JSON"), ("INTEGER", "BIGINT"), ("INT", "BIGINT"),
    ("INT4", "BIGINT"), ("INT4", "INT8"), ("SMALLINT", "INTEGER"), ("SMALLINT", "BIGINT"),
    ("VARCHAR", "TEXT"), ("CHAR", "TEXT")]

def upper (s : String) : String := String.ofList (upperCase s.toList)

def isSafeCast (old new : String) : Bool := (upper old, upper new) ∈ safeCasts

def TypeChange.safe (change : TypeChange) : Bool :=
  isSafeCast change.previousSqlType change.newSqlType

/-! ### Statements -/

inductive Statement where
  | add (row : ColumnAdd)
  | drop (table column : String)
  | retype (change : TypeChange)
  deriving DecidableEq

/-- A column that must not be null is added as one that may when it has no default, with a note
behind the statement. -/
def renderAlterAdd (add : ColumnAdd) : String :=
  "ALTER TABLE " ++ quoteIdent add.table ++ " ADD COLUMN IF NOT EXISTS " ++ sqlIdent add.column ++
    " " ++ add.sqlType ++ (if add.notNull && add.default.isSome then " NOT NULL" else "") ++
    (match add.default with
    | some default => " DEFAULT " ++ renderDefaultSql default
    | none => "") ++
    ";" ++
    if add.notNull && add.default.isNone then
      " -- TODO: backfill " ++ add.table ++ "." ++ add.column ++ ", then \x60ALTER TABLE " ++
        quoteIdent add.table ++ " ALTER COLUMN " ++ sqlIdent add.column ++ " SET NOT NULL;\x60"
    else ""

def renderAlterDrop (table column : String) : String :=
  "ALTER TABLE " ++ quoteIdent table ++ " DROP COLUMN IF EXISTS " ++ sqlIdent column ++ ";"

def renderAlterTypeChange (change : TypeChange) : String :=
  "ALTER TABLE " ++ quoteIdent change.table ++ " ALTER COLUMN " ++ sqlIdent change.column ++
    " TYPE " ++ change.newSqlType ++ " USING " ++ sqlIdent change.column ++ "::" ++
    String.ofList (change.newSqlType.toList.map Char.toLower) ++ ";"

def Statement.text : Statement → String
  | .add row => renderAlterAdd row
  | .drop table column => renderAlterDrop table column
  | .retype change => renderAlterTypeChange change

def ColumnAdd.down (add : ColumnAdd) : Statement := .drop add.table add.column

def ColumnDrop.up (drop : ColumnDrop) : Statement := .drop drop.table drop.column

/-- The column comes back with its previous shape. -/
def ColumnDrop.down (drop : ColumnDrop) : Statement :=
  .add
    { table := drop.table
      column := drop.column
      sqlType := drop.previousSqlType
      notNull := drop.previousNotNull
      default := drop.previousDefault }

def TypeChange.down (change : TypeChange) : Statement :=
  .retype
    { change with
      previousSqlType := change.newSqlType
      newSqlType := change.previousSqlType }

/-! ### Scripts -/

/-- A line of a script: nothing, a comment, or a statement, live or in a comment. -/
inductive Line where
  | blank
  | comment (text : String)
  | statement (live : Bool) (s : Statement)
  deriving DecidableEq

def Line.text : Line → String
  | .blank => ""
  | .comment text => "-- " ++ text
  | .statement live s => if live then s.text else "-- " ++ s.text

/-- The statement that a server runs. -/
def Line.run : Line → Option Statement
  | .statement true s => some s
  | _ => none

def liveStatements (lines : List Line) : List Statement := lines.filterMap Line.run

structure AlterEmitOptions where
  allowDrops : Bool

def byColumn {α : Type} (column : α → String) (rows : List α) : List α :=
  rows.mergeSort fun a b => decide (column a ≤ column b)

/-- A part of a script under its title, and a blank line before it when there is one already. -/
def part (spaced : Bool) (title : String) (lines : List Line) : List Line :=
  if lines.isEmpty then []
  else (if spaced then [.blank] else []) ++ .comment title :: lines

def header (sourceLabel subject : String) : List Line :=
  [.comment "Code generated by lazuli; DO NOT EDIT.",
    .comment ("source: " ++ commentValue sourceLabel), .comment subject]

def warning (diff : SchemaDiff) (options : AlterEmitOptions) : List Line :=
  let dropsCommented := !options.allowDrops && !diff.drops.isEmpty
  let unsafePresent := diff.typeChanges.any fun change => !change.safe
  if dropsCommented || unsafePresent then
    [.blank, .comment "WARNING:"] ++
      (if dropsCommented then
        [.comment ("  DROP COLUMN statements are COMMENTED OUT. Re-run " ++
            "\x60lazuli generate go --allow-drops\x60"),
          .comment "  to emit them as live SQL."]
      else []) ++
      if unsafePresent then
        [.comment ("  Some ALTER COLUMN TYPE casts are NOT in the safe catalog and are " ++
            "commented out."),
          .comment ("  Review the cast manually, write a backfill if needed, " ++
            "then uncomment.")]
      else []
  else []

def renderAlterUp (feature resource sourceLabel : String) (diff : SchemaDiff)
    (options : AlterEmitOptions) : List Line :=
  header sourceLabel ("alter for " ++ commentValue feature ++ "." ++ commentValue resource) ++
    warning diff options ++ [.blank] ++
    part false "ADDS"
      ((byColumn ColumnAdd.column diff.adds).map fun add => .statement true (.add add)) ++
    part (!diff.adds.isEmpty) "DROPS"
      ((byColumn ColumnDrop.column diff.drops).map fun drop =>
        .statement options.allowDrops drop.up) ++
    part (!diff.adds.isEmpty || !diff.drops.isEmpty) "TYPE CHANGES"
      ((byColumn TypeChange.column diff.typeChanges).map fun change =>
        .statement change.safe (.retype change))

def renderAlterDown (feature resource sourceLabel : String) (diff : SchemaDiff)
    (options : AlterEmitOptions) : List Line :=
  header sourceLabel
      ("rollback for " ++ commentValue feature ++ "." ++ commentValue resource ++ " alter") ++
    [.blank] ++
    part false "TYPE CHANGES (inverse)"
      ((byColumn TypeChange.column diff.typeChanges).map fun change =>
        .statement change.safe change.down) ++
    part (!diff.typeChanges.isEmpty) "DROPS (inverse: re-add)"
      ((byColumn ColumnDrop.column diff.drops).map fun drop =>
        .statement options.allowDrops drop.down) ++
    part (!diff.typeChanges.isEmpty || !diff.drops.isEmpty) "ADDS (inverse: drop)"
      ((byColumn ColumnAdd.column diff.adds).map fun add => .statement true add.down)

def contents (lines : List Line) : String := String.join (lines.map fun line => line.text ++ "\n")

/-- No files for an empty difference. -/
def emitAlterMigrationFile (sequence : Nat) (feature resource sourceLabel : String)
    (diff : SchemaDiff) (options : AlterEmitOptions) : Option (GeneratedFile × GeneratedFile) :=
  if diff.isEmpty then none
  else
    let stem := "migrations/" ++ paddedIndex sequence ++ "_" ++ feature ++ "_" ++
      lowerSnake resource ++ "_alter"
    some
      (⟨stem ++ ".sql", contents (renderAlterUp feature resource sourceLabel diff options)⟩,
        ⟨stem ++ ".down.sql",
          contents (renderAlterDown feature resource sourceLabel diff options)⟩)

end Lazuli.Migration.Alter
