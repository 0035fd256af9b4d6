import Lazuli.General.Lines
import Lazuli.Migration.Indexes

/-!
What changed between a migration and its resource (`emitter/schema_diff`).

The columns of a table are read twice: out of the text of its migration, line by line, and off the
resource. The two lists are compared by name and type.
-/

namespace Lazuli.Migration

open Ir
open General.Text (isWhitespace trim)
open General.Lines

/-! ### Schemas -/

structure Column where
  name : String
  sqlType : String
  nullable : Bool
  default : Option String := none
  deriving DecidableEq

structure TypeChange where
  column : String
  oldType : String
  newType : String
  deriving DecidableEq

structure ResourceSchema where
  columns : List Column
  deriving DecidableEq

def ResourceSchema.find (schema : ResourceSchema) (name : String) : Option Column :=
  schema.columns.find? fun c => c.name = name

structure SchemaDiff where
  adds : List Column
  drops : List Column
  typeChanges : List TypeChange
  deriving DecidableEq

def SchemaDiff.isEmpty (d : SchemaDiff) : Bool :=
  d.adds.isEmpty && d.drops.isEmpty && d.typeChanges.isEmpty

def typeChange (baseline : ResourceSchema) (column : Column) : Option TypeChange :=
  (baseline.find column.name).bind fun old =>
    if old.sqlType ≠ column.sqlType then some ⟨column.name, old.sqlType, column.sqlType⟩ else none

def diff (baseline current : ResourceSchema) : SchemaDiff where
  adds := current.columns.filter fun c => (baseline.find c.name).isNone
  drops := baseline.columns.filter fun c => (current.find c.name).isNone
  typeChanges := current.columns.filterMap (typeChange baseline)

/-! ### The schema of a resource -/

def irPgTypeForBuiltin : BuiltinType → String
  | .id => "BIGINT"
  | .text => "TEXT"
  | .boolean => "BOOLEAN"
  | .integer => "BIGINT"
  | .decimal => "NUMERIC(20, 6)"
  | .date => "DATE"
  | .dateTime => "TIMESTAMPTZ"
  | .json => "JSONB"
  | .semanticEmail | .semanticPhone | .semanticUrl | .semanticUuid | .semanticCurrency
  | .semanticHexColor => "TEXT"
  | .semanticPercentage => "NUMERIC(20, 6)"
  | .semanticPositiveDecimal => "NUMERIC(20, 6)"
  | .semanticNonNegativeInt => "BIGINT"
  | .semanticMoney => "NUMERIC(20,4)"
  | .semanticGeoPoint => "geography(point, 4326)"
  | .semanticPluginType _ => "TEXT"
  | .capSecret => "TEXT"
  | .capFile => "JSONB"

def irPgTypeForCapability : CapabilityRef → String
  | .encrypted | .e2ee => "BYTEA"
  | .file => "JSONB"
  | _ => "TEXT"

/-- Without the module the name of a resource is a text. -/
def irPgType : TypeRef → String
  | .builtin type => irPgTypeForBuiltin type
  | .many inner => irPgType inner ++ "[]"
  | .capability cap => irPgTypeForCapability cap
  | .userDefined _ | .enumRef _ | .unresolved _ => "TEXT"

def renderDefault : DefaultValue → String
  | .string s => quoteText s
  | .integer n => toString n
  | .boolean b => if b then "true" else "false"
  | .enumLiteral variant => "'" ++ variant ++ "'"
  | .nil => "NULL"

def fieldToColumn (field : Field) : Column where
  name := field.name
  sqlType := irPgType field.typeRef
  nullable := !field.required
  default := field.default.map renderDefault

def synthesizedSoftDeleteColumns (resource : Resource) : List String :=
  if !resource.softDelete then []
  else if resource.softDeleteActor then ["deleted_at", "deleted_by"]
  else ["deleted_at"]

/-- A derived field has no column here. -/
def currentSchemaFromIr (resource : Resource) : ResourceSchema where
  columns :=
    { name := "id", sqlType := "BIGSERIAL", nullable := false } ::
      ((resource.fields.filter fun field => field.derivedFrom.isNone).map fieldToColumn ++
        (if resource.timestamps.getD true then
          ["created_at", "updated_at"].map fun name =>
            { name, sqlType := "TIMESTAMPTZ", nullable := false, default := some "NOW()" }
        else []) ++
        (synthesizedSoftDeleteColumns resource).map (fun name =>
          { name, sqlType := if name = "deleted_by" then "BIGINT" else "TIMESTAMPTZ"
            nullable := true }) ++
        resource.polymorphicRefs.flatMap fun pref =>
          [{ name := pref.typeField, sqlType := "TEXT", nullable := false },
            { name := pref.idField, sqlType := "BIGINT", nullable := false }])

/-! ### The schema of a migration -/

inductive SchemaParseError where
  | missingCreateTable
  | unterminatedCreateTable
  deriving DecidableEq

def upperCase (s : List Char) : List Char := s.map Char.toUpper

def lineStartsCreateTable (line : List Char) : Bool :=
  "CREATE TABLE".toList.isPrefixOf (upperCase (line.dropWhile isWhitespace))

def constraintPrefixes : List String :=
  ["PRIMARY KEY ", "PRIMARY KEY(", "UNIQUE ", "UNIQUE(", "FOREIGN KEY ", "FOREIGN KEY(", "CHECK ",
    "CHECK(", "CONSTRAINT "]

def isTableLevelConstraint (body : List Char) : Bool :=
  constraintPrefixes.any fun keyword => keyword.toList.isPrefixOf (upperCase body)

/-- What ends a type, and a default. -/
def suffixKeywords : List String :=
  ["CHECK", "REFERENCES", "UNIQUE", "PRIMARY", "GENERATED", "COLLATE"]

/-- The word is one of the keywords, in any case. -/
def isWord (keywords : List String) (tok : List Char) : Bool :=
  String.ofList (upperCase tok) ∈ keywords

/-- What has been read of a column behind its name. -/
structure ColumnTail where
  sqlTypeParts : List (List Char) := []
  nullable : Bool := true
  default : Option String := none

def joinWords (ws : List (List Char)) : String := " ".intercalate (ws.map String.ofList)

/-- The loop over the words behind the name. -/
def walkTail (t : ColumnTail) : List (List Char) → ColumnTail
  | [] => t
  | tok :: rest =>
      if isWord ["NOT"] tok then
        match rest with
        | next :: more =>
            if isWord ["NULL"] next then walkTail { t with nullable := false } more
            else walkTail t (next :: more)
        | [] => t
      else if isWord ["NULL"] tok then walkTail t rest
      else if isWord ["DEFAULT"] tok then
        let expr := rest.takeWhile fun word => !isWord suffixKeywords word
        walkTail { t with default := if expr.isEmpty then t.default else some (joinWords expr) }
          (rest.dropWhile fun word => !isWord suffixKeywords word)
      else if isWord suffixKeywords tok then t
      else if t.default.isSome then t
      else walkTail { t with sqlTypeParts := t.sqlTypeParts ++ [tok] } rest
termination_by rest => rest.length
decreasing_by
  all_goals simp only [List.length_cons]
  all_goals try omega
  exact Nat.lt_succ_of_le (List.dropWhile_sublist _).length_le

def stripIdentQuotes (raw : List Char) : List Char :=
  (raw.dropWhile (· = '"')).rdropWhile (· = '"')

def parseColumnLine (body : List Char) : Option Column :=
  match words body with
  | [] => none
  | rawName :: rest =>
      let name := stripIdentQuotes rawName
      let tail := walkTail {} rest
      if name.isEmpty || tail.sqlTypeParts.isEmpty then none
      else some ⟨String.ofList name, joinWords tail.sqlTypeParts, tail.nullable, tail.default⟩

/-- The line up to a comment. -/
def withoutComment (line : List Char) : List Char :=
  match before '-' line with
  | some text => text.rdropWhile isWhitespace
  | none => line

/-- Without a comma at the end. -/
def stripComma (s : List Char) : List Char :=
  if s.getLast? = some ',' then s.dropLast else s

def lineBody (line : List Char) : List Char := trim (stripComma (withoutComment line))

/-- A constraint, like an empty line, is no column. -/
def parseBody (body : List Char) : Option Column :=
  if body.isEmpty || isTableLevelConstraint body then none else parseColumnLine body

def endsTable (line : List Char) : Bool := ");".toList.isPrefixOf line || line = [')']

/-- The columns up to the end of the table, if it has one. -/
def parseColumns : List (List Char) → Option (List Column)
  | [] => none
  | raw :: rest =>
      let line := trim raw
      if line.isEmpty then parseColumns rest
      else if endsTable line then some []
      else (parseColumns rest).map fun columns =>
        (parseBody (lineBody line)).toList ++ columns

def parseBaselineFromStr (sql : String) : Except SchemaParseError ResourceSchema :=
  match (lines sql.toList).dropWhile fun line => !lineStartsCreateTable line with
  | [] => .error .missingCreateTable
  | _ :: body =>
      match parseColumns body with
      | none => .error .unterminatedCreateTable
      | some columns => .ok ⟨columns⟩

end Lazuli.Migration
