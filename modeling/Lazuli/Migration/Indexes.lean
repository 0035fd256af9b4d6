import Lazuli.Migration.CreateTable

/-!
The index statements of a migration, and its whole text (`emitter/migration_ddl/index.rs`,
`emit_resource_migration` in `create_table.rs`).

A conditional uniqueness is a partial index; when its condition has no SQL form the index is
emitted without one. The condition of a deletion guard goes through the same lowering.
-/

namespace Lazuli.Migration

open Ir

/-! ### Conditions -/

def compareOpSql : CompareOp → String
  | .eq => "="
  | .ne => "!="
  | .lt => "<"
  | .le => "<="
  | .gt => ">"
  | .ge => ">="

/-- A column or a literal. -/
def exprSql : Expr → Option String
  | .path p =>
      match p.segments with
      | [column] => some (sqlIdent column)
      | _ => none
  | .string s => some (quoteText s)
  | .integer n => some (toString n)
  | .boolean b => some (if b then "true" else "false")
  | _ => none

/-- What a comparison with nil asks of its other side. -/
def nilComparisonSql (left : Expr) (op : CompareOp) (right : Expr) : Option String :=
  let other := match left, right with
    | .nil, other => some other
    | other, .nil => some other
    | _, _ => none
  (other.bind exprSql).bind fun column =>
    match op with
    | .eq => some (column ++ " IS NULL")
    | .ne => some (column ++ " IS NOT NULL")
    | _ => none

def evalPredicateSql : EvalPredicate → Option String
  | .closed (.comparison left op right) =>
      (nilComparisonSql left op right).or do
        let lhs ← exprSql left
        let rhs ← exprSql right
        some (lhs ++ " " ++ compareOpSql op ++ " " ++ rhs)
  | _ => none

/-! ### Statements -/

/-- `expression` is what is indexed: columns, or a text search vector of them. -/
structure IndexStatement where
  unique : Bool := false
  name : Option String
  table : String
  method : Option String := none
  columns : List String
  expression : String
  condition : Option String := none
  comment : Option String := none

def IndexStatement.text (i : IndexStatement) : String :=
  "CREATE " ++ (if i.unique then "UNIQUE " else "") ++ "INDEX " ++
    (match i.name with
    | some name => sqlIdent name ++ " "
    | none => "") ++
    "ON " ++ quoteIdent i.table ++
    (match i.method with
    | some method => " USING " ++ method
    | none => "") ++
    " (" ++ i.expression ++ ")" ++
    (match i.condition with
    | some condition => " WHERE " ++ condition
    | none => "") ++
    ";" ++
    (match i.comment with
    | some comment => " -- " ++ comment
    | none => "")

def identList (columns : List String) : String := ", ".intercalate (columns.map sqlIdent)

def fieldSlug (fields : List String) : String := "_".intercalate (fields.map lowerSnake)

def geoIndex (table : String) (field : Field) : IndexStatement where
  name := some (table ++ "_" ++ field.name ++ "_gist")
  table := table
  method := some "GIST"
  columns := [field.name]
  expression := sqlIdent field.name

def fullTextIndex (table : String) (field : Field) : IndexStatement where
  name := some (table ++ "_" ++ field.name ++ "_fts")
  table := table
  method := some "GIN"
  columns := [field.name]
  expression := "to_tsvector('english', " ++ sqlIdent field.name ++ ")"

def indexMethodSql : IndexMethod → String
  | .btree => "BTREE"
  | .gin => "GIN"
  | .gist => "GIST"

def indexSuffix (index : IndexConstraint) : String :=
  if index.fullText then "fts"
  else match index.method with
    | some .gin => "gin"
    | some .gist => "gist"
    | some .btree | none => "idx"

def authoredIndexSql (table : String) : Constraint → Option IndexStatement
  | .index index =>
      if index.fields = [] then none
      else some
        { name := some (table ++ "_" ++ fieldSlug index.fields ++ "_" ++ indexSuffix index)
          table := table
          method := if index.fullText then some "GIN" else index.method.map indexMethodSql
          columns := index.fields
          expression :=
            if index.fullText then
              "to_tsvector('english', concat_ws(' ', " ++ identList index.fields ++ "))"
            else identList index.fields }
  | .unique _ => none

def partialUniqueIndexName (table : String) (fields : List String) : String :=
  table ++ "_" ++ fieldSlug fields ++ "_uidx"

/-- A condition without a SQL form leaves the index a full one. -/
def partialUniqueIndexSql (table : String) : Constraint → Option IndexStatement
  | .unique unique =>
      unique.when.bind fun when =>
        if unique.fields = [] then none
        else some
          { unique := true
            name := some (partialUniqueIndexName table unique.fields)
            table := table
            columns := unique.fields
            expression := identList unique.fields
            condition := evalPredicateSql when
            comment :=
              if (evalPredicateSql when).isSome then none
              else some "WHERE clause unsupported (predicate not lowerable)" }
  | .index _ => none

def crossFeatureTargetIndex (table : String) (field : Field) : Option IndexStatement :=
  field.crossFeatureTarget.map fun target =>
    { name := some (table ++ "_" ++ lowerSnake field.name ++ "_fkidx")
      table := table
      columns := [field.name]
      expression := sqlIdent field.name
      comment := some ("logical FK -> " ++ target.feature ++ "." ++ target.resource ++
        " (cross-feature; no hard constraint)") }

def polymorphicRefIndex (table : String) (pref : PolymorphicRef) : IndexStatement where
  name := some
    (table ++ "_" ++ lowerSnake pref.typeField ++ "_" ++ lowerSnake pref.idField ++ "_pidx")
  table := table
  columns := [pref.typeField, pref.idField]
  expression := identList [pref.typeField, pref.idField]

def sessionRotationIndexes (table : String) : List IndexStatement :=
  [{ name := none, table, columns := ["parent_session_id"], expression := "parent_session_id"
     condition := some "parent_session_id IS NOT NULL" },
    { name := none, table, columns := ["refresh_token_hash"], expression := "refresh_token_hash"
      condition := some "refresh_token_hash != ''" }]

/-- All of them, in the order of the file. -/
def resourceIndexes (m : Module) (feature : Feature) (resource : Resource) :
    List IndexStatement :=
  let table := lowerSnake resource.name
  (resource.fields.filter fun field => isDirectGeoPoint field.typeRef).map (geoIndex table) ++
    (resource.fields.filter (·.fullText)).map (fullTextIndex table) ++
    resource.constraints.filterMap (authoredIndexSql table) ++
    resource.constraints.filterMap (partialUniqueIndexSql table) ++
    resource.fields.filterMap (crossFeatureTargetIndex table) ++
    resource.polymorphicRefs.map (polymorphicRefIndex table) ++
    if (sessionRotationEnabledForResource m feature resource).isSome then
      sessionRotationIndexes table
    else []

/-! ### The file -/

/-- A comma stands before the comment of its line, and none on the last line. -/
def columnLine (column : SqlColumn) (last : Bool) : String :=
  "    " ++ column.renderBody ++ (if last then "" else ",") ++
    match column.trailingComment with
    | some comment => " -- " ++ comment
    | none => ""

def columnLines : List SqlColumn → List String
  | [] => []
  | [column] => [columnLine column true]
  | column :: rest => columnLine column false :: columnLines rest

def resourceUsesPostgis (resource : Resource) : Bool :=
  resource.fields.any fun field => usesPostgis field.typeRef

def headerLines (feature : Feature) (resource : Resource) (sourceLabel : String) : List String :=
  ["-- Code generated by lazuli; DO NOT EDIT.", "-- source: " ++ commentValue sourceLabel,
      "-- resource: " ++ commentValue feature.name ++ "." ++ commentValue resource.name, ""] ++
    if resourceUsesPostgis resource then ["CREATE EXTENSION IF NOT EXISTS postgis;", ""] else []

def migrationLines (m : Module) (feature : Feature) (resource : Resource) (sourceLabel : String) :
    List String :=
  headerLines feature resource sourceLabel ++
    ["CREATE TABLE IF NOT EXISTS " ++ quoteIdent (lowerSnake resource.name) ++ " ("] ++
    columnLines (resourceColumns m feature resource) ++ [");"] ++
    (resourceIndexes m feature resource).flatMap fun index => ["", index.text]

def emitResourceMigration (m : Module) (feature : Feature) (resource : Resource)
    (sourceLabel : String) : String :=
  String.join ((migrationLines m feature resource sourceLabel).map (· ++ "\n"))

end Lazuli.Migration
