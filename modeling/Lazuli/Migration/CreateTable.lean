import Mathlib.Data.List.DropRight
import Lazuli.Codegen.Schema

/-!
Names in SQL (`emitter/migration_ddl/sql_builder.rs`).

A name is written bare when it is a plain identifier and no reserved word, else in quotes. Table
names are the names of resources in lower case, with an underscore where a capital follows a
lower case letter or a digit.
-/

namespace Lazuli.Migration

open Ir

/-! ### Identifiers -/

def isPlainStart (c : Char) : Bool := c = '_' || c.isLower

def isPlainChar (c : Char) : Bool := isPlainStart c || c.isDigit

def isPlainSqlIdent (raw : String) : Bool :=
  raw.toList.head?.any isPlainStart && raw.toList.all isPlainChar

def reservedWords : List String :=
  ["all", "analyse", "analyze", "and", "any", "array", "as", "asc", "asymmetric", "authorization",
    "binary", "both", "case", "cast", "check", "collate", "collation", "column", "concurrently",
    "constraint", "create", "cross", "current_catalog", "current_date", "current_role",
    "current_schema", "current_time", "current_timestamp", "current_user", "default",
    "deferrable", "desc", "distinct", "do", "else", "end", "except", "false", "fetch", "for",
    "foreign", "freeze", "from", "full", "grant", "group", "having", "ilike", "in", "initially",
    "inner", "intersect", "into", "is", "isnull", "join", "lateral", "leading", "left", "like",
    "limit", "localtime", "localtimestamp", "natural", "not", "notnull", "null", "offset", "on",
    "only", "or", "order", "outer", "overlaps", "placing", "primary", "references", "returning",
    "right", "select", "session_user", "similar", "some", "symmetric", "system_user", "table",
    "tablesample", "then", "to", "trailing", "true", "union", "unique", "user", "using",
    "variadic", "verbose", "when", "where", "window", "with"]

def isSqlReservedWord (raw : String) : Bool := raw ∈ reservedWords

/-- A quote inside is doubled. -/
def doubleQuotes (c : Char) : List Char := if c = '"' then ['"', '"'] else [c]

def quoteIdent (raw : String) : String :=
  "\"" ++ String.ofList (raw.toList.flatMap doubleQuotes) ++ "\""

def sqlIdent (raw : String) : String :=
  if isPlainSqlIdent raw && !isSqlReservedWord raw then raw else quoteIdent raw

/-- A literal in single quotes. -/
def quoteText (text : String) : String :=
  "'" ++ String.ofList (text.toList.flatMap fun c => if c = '\x27' then [c, c] else [c]) ++ "'"

def commentValue (raw : String) : String :=
  String.ofList (raw.toList.map fun c => if c = '\n' ∨ c = '\r' then ' ' else c)

/-! ### Table names -/

def isSeparator (c : Char) : Bool := c ∈ ['-', ' ', '.', '/', '\\', '_']

/-- `lower_snake` from some character on, `out` being what has been written. -/
def lowerSnakeFrom (out : List Char) (prevIsLowerOrDigit prevIsSep : Bool) :
    List Char → List Char
  | [] => out
  | ch :: rest =>
      if isSeparator ch then
        lowerSnakeFrom (if !out.isEmpty && !prevIsSep then out ++ ['_'] else out) false true rest
      else if ch.isUpper then
        let out := if prevIsLowerOrDigit && !prevIsSep then out ++ ['_'] else out
        lowerSnakeFrom (out ++ [ch.toLower]) false false rest
      else if ch.isAlphanum then
        lowerSnakeFrom (out ++ [ch.toLower]) (ch.isLower || ch.isDigit) false rest
      else lowerSnakeFrom out prevIsLowerOrDigit prevIsSep rest

def lowerSnake (raw : String) : String :=
  String.ofList ((lowerSnakeFrom [] false false raw.toList).rdropWhile (· = '_'))

example : lowerSnake "UserSession" = "user_session" := by decide

/-! ### Settings -/

def usesTimestamps (feature : Feature) (resource : Resource) : Bool :=
  resource.timestamps.getD feature.defaults.timestamps

def isDirectGeoPoint (typeRef : TypeRef) : Bool := typeRef = .builtin .semanticGeoPoint

def featureDeclaresResource (m : Module) (featureName resourceName : String) : Bool :=
  m.features.any fun feature =>
    feature.name = featureName && feature.resources.any fun resource => resource.name = resourceName

end Lazuli.Migration

/-!
The lines of `CREATE TABLE` (`emitter/migration_ddl/create_table.rs`, `constraint.rs`,
`sql_column.rs`, `emitter/cross_feature.rs`).

A table has a column for each field, those that its settings bring in, and the constraints. A
field whose type is the name of a resource of the module is a foreign key: the name is looked
up in an index that has dropped the names which several features declare.
-/

namespace Lazuli.Migration

open Ir

/-! ### Names across features -/

/-- The feature that declares a name, and the names that several declare. -/
structure CrossFeatureIndex where
  map : String → Option String
  ambiguous : String → Option (List String)

def CrossFeatureIndex.register (index : CrossFeatureIndex) (feature name : String) :
    CrossFeatureIndex :=
  match index.ambiguous name with
  | some existing =>
      if feature ∈ existing then index
      else
        { index with
          ambiguous := Function.update index.ambiguous name (some (existing ++ [feature])) }
  | none =>
      match index.map name with
      | some prev =>
          if prev = feature then index
          else
            { map := Function.update index.map name none
              ambiguous := Function.update index.ambiguous name (some [prev, feature]) }
      | none => { index with map := Function.update index.map name (some feature) }

/-- The types that a feature declares. -/
def typeNames (feature : Feature) : List String :=
  feature.resources.map (·.name) ++ feature.records.map (·.name) ++ feature.enums.map (·.name)

def CrossFeatureIndex.build (m : Module) : CrossFeatureIndex :=
  m.features.foldl (fun index feature =>
    (typeNames feature).foldl (fun index name => index.register feature.name name) index)
    ⟨fun _ => none, fun _ => none⟩

def CrossFeatureIndex.owner (index : CrossFeatureIndex) (typeName : String) : Option String :=
  index.map typeName

/-- The feature of the resource that a foreign key refers to. -/
def foreignKeyOwner (m : Module) (qname : QualifiedName) : Option String :=
  (qname.feature.or ((CrossFeatureIndex.build m).owner qname.name)).filter fun owner =>
    featureDeclaresResource m owner qname.name

/-! ### Types -/

def findEnumDecl (m : Module) (name : String) : Option EnumDecl :=
  (m.features.flatMap (·.enums)).find? fun e => e.name = name

def nameIsRecord (m : Module) (name : String) : Bool :=
  (m.features.flatMap (·.records)).any fun r => r.name = name

def isIntStorage (decl : EnumDecl) : Bool :=
  decl.variants.any fun v =>
    match v.storageValue with
    | some (.integer _) => true
    | _ => false

/-- A type of a plugin is carried by text. -/
def pgTypeForBuiltin : BuiltinType → String
  | .id | .integer | .semanticNonNegativeInt => "BIGINT"
  | .boolean => "BOOLEAN"
  | .decimal | .semanticPercentage | .semanticPositiveDecimal => "NUMERIC(20, 6)"
  | .date => "DATE"
  | .dateTime => "TIMESTAMPTZ"
  | .json | .capFile => "JSONB"
  | .semanticMoney => "NUMERIC(20,4)"
  | .semanticGeoPoint => "geography(point, 4326)"
  | .text | .semanticEmail | .semanticPhone | .semanticUrl | .semanticUuid | .semanticCurrency
  | .semanticHexColor | .semanticPluginType _ | .capSecret => "TEXT"

def pgTypeForCapability : CapabilityRef → String
  | .encrypted | .e2ee => "BYTEA"
  | .file => "JSONB"
  | _ => "TEXT"

def pgTypeFor : TypeRef → String
  | .builtin type => pgTypeForBuiltin type
  | .many inner => pgTypeFor inner ++ "[]"
  | .capability cap => pgTypeForCapability cap
  | .userDefined _ | .enumRef _ | .unresolved _ => "TEXT"

def pgTypeForEnum (m : Module) (name : String) : String :=
  match findEnumDecl m name with
  | some decl => if isIntStorage decl then "BIGINT" else "TEXT"
  | none => "TEXT"

/-- The name of a resource is a foreign key, that of a record a document. -/
def pgTypeForField (m : Module) (field : Field) : String :=
  match field.typeRef with
  | .userDefined qname =>
      if (foreignKeyOwner m qname).isSome then "BIGINT"
      else if nameIsRecord m qname.name then "JSONB"
      else pgTypeForEnum m qname.name
  | .enumRef qname => pgTypeForEnum m qname.name
  | .many (.userDefined qname) => if nameIsRecord m qname.name then "JSONB" else "TEXT[]"
  | typeRef => pgTypeFor typeRef

def usesPostgis : TypeRef → Bool
  | .builtin type => type = .semanticGeoPoint
  | .many inner => usesPostgis inner
  | _ => false

def encryptionMarkerFor (field : Field) : Option String :=
  match field.typeRef with
  | .capability .encrypted =>
      some ("lazuli:encrypted " ++ field.key ++ " algorithm=aes_256_gcm")
  | .capability .e2ee => some ("lazuli:e2ee " ++ field.key ++ " algorithm=aes_256_gcm")
  | _ => none

/-! ### Lines -/

/-- A column line, or a constraint. The name of a `raw` column is never quoted, that of a
`quoted` one where it has to be; a `reference` points at the id of a row of `table`. -/
inductive SqlColumn where
  | typed (name pgType : String) (required : Bool) (generatedAs : Option String := none)
      (trailingComment : Option String := none)
  | raw (name rest : String)
  | quoted (name rest : String)
  | reference (name table : String)
  | unique (constraint : Option String) (columns : List String)
  | primaryKey (columns : List String)
  | foreignKey (column table : String)
  deriving DecidableEq

def columnList (columns : List String) : String :=
  "(" ++ ", ".intercalate (columns.map sqlIdent) ++ ")"

def SqlColumn.renderBody : SqlColumn → String
  | .typed name pgType required generatedAs _ =>
      sqlIdent name ++ " " ++ pgType ++ (if required then " NOT NULL" else "") ++
        (match generatedAs with
        | some expr => " GENERATED ALWAYS AS (" ++ expr ++ ") STORED"
        | none => "")
  | .raw name rest => name ++ " " ++ rest
  | .quoted name rest => sqlIdent name ++ " " ++ rest
  | .reference name table =>
      name ++ " BIGINT REFERENCES " ++ quoteIdent table ++ " (id) ON DELETE SET NULL"
  | .unique constraint columns =>
      (match constraint with
      | some name => "CONSTRAINT " ++ sqlIdent name ++ " "
      | none => "") ++ "UNIQUE " ++ columnList columns
  | .primaryKey columns => "PRIMARY KEY " ++ columnList columns
  | .foreignKey column table =>
      "FOREIGN KEY (" ++ sqlIdent column ++ ") REFERENCES " ++ quoteIdent table ++ " (id)"

def SqlColumn.trailingComment : SqlColumn → Option String
  | .typed _ _ _ _ comment => comment
  | _ => none

/-- The name that a line declares a column under. -/
def SqlColumn.column : SqlColumn → Option String
  | .typed name _ _ _ _ | .raw name _ | .quoted name _ | .reference name _ => some name
  | _ => none

/-- The table that a line refers to. -/
def SqlColumn.target : SqlColumn → Option String
  | .foreignKey _ table | .reference _ table => some table
  | _ => none

/-! ### The columns of fields -/

def isMoney (field : Field) : Bool := field.typeRef = .builtin .semanticMoney

def currencyColumnName (field : Field) : String := field.name ++ "_currency"

/-- The amounts whose currency column is declared as a field. -/
def explicitCurrencyOverrides (resource : Resource) : List String :=
  resource.fields.filterMap fun f =>
    if f.typeRef = .builtin .semanticCurrency then
      (f.name.toList.dropSuffix? "_currency".toList).map String.ofList
    else none

def currencyColumn (field : Field) : SqlColumn :=
  .raw (currencyColumnName field)
    ("TEXT" ++ (if field.required then " NOT NULL" else "") ++ " CHECK (" ++
      currencyColumnName field ++ " = " ++ quoteText field.currency ++ ") DEFAULT " ++
      quoteText field.currency)

/-- The column of a field, and behind an amount that of its currency. -/
def fieldColumns (m : Module) (resource : Resource) (field : Field) : List SqlColumn :=
  .typed field.name (pgTypeForField m field) field.required field.derivedFrom
      (encryptionMarkerFor field) ::
    if isMoney field && field.name ∉ explicitCurrencyOverrides resource then
      [currencyColumn field]
    else []

/-! ### Session rotation -/

def sessionResourceMatches (authFeature : Feature) (sessions : AuthSessions)
    (feature : Feature) (resource : Resource) : Bool :=
  sessions.resource.name = resource.name ∧
    sessions.resource.feature.getD authFeature.name = feature.name

def sessionRotationEnabledForResource (m : Module) (feature : Feature) (resource : Resource) :
    Option AuthSessions :=
  m.features.findSome? fun authFeature =>
    authFeature.sessions.filter fun sessions =>
      sessions.rotation && sessionResourceMatches authFeature sessions feature resource

def rotationColumns (table : String) : List SqlColumn :=
  [.raw "refresh_token_hash" "TEXT NOT NULL DEFAULT ''",
    .raw "refresh_expires_at" "TIMESTAMPTZ",
    .reference "parent_session_id" table,
    .raw "theft_detected_at" "TIMESTAMPTZ"]

/-- The columns that no field declares. -/
def missingRotation (m : Module) (feature : Feature) (resource : Resource) : List SqlColumn :=
  if (sessionRotationEnabledForResource m feature resource).isSome then
    (rotationColumns (lowerSnake resource.name)).filter fun column =>
      !resource.fields.any fun field => some field.name = column.column
  else []

/-! ### Constraints -/

def uniqueConstraintName (tableName : String) (fields : List String) : String :=
  tableName ++ "_" ++ "_".intercalate (fields.map lowerSnake) ++ "_key"

/-- `per` adds the column of an axis. -/
def uniqueFieldsSql (fields : List String) (per constraintName : Option String) :
    Option SqlColumn :=
  if fields = [] then none
  else
    some (.unique constraintName
      (fields ++ (per.map fun per => lowerSnake per ++ "_id").toList))

def inlineUniqueConstraintSql (resource : Resource) (tenancy : Tenancy) : List SqlColumn :=
  (resource.fields.filter (·.unique)).filterMap fun field =>
    uniqueFieldsSql [field.name] (if tenancy = .org then some "Org" else none) none

/-- A conditional constraint is an index and no line of the table. -/
def uniqueConstraintSql (tableName : String) : Constraint → Option SqlColumn
  | .unique unique =>
      if unique.when.isSome then none
      else
        uniqueFieldsSql unique.fields unique.per
          (unique.errorCode.map fun _ => uniqueConstraintName tableName unique.fields)
  | .index _ => none

def compositeKeySql (resource : Resource) : Option SqlColumn :=
  resource.compositeKey.bind fun ck =>
    if ck.fields = [] then none
    else some (if ck.primary then .primaryKey ck.fields else .unique none ck.fields)

/-- One line for each target of a reference to some kind of resource. -/
def polymorphicRefColumns (resource : Resource) : List SqlColumn :=
  resource.polymorphicRefs.flatMap fun pref =>
    [.quoted pref.typeField
        ("TEXT NOT NULL CHECK (" ++ sqlIdent pref.typeField ++ " IN (" ++
          ", ".intercalate (pref.targets.map quoteText) ++ "))"),
      .quoted pref.idField "BIGINT NOT NULL"]

def foreignKeyConstraint (m : Module) (field : Field) : Option SqlColumn :=
  match field.typeRef with
  | .userDefined qname =>
      (foreignKeyOwner m qname).map fun _ => .foreignKey field.name (lowerSnake qname.name)
  | _ => none

def foreignKeyConstraints (m : Module) (resource : Resource) : List SqlColumn :=
  resource.fields.filterMap (foreignKeyConstraint m)

/-! ### The table -/

def compositePrimary (resource : Resource) : Bool := resource.compositeKey.any (·.primary)

def implicitId : SqlColumn := .raw "id" "BIGSERIAL PRIMARY KEY"

def timestampColumns : List SqlColumn :=
  [.raw "created_at" "TIMESTAMPTZ NOT NULL DEFAULT NOW()",
    .raw "updated_at" "TIMESTAMPTZ NOT NULL DEFAULT NOW()"]

def softDeleteColumns (resource : Resource) : List SqlColumn :=
  if resource.softDelete then
    .typed "deleted_at" "TIMESTAMPTZ" false ::
      if resource.softDeleteActor then [.typed "deleted_by" "BIGINT" false] else []
  else []

def tableConstraints (m : Module) (feature : Feature) (resource : Resource) : List SqlColumn :=
  inlineUniqueConstraintSql resource (effectiveTenancy feature resource) ++
    resource.constraints.filterMap (uniqueConstraintSql (lowerSnake resource.name)) ++
    (compositeKeySql resource).toList ++ foreignKeyConstraints m resource

def resourceColumns (m : Module) (feature : Feature) (resource : Resource) : List SqlColumn :=
  (if compositePrimary resource then [] else [implicitId]) ++
    (if effectiveTenancy feature resource = .org then [.typed "org_id" "BIGINT" true] else []) ++
    resource.fields.flatMap (fieldColumns m resource) ++ missingRotation m feature resource ++
    (if usesTimestamps feature resource then timestampColumns else []) ++
    softDeleteColumns resource ++ tableConstraints m feature resource ++
    polymorphicRefColumns resource

end Lazuli.Migration
