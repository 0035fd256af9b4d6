import Mathlib
import Lazuli.Migration.SqlCondition

/-!
The names in a table (`resource_columns` in `emitter/migration_ddl/create_table.rs` and the clauses
of `constraint.rs` and `index.rs`).

Columns come from the settings of a resource, its fields, the currencies of its amounts, session
rotation and the polymorphic references. Session rotation leaves out the columns that a field
declares, and a currency that a field declares with its type; the others look at nothing. Nor do
the clauses look at whether a column exists.
-/

namespace Lazuli.Migration

open Ir General

/-! ### Names of a table -/

/-- A name without quotes is read in small letters. -/
def folded (name : String) : String := String.ofList (name.toList.map Char.toLower)

/-- The name that a server gives the column of a line. -/
def SqlColumn.identifier : SqlColumn → Option String
  | .typed name _ _ _ _ | .quoted name _ => some name
  | .raw name _ | .reference name _ => some (folded name)
  | _ => none

def columnNames (m : Module) (feature : Feature) (resource : Resource) : List String :=
  (resourceColumns m feature resource).filterMap SqlColumn.identifier

/-- The columns of the table that a line refers to. A key into the table itself refers to its
`id`. -/
def SqlColumn.named (table : String) : SqlColumn → List String
  | .unique _ columns | .primaryKey columns => columns
  | .foreignKey column target => column :: if target = table then ["id"] else []
  | .reference _ target => if target = table then ["id"] else []
  | _ => []

def SqlOperand.columns : SqlOperand → List String
  | .column name => [name]
  | _ => []

def SqlCondition.columns : SqlCondition → List String
  | .compare left _ right => left.columns ++ right.columns
  | .isNull operand | .isNotNull operand => operand.columns

/-- The index is over the column, or its condition is about it. -/
def IndexStatement.Names (i : IndexStatement) (column : String) : Prop :=
  column ∈ i.columns ∨ ∃ c : SqlCondition, i.condition = some c.sql ∧ column ∈ c.columns

/-- Columns have different names, and clauses refer to columns. -/
structure WellFormed (m : Module) (feature : Feature) (resource : Resource) : Prop where
  distinct : (columnNames m feature resource).Nodup
  constraints : ∀ line ∈ resourceColumns m feature resource,
    ∀ column ∈ line.named (lowerSnake resource.name), column ∈ columnNames m feature resource
  indexes : ∀ i ∈ resourceIndexes m feature resource,
    ∀ column, i.Names column → column ∈ columnNames m feature resource

/-! ### Names of a declaration -/

def synthesised : List String :=
  ["id", "org_id", "created_at", "updated_at", "deleted_at", "deleted_by"]

def fieldNames (resource : Resource) : List String := resource.fields.map (·.name)

def settingNames (feature : Feature) (resource : Resource) : List String :=
  (if compositePrimary resource then [] else ["id"]) ++
    (if effectiveTenancy feature resource = .org then ["org_id"] else []) ++
    (if usesTimestamps feature resource then ["created_at", "updated_at"] else []) ++
    if resource.softDelete then
      "deleted_at" :: if resource.softDeleteActor then ["deleted_by"] else []
    else []

/-- An amount whose currency no field declares with its type. -/
def bringsCurrency (resource : Resource) (field : Field) : Bool :=
  isMoney field && field.name ∉ explicitCurrencyOverrides resource

def currencyNames (resource : Resource) : List String :=
  (resource.fields.filter (bringsCurrency resource)).map fun field =>
    folded (currencyColumnName field)

def rotates (m : Module) (feature : Feature) (resource : Resource) : Bool :=
  (sessionRotationEnabledForResource m feature resource).isSome

def rotationNames : List String :=
  ["refresh_token_hash", "refresh_expires_at", "parent_session_id", "theft_detected_at"]

def pairNames (resource : Resource) : List String :=
  resource.polymorphicRefs.flatMap fun pref => [pref.typeField, pref.idField]

/-- All names but those of polymorphic references. -/
def ownNames (m : Module) (feature : Feature) (resource : Resource) : List String :=
  settingNames feature resource ++ fieldNames resource ++ currencyNames resource ++
    if rotates m feature resource then rotationNames else []

def declaredNames (m : Module) (feature : Feature) (resource : Resource) : List String :=
  ownNames m feature resource ++ pairNames resource

/-- The columns that a constraint is about, with those of its condition or its axis. -/
def namedBy : Constraint → List String
  | .unique unique =>
      if unique.fields = [] then []
      else unique.fields ++
        match unique.when with
        | none => (unique.per.map fun per => lowerSnake per ++ "_id").toList
        | some p => ((SqlCondition.of p).map SqlCondition.columns).getD []
  | .index index => index.fields

/-- A field or the rotation of sessions refers to a row of the same table. -/
def RefersToItself (m : Module) (feature : Feature) (resource : Resource) : Prop :=
  (∃ field ∈ resource.fields, ∃ qname, field.typeRef = .userDefined qname ∧
      (foreignKeyOwner m qname).isSome ∧ lowerSnake qname.name = lowerSnake resource.name) ∨
    rotates m feature resource = true ∧ "parent_session_id" ∉ fieldNames resource

/-- Where the table is well formed. -/
structure Sound (m : Module) (feature : Feature) (resource : Resource) : Prop where
  currencies : ∀ name ∈ currencyNames resource, name ∉ fieldNames resource
  amounts : (currencyNames resource).Nodup
  pairs : (pairNames resource).Nodup
  fresh : ∀ name ∈ pairNames resource, name ∉ ownNames m feature resource
  keyed : RefersToItself m feature resource → "id" ∈ declaredNames m feature resource
  constraints : ∀ c ∈ resource.constraints, ∀ name ∈ namedBy c,
    name ∈ declaredNames m feature resource
  composite : ∀ key ∈ resource.compositeKey, ∀ name ∈ key.fields,
    name ∈ declaredNames m feature resource

/-! ### The names of the columns -/

section Columns

variable {m : Module} {feature : Feature} {resource : Resource} {name : String}

theorem identifier_fieldColumns (field : Field) :
    (fieldColumns m resource field).filterMap SqlColumn.identifier =
      field.name ::
        if bringsCurrency resource field then [folded (currencyColumnName field)] else [] := by
  rw [fieldColumns, bringsCurrency]
  split <;> rfl

theorem identifier_fields : (resource.fields.flatMap (fieldColumns m resource)).filterMap
    SqlColumn.identifier |>.Perm (fieldNames resource ++ currencyNames resource) := by
  have currencies : currencyNames resource = resource.fields.flatMap fun field =>
      if bringsCurrency resource field then [folded (currencyColumnName field)] else [] := by
    rw [currencyNames]
    induction resource.fields with
    | nil => rfl
    | cons field fields ih =>
        rw [List.filter_cons, List.flatMap_cons, ← ih]
        split <;> rfl
  rw [List.filterMap_flatMap, currencies, fieldNames]
  simp only [identifier_fieldColumns]
  exact (List.map_append_flatMap_perm _ _ _).symm

/-- Of the lines those are left whose name no field declares. -/
theorem identifier_undeclared {lines : List SqlColumn}
    (plain : ∀ line ∈ lines, line.identifier = line.column) :
    (lines.filter fun line => !resource.fields.any fun field =>
        some field.name = line.column).filterMap SqlColumn.identifier =
      (lines.filterMap SqlColumn.identifier).filter fun name => name ∉ fieldNames resource := by
  rw [List.filterMap_filter, List.filter_filterMap]
  refine List.filterMap_congr fun line mem => ?_
  rw [plain line mem]
  cases line.column with
  | none => simp
  | some name => simp [fieldNames, Option.filter]

theorem identifier_missingRotation :
    (missingRotation m feature resource).filterMap SqlColumn.identifier =
      (if rotates m feature resource then rotationNames else []).filter
        fun name => name ∉ fieldNames resource := by
  rw [missingRotation, rotates]
  split
  · refine identifier_undeclared fun line mem => ?_
    simp only [rotationColumns, List.mem_cons, List.not_mem_nil, or_false] at mem
    rcases mem with rfl | rfl | rfl | rfl <;> rfl
  · rfl

end Columns

/-! ### The lines of constraints -/

section Constraints

variable {m : Module} {feature : Feature} {resource : Resource} {table name : String}
  {line : SqlColumn} {c : Constraint} {field : Field}

theorem mem_tableConstraints : line ∈ tableConstraints m feature resource ↔
    line ∈ inlineUniqueConstraintSql resource (effectiveTenancy feature resource) ∨
      (∃ c ∈ resource.constraints,
        uniqueConstraintSql (lowerSnake resource.name) c = some line) ∨
      compositeKeySql resource = some line ∨
      ∃ field ∈ resource.fields, foreignKeyConstraint m field = some line := by
  simp only [tableConstraints, foreignKeyConstraints, List.mem_append, List.mem_filterMap,
    Option.mem_toList, or_assoc]

/-- A field that is unique in itself, or in its organisation. -/
theorem inline_cases {tenancy : Tenancy} (h : line ∈ inlineUniqueConstraintSql resource tenancy) :
    ∃ field ∈ resource.fields,
      line = .unique none (field.name :: if tenancy = .org then ["org_id"] else []) := by
  obtain ⟨field, mem, eq⟩ := List.mem_filterMap.mp h
  refine ⟨field, List.mem_of_mem_filter mem, ?_⟩
  rw [uniqueFieldsSql, if_neg (List.cons_ne_nil _ _)] at eq
  rw [← Option.some.inj eq]
  split <;> rfl

theorem unconditional_cases (h : uniqueConstraintSql table c = some line) :
    ∃ constraint, line = .unique constraint (namedBy c) := by
  cases c with
  | index index => cases h
  | unique unique =>
      rw [uniqueConstraintSql] at h
      split at h
      · cases h
      next plain =>
        have unconditional : unique.when = none := by simpa using plain
        rw [uniqueFieldsSql] at h
        split at h
        · cases h
        next nonempty =>
          rw [namedBy, if_neg nonempty, unconditional, ← Option.some.inj h]
          exact ⟨_, rfl⟩

theorem unconditional_of_named {unique : UniqueConstraint} (table : String)
    (unconditional : unique.when = none) (h : name ∈ namedBy (.unique unique)) :
    ∃ constraint, uniqueConstraintSql table (.unique unique) =
      some (.unique constraint (namedBy (.unique unique))) := by
  rw [namedBy] at h ⊢
  split at h
  · cases h
  next nonempty =>
    rw [uniqueConstraintSql, unconditional, if_neg (by decide), uniqueFieldsSql, if_neg nonempty,
      if_neg nonempty]
    exact ⟨_, rfl⟩

theorem composite_cases (table : String) (h : compositeKeySql resource = some line) :
    ∃ key, resource.compositeKey = some key ∧ line.identifier = none ∧
      line.named table = key.fields := by
  obtain ⟨key, declared, eq⟩ := Option.bind_eq_some_iff.mp h
  refine ⟨key, declared, ?_⟩
  split at eq
  · cases eq
  · rw [← Option.some.inj eq]
    split <;> exact ⟨rfl, rfl⟩

theorem composite_of_named {key : CompositeKey} (declared : resource.compositeKey = some key)
    (h : name ∈ key.fields) :
    ∃ line, compositeKeySql resource = some line ∧ name ∈ line.named table := by
  have nonempty : key.fields ≠ [] := List.ne_nil_of_mem h
  rw [compositeKeySql, declared, Option.bind_some, if_neg nonempty]
  refine ⟨_, rfl, ?_⟩
  split <;> exact h

theorem foreignKeyConstraint_eq_some_iff : foreignKeyConstraint m field = some line ↔
    ∃ qname, field.typeRef = .userDefined qname ∧ (foreignKeyOwner m qname).isSome = true ∧
      line = .foreignKey field.name (lowerSnake qname.name) := by
  rw [foreignKeyConstraint]
  split
  next qname type =>
    rw [Option.map_eq_some_iff, type]
    constructor
    · rintro ⟨owner, found, rfl⟩
      exact ⟨qname, rfl, by rw [found]; rfl, rfl⟩
    · rintro ⟨_, same, found, rfl⟩
      cases same
      obtain ⟨owner, found⟩ := Option.isSome_iff_exists.mp found
      exact ⟨owner, found, rfl⟩
  next other =>
    refine iff_of_false (by simp) ?_
    rintro ⟨qname, type, -⟩
    exact other qname type

theorem identifier_of_mem_tableConstraints (h : line ∈ tableConstraints m feature resource) :
    line.identifier = none := by
  rcases mem_tableConstraints.mp h with inline | ⟨c, -, eq⟩ | eq | ⟨field, -, eq⟩
  · obtain ⟨field, -, rfl⟩ := inline_cases inline
    rfl
  · obtain ⟨constraint, rfl⟩ := unconditional_cases eq
    rfl
  · obtain ⟨key, -, none, -⟩ := composite_cases "" eq
    exact none
  · obtain ⟨qname, -, -, rfl⟩ := foreignKeyConstraint_eq_some_iff.mp eq
    rfl

end Constraints

/-! ### Different columns -/

/-- The columns of rotation that no field declares. -/
def newRotationNames (m : Module) (feature : Feature) (resource : Resource) : List String :=
  (if rotates m feature resource then rotationNames else []).filter
    fun name => name ∉ fieldNames resource

section Distinct

variable {m : Module} {feature : Feature} {resource : Resource} {name : String}

/-- Columns that do not come from a polymorphic reference. -/
def bodyNames (m : Module) (feature : Feature) (resource : Resource) : List String :=
  settingNames feature resource ++ (fieldNames resource ++ currencyNames resource ++
    newRotationNames m feature resource)

theorem identifier_settings :
    ((if compositePrimary resource then [] else [implicitId]) ++
      (if effectiveTenancy feature resource = Tenancy.org then
        [SqlColumn.typed "org_id" "BIGINT" true] else []) ++
      (if usesTimestamps feature resource then timestampColumns else []) ++
      softDeleteColumns resource).filterMap SqlColumn.identifier =
      settingNames feature resource := by
  unfold settingNames softDeleteColumns
  rw [List.filterMap_append, List.filterMap_append, List.filterMap_append]
  refine congrArg₂ (· ++ ·) (congrArg₂ (· ++ ·) (congrArg₂ (· ++ ·) ?_ ?_) ?_) ?_
  · split <;> rfl
  · split <;> rfl
  · split <;> rfl
  · split
    · split <;> rfl
    · rfl

theorem identifier_pairs :
    (polymorphicRefColumns resource).filterMap SqlColumn.identifier = pairNames resource := by
  rw [polymorphicRefColumns, List.filterMap_flatMap]
  rfl

theorem columnNames_perm : (columnNames m feature resource).Perm
    (bodyNames m feature resource ++ pairNames resource) := by
  have none : (tableConstraints m feature resource).filterMap SqlColumn.identifier = [] :=
    List.filterMap_eq_nil_iff.mpr fun line mem => identifier_of_mem_tableConstraints mem
  have fields := @identifier_fields m resource
  rw [List.perm_iff_count] at fields ⊢
  intro name
  have own := fields name
  simp only [columnNames, resourceColumns, bodyNames, newRotationNames, List.filterMap_append,
    none, identifier_pairs, identifier_missingRotation, ← identifier_settings, List.count_append,
    List.count_nil] at own ⊢
  omega

theorem mem_columnNames :
    name ∈ columnNames m feature resource ↔ name ∈ declaredNames m feature resource := by
  rw [columnNames_perm.mem_iff]
  simp only [bodyNames, newRotationNames, declaredNames, ownNames, List.mem_append,
    List.mem_filter, decide_eq_true_eq]
  tauto

theorem mem_ownNames :
    name ∈ bodyNames m feature resource ↔ name ∈ ownNames m feature resource := by
  simp only [bodyNames, newRotationNames, ownNames, List.mem_append, List.mem_filter,
    decide_eq_true_eq]
  tauto

theorem settingNames_sublist : (settingNames feature resource).Sublist synthesised := by
  have part {p : Prop} [Decidable p] (l : List String) : (if p then l else []).Sublist l := by
    split
    · exact List.Sublist.refl l
    · exact List.nil_sublist l
  have all : synthesised =
      ["id"] ++ ["org_id"] ++ ["created_at", "updated_at"] ++ ["deleted_at", "deleted_by"] := rfl
  rw [settingNames, all]
  refine ((List.Sublist.append ?_ (part _)).append (part _)).append ?_
  · split
    · exact List.nil_sublist _
    · exact List.Sublist.refl _
  · split
    · exact (part ["deleted_by"]).cons_cons "deleted_at"
    · exact List.nil_sublist _

theorem suffix_of_mem_currencyNames (h : name ∈ currencyNames resource) :
    "_currency".toList <:+ name.toList := by
  obtain ⟨field, -, rfl⟩ := List.mem_map.mp h
  refine ⟨field.name.toList.map Char.toLower, ?_⟩
  simp only [folded, currencyColumnName, String.toList_append, String.toList_ofList,
    List.map_append]
  rfl

theorem not_suffix_of_mem (h : name ∈ synthesised ++ rotationNames) :
    ¬"_currency".toList <:+ name.toList := by
  revert name
  decide

theorem notMem_synthesised_of_mem_rotationNames (h : name ∈ rotationNames) :
    name ∉ synthesised := by
  revert name
  decide

theorem mem_newRotationNames (h : name ∈ newRotationNames m feature resource) :
    name ∈ rotationNames ∧ name ∉ fieldNames resource := by
  obtain ⟨mem, new⟩ := List.mem_filter.mp h
  refine ⟨?_, of_decide_eq_true new⟩
  split at mem
  · exact mem
  · cases mem

theorem nodup_newRotationNames : (newRotationNames m feature resource).Nodup := by
  refine List.Nodup.filter _ ?_
  split
  · decide
  · exact List.nodup_nil

/-- What keeps the columns apart that do not come from a reference. -/
theorem nodup_bodyNames_iff (names : (fieldNames resource).Nodup)
    (fresh : ∀ name ∈ fieldNames resource, name ∉ synthesised) :
    (bodyNames m feature resource).Nodup ↔
      (∀ name ∈ currencyNames resource, name ∉ fieldNames resource) ∧
        (currencyNames resource).Nodup := by
  have settings : (settingNames feature resource).Nodup :=
    settingNames_sublist.nodup (by decide)
  have apart : (settingNames feature resource).Disjoint (fieldNames resource ++
      currencyNames resource ++ newRotationNames m feature resource) := by
    intro name setting other
    have known := settingNames_sublist.subset setting
    rw [List.mem_append, List.mem_append] at other
    rcases other with (field | currency) | rotation
    · exact fresh name field known
    · exact not_suffix_of_mem (List.mem_append_left _ known) (suffix_of_mem_currencyNames currency)
    · exact notMem_synthesised_of_mem_rotationNames (mem_newRotationNames rotation).1 known
  have rotated : (fieldNames resource ++ currencyNames resource).Disjoint
      (newRotationNames m feature resource) := by
    intro name other rotation
    obtain ⟨known, new⟩ := mem_newRotationNames rotation
    rcases List.mem_append.mp other with field | currency
    · exact new field
    · exact not_suffix_of_mem (List.mem_append_right _ known) (suffix_of_mem_currencyNames currency)
  rw [bodyNames, List.nodup_append', List.nodup_append', List.nodup_append']
  constructor
  · rintro ⟨-, ⟨⟨-, amounts, currencies⟩, -⟩, -⟩
    exact ⟨fun name currency field => currencies field currency, amounts⟩
  · rintro ⟨currencies, amounts⟩
    exact ⟨settings, ⟨⟨names, amounts, fun name field currency => currencies name currency field⟩,
      nodup_newRotationNames, rotated⟩, apart⟩

/-- What keeps all columns apart. -/
theorem nodup_columnNames_iff (names : (fieldNames resource).Nodup)
    (fresh : ∀ name ∈ fieldNames resource, name ∉ synthesised) :
    (columnNames m feature resource).Nodup ↔
      ((∀ name ∈ currencyNames resource, name ∉ fieldNames resource) ∧
        (currencyNames resource).Nodup) ∧ (pairNames resource).Nodup ∧
        ∀ name ∈ pairNames resource, name ∉ ownNames m feature resource := by
  rw [columnNames_perm.nodup_iff, List.nodup_append', nodup_bodyNames_iff names fresh]
  have disjoint : (bodyNames m feature resource).Disjoint (pairNames resource) ↔
      ∀ name ∈ pairNames resource, name ∉ ownNames m feature resource :=
    ⟨fun h name pair own => h (mem_ownNames.mpr own) pair,
      fun h name own pair => h name pair (mem_ownNames.mp own)⟩
  rw [disjoint]

end Distinct

/-! ### The columns of an index -/

section Indexes

variable {table name : String} {i : IndexStatement} {c : Constraint}

/-- The text of the condition is that of one condition only. -/
theorem names_iff (condition : Option SqlCondition)
    (h : i.condition = condition.map SqlCondition.sql) :
    i.Names name ↔ name ∈ i.columns ++ (condition.map SqlCondition.columns).getD [] := by
  rw [IndexStatement.Names, List.mem_append, h]
  cases condition with
  | none => simp
  | some c =>
      constructor
      · rintro (column | ⟨other, same, column⟩)
        · exact .inl column
        · rw [← sql_injective (Option.some.inj same)] at column
          exact .inr column
      · rintro (column | column)
        · exact .inl column
        · exact .inr ⟨c, rfl, column⟩

theorem names_of_unconditional (h : i.condition = none) : i.Names name ↔ name ∈ i.columns := by
  rw [names_iff none h]
  exact iff_of_eq (congrArg (name ∈ ·) (List.append_nil _))

theorem names_authored (h : authoredIndexSql table c = some i) :
    i.Names name ↔ name ∈ namedBy c := by
  cases c with
  | unique unique => cases h
  | index index =>
      rw [authoredIndexSql] at h
      split at h
      · cases h
      · cases h
        exact names_of_unconditional rfl

theorem authored_of_named {index : IndexConstraint} (table : String)
    (h : name ∈ namedBy (.index index)) :
    ∃ i, authoredIndexSql table (.index index) = some i := by
  have nonempty : index.fields ≠ [] := List.ne_nil_of_mem h
  rw [authoredIndexSql, if_neg nonempty]
  exact ⟨_, rfl⟩

theorem names_conditional (h : partialUniqueIndexSql table c = some i) :
    i.Names name ↔ name ∈ namedBy c := by
  cases c with
  | index index => cases h
  | unique unique =>
      obtain ⟨p, conditional, eq⟩ := Option.bind_eq_some_iff.mp h
      split at eq
      · cases eq
      next nonempty =>
        cases eq
        rw [namedBy, if_neg nonempty, conditional]
        exact names_iff _ (evalPredicateSql_eq p)

theorem conditional_of_named {unique : UniqueConstraint} {p : EvalPredicate} (table : String)
    (conditional : unique.when = some p) (h : name ∈ namedBy (.unique unique)) :
    ∃ i, partialUniqueIndexSql table (.unique unique) = some i := by
  rw [namedBy] at h
  split at h
  · cases h
  next nonempty =>
    rw [partialUniqueIndexSql, conditional, Option.bind_some, if_neg nonempty]
    exact ⟨_, rfl⟩

theorem names_sessionRotation (mem : i ∈ sessionRotationIndexes table) (h : i.Names name) :
    name ∈ rotationNames := by
  have live : "parent_session_id IS NOT NULL" =
      (SqlCondition.isNotNull (.column "parent_session_id")).sql := by decide
  have filled : "refresh_token_hash != ''" =
      (SqlCondition.compare (.column "refresh_token_hash") .ne (.text "")).sql := by decide
  simp only [sessionRotationIndexes, List.mem_cons, List.not_mem_nil, or_false] at mem
  rcases mem with rfl | rfl
  · obtain rfl : name = "parent_session_id" := by
      simpa [SqlCondition.columns, SqlOperand.columns] using
        (names_iff (some _) (congrArg some live)).mp h
    decide
  · obtain rfl : name = "refresh_token_hash" := by
      simpa [SqlCondition.columns, SqlOperand.columns] using
        (names_iff (some _) (congrArg some filled)).mp h
    decide

end Indexes

/-! ### The columns of clauses -/

/-- A line or an index refers to the column. -/
def Mentions (m : Module) (feature : Feature) (resource : Resource) (name : String) : Prop :=
  (∃ line ∈ resourceColumns m feature resource,
      name ∈ line.named (lowerSnake resource.name)) ∨
    ∃ i ∈ resourceIndexes m feature resource, i.Names name

/-- A column that no setting of the table promises. -/
def Demands (m : Module) (feature : Feature) (resource : Resource) (name : String) : Prop :=
  (∃ c ∈ resource.constraints, name ∈ namedBy c) ∨
    (∃ key ∈ resource.compositeKey, name ∈ key.fields) ∨
    RefersToItself m feature resource ∧ name = "id"

section Mentions

variable {m : Module} {feature : Feature} {resource : Resource} {name : String}
  {line : SqlColumn} {i : IndexStatement}

theorem field_declared {field : Field} (mem : field ∈ resource.fields) :
    field.name ∈ declaredNames m feature resource := by
  simp only [declaredNames, ownNames, fieldNames, List.mem_append, List.mem_map]
  exact .inl (.inl (.inl (.inr ⟨field, mem, rfl⟩)))

theorem org_declared (org : effectiveTenancy feature resource = .org) :
    "org_id" ∈ declaredNames m feature resource := by
  simp [declaredNames, ownNames, settingNames, org]

theorem rotation_declared (rotation : rotates m feature resource = true)
    (mem : name ∈ rotationNames) : name ∈ declaredNames m feature resource := by
  rw [declaredNames, ownNames, if_pos rotation]
  exact List.mem_append_left _ (List.mem_append_right _ mem)

theorem pair_declared (mem : name ∈ pairNames resource) :
    name ∈ declaredNames m feature resource := List.mem_append_right _ mem

/-- Of the columns only the reference of rotation refers to another. -/
theorem line_cases (mem : line ∈ resourceColumns m feature resource) :
    line ∈ tableConstraints m feature resource ∨ line ∈ missingRotation m feature resource ∨
      ∀ table, line.named table = [] := by
  simp only [resourceColumns, List.mem_append] at mem
  rcases mem with ((((((id | org) | field) | rotation) | time) | deleted) | constraint) | pair
  · split at id
    · cases id
    · rw [List.mem_singleton.mp id]
      exact .inr (.inr fun _ => rfl)
  · split at org
    · rw [List.mem_singleton.mp org]
      exact .inr (.inr fun _ => rfl)
    · cases org
  · obtain ⟨field, -, column⟩ := List.mem_flatMap.mp field
    rcases List.mem_cons.mp column with rfl | currency
    · exact .inr (.inr fun _ => rfl)
    · split at currency
      · rw [List.mem_singleton.mp currency]
        exact .inr (.inr fun _ => rfl)
      · cases currency
  · exact .inr (.inl rotation)
  · split at time
    · simp only [timestampColumns, List.mem_cons, List.not_mem_nil, or_false] at time
      rcases time with rfl | rfl <;> exact .inr (.inr fun _ => rfl)
    · cases time
  · rw [softDeleteColumns] at deleted
    split at deleted
    · rcases List.mem_cons.mp deleted with rfl | actor
      · exact .inr (.inr fun _ => rfl)
      · split at actor
        · rw [List.mem_singleton.mp actor]
          exact .inr (.inr fun _ => rfl)
        · cases actor
    · cases deleted
  · exact .inl constraint
  · obtain ⟨pref, -, column⟩ := List.mem_flatMap.mp pair
    simp only [List.mem_cons, List.not_mem_nil, or_false] at column
    rcases column with rfl | rfl <;> exact .inr (.inr fun _ => rfl)

theorem rotation_cases (mem : line ∈ missingRotation m feature resource)
    (h : name ∈ line.named (lowerSnake resource.name)) :
    RefersToItself m feature resource ∧ name = "id" := by
  rw [missingRotation] at mem
  split at mem
  next rotation =>
    obtain ⟨column, new⟩ := List.mem_filter.mp mem
    simp only [rotationColumns, List.mem_cons, List.not_mem_nil, or_false] at column
    rcases column with rfl | rfl | rfl | rfl
    · cases h
    · cases h
    · refine ⟨.inr ⟨rotation, ?_⟩, ?_⟩
      · simpa [fieldNames, SqlColumn.column] using new
      · simpa [SqlColumn.named] using h
    · cases h
  next => cases mem

theorem constraint_cases (mem : line ∈ tableConstraints m feature resource)
    (h : name ∈ line.named (lowerSnake resource.name)) :
    Demands m feature resource name ∨ name ∈ declaredNames m feature resource := by
  rcases mem_tableConstraints.mp mem with inline | ⟨c, declared, eq⟩ | eq | ⟨field, declared, eq⟩
  · obtain ⟨field, declared, rfl⟩ := inline_cases inline
    rcases List.mem_cons.mp h with rfl | org
    · exact .inr (field_declared declared)
    · split at org
      next tenancy =>
        rw [List.mem_singleton.mp org]
        exact .inr (org_declared tenancy)
      next => cases org
  · obtain ⟨constraint, rfl⟩ := unconditional_cases eq
    exact .inl (.inl ⟨c, declared, h⟩)
  · obtain ⟨key, declared, -, named⟩ := composite_cases _ eq
    rw [named] at h
    exact .inl (.inr (.inl ⟨key, declared, h⟩))
  · obtain ⟨qname, type, owner, rfl⟩ := foreignKeyConstraint_eq_some_iff.mp eq
    rcases List.mem_cons.mp h with rfl | id
    · exact .inr (field_declared declared)
    · split at id
      next same =>
        exact .inl (.inr (.inr ⟨.inl ⟨field, declared, qname, type, owner, same⟩,
          List.mem_singleton.mp id⟩))
      next => cases id

theorem index_cases (mem : i ∈ resourceIndexes m feature resource) (h : i.Names name) :
    Demands m feature resource name ∨ name ∈ declaredNames m feature resource := by
  simp only [resourceIndexes, List.mem_append, List.mem_map, List.mem_filter,
    List.mem_filterMap] at mem
  rcases mem with (((((⟨field, ⟨declared, -⟩, rfl⟩ | ⟨field, ⟨declared, -⟩, rfl⟩) |
    ⟨c, declared, eq⟩) | ⟨c, declared, eq⟩) | ⟨field, declared, eq⟩) | ⟨pref, declared, rfl⟩) |
    rotation
  · rw [List.mem_singleton.mp ((names_of_unconditional rfl).mp h)]
    exact .inr (field_declared declared)
  · rw [List.mem_singleton.mp ((names_of_unconditional rfl).mp h)]
    exact .inr (field_declared declared)
  · exact .inl (.inl ⟨c, declared, (names_authored eq).mp h⟩)
  · exact .inl (.inl ⟨c, declared, (names_conditional eq).mp h⟩)
  · obtain ⟨target, -, rfl⟩ := Option.map_eq_some_iff.mp eq
    rw [List.mem_singleton.mp ((names_of_unconditional rfl).mp h)]
    exact .inr (field_declared declared)
  · have column := (names_of_unconditional rfl).mp h
    exact .inr (pair_declared (List.mem_flatMap.mpr ⟨pref, declared, column⟩))
  · split at rotation
    next rotating =>
      exact .inr (rotation_declared rotating (names_sessionRotation rotation h))
    next => cases rotation

/-- A clause refers to a column that the table has, or to one that was asked for. -/
theorem mentions_cases (h : Mentions m feature resource name) :
    Demands m feature resource name ∨ name ∈ declaredNames m feature resource := by
  rcases h with ⟨line, mem, named⟩ | ⟨i, mem, named⟩
  · rcases line_cases mem with constraint | rotation | none
    · exact constraint_cases constraint named
    · exact .inl (.inr (.inr (rotation_cases rotation named)))
    · rw [none] at named
      cases named
  · exact index_cases mem named

theorem mentions_of_constraint (mem : line ∈ tableConstraints m feature resource)
    (h : name ∈ line.named (lowerSnake resource.name)) : Mentions m feature resource name := by
  refine .inl ⟨line, ?_, h⟩
  simp only [resourceColumns, List.mem_append]
  exact .inl (.inr mem)

theorem mentions_of_namedBy {c : Constraint} (mem : c ∈ resource.constraints)
    (h : name ∈ namedBy c) : Mentions m feature resource name := by
  cases c with
  | index index =>
      obtain ⟨i, eq⟩ := authored_of_named (lowerSnake resource.name) h
      refine .inr ⟨i, ?_, (names_authored eq).mpr h⟩
      simp only [resourceIndexes, List.mem_append, List.mem_filterMap]
      exact .inl (.inl (.inl (.inl (.inr ⟨_, mem, eq⟩))))
  | unique unique =>
      cases conditional : unique.when with
      | none =>
          obtain ⟨constraint, eq⟩ :=
            unconditional_of_named (lowerSnake resource.name) conditional h
          exact mentions_of_constraint (mem_tableConstraints.mpr (.inr (.inl ⟨_, mem, eq⟩))) h
      | some p =>
          obtain ⟨i, eq⟩ := conditional_of_named (lowerSnake resource.name) conditional h
          refine .inr ⟨i, ?_, (names_conditional eq).mpr h⟩
          simp only [resourceIndexes, List.mem_append, List.mem_filterMap]
          exact .inl (.inl (.inl (.inr ⟨_, mem, eq⟩)))

theorem mentions_id (h : RefersToItself m feature resource) :
    Mentions m feature resource "id" := by
  rcases h with ⟨field, mem, qname, type, owner, same⟩ | ⟨rotation, new⟩
  · have eq := foreignKeyConstraint_eq_some_iff.mpr ⟨qname, type, owner, rfl⟩
    refine mentions_of_constraint
      (mem_tableConstraints.mpr (.inr (.inr (.inr ⟨field, mem, eq⟩)))) ?_
    simp [SqlColumn.named, same]
  · refine .inl ⟨.reference "parent_session_id" (lowerSnake resource.name), ?_, ?_⟩
    · have undeclared : SqlColumn.reference "parent_session_id" (lowerSnake resource.name) ∈
          missingRotation m feature resource := by
        unfold rotates at rotation
        rw [missingRotation, if_pos rotation]
        refine List.mem_filter.mpr ⟨?_, ?_⟩
        · simp [rotationColumns]
        · simpa [fieldNames, SqlColumn.column] using new
      simp only [resourceColumns, List.mem_append]
      exact .inl (.inl (.inl (.inl (.inr undeclared))))
    · simp [SqlColumn.named]

theorem mentions_of_demands (h : Demands m feature resource name) :
    Mentions m feature resource name := by
  rcases h with ⟨c, mem, named⟩ | ⟨key, declared, named⟩ | ⟨itself, rfl⟩
  · exact mentions_of_namedBy mem named
  · obtain ⟨line, eq, named⟩ := composite_of_named declared named
    exact mentions_of_constraint (mem_tableConstraints.mpr (.inr (.inr (.inl eq)))) named
  · exact mentions_id itself

end Mentions

/-! ### Well-formed tables -/

section WellFormed

variable {m : Module} {feature : Feature} {resource : Resource}

theorem mentioned_iff :
    (∀ name, Mentions m feature resource name → name ∈ columnNames m feature resource) ↔
      ∀ name, Demands m feature resource name → name ∈ declaredNames m feature resource := by
  constructor
  · intro columns name demanded
    exact mem_columnNames.mp (columns name (mentions_of_demands demanded))
  · intro declared name mentioned
    refine mem_columnNames.mpr ?_
    rcases mentions_cases mentioned with demanded | known
    · exact declared name demanded
    · exact known

theorem wellFormed_iff_mentions : WellFormed m feature resource ↔
    (columnNames m feature resource).Nodup ∧
      ∀ name, Mentions m feature resource name → name ∈ columnNames m feature resource := by
  constructor
  · rintro ⟨distinct, constraints, indexes⟩
    refine ⟨distinct, fun name mentioned => ?_⟩
    rcases mentioned with ⟨line, mem, named⟩ | ⟨i, mem, named⟩
    · exact constraints line mem name named
    · exact indexes i mem name named
  · rintro ⟨distinct, mentioned⟩
    exact ⟨distinct, fun line mem name named => mentioned name (.inl ⟨line, mem, named⟩),
      fun i mem name named => mentioned name (.inr ⟨i, mem, named⟩)⟩

/-- The table of a resource with its own names is well formed where currencies and references have
names of their own, and what is asked of a column is asked of one that there is. -/
theorem wellFormed_iff_sound (names : (fieldNames resource).Nodup)
    (fresh : ∀ name ∈ fieldNames resource, name ∉ synthesised) :
    WellFormed m feature resource ↔ Sound m feature resource := by
  rw [wellFormed_iff_mentions, nodup_columnNames_iff names fresh, mentioned_iff]
  constructor
  · rintro ⟨⟨⟨currencies, amounts⟩, pairs, apart⟩, declared⟩
    exact
      { currencies, amounts, pairs
        fresh := apart
        keyed := fun itself => declared "id" (.inr (.inr ⟨itself, rfl⟩))
        constraints := fun c mem name named => declared name (.inl ⟨c, mem, named⟩)
        composite := fun key mem name named => declared name (.inr (.inl ⟨key, mem, named⟩)) }
  · intro sound
    refine ⟨⟨⟨sound.currencies, sound.amounts⟩, sound.pairs, sound.fresh⟩, fun name demanded => ?_⟩
    rcases demanded with ⟨c, mem, named⟩ | ⟨key, mem, named⟩ | ⟨itself, rfl⟩
    · exact sound.constraints c mem name named
    · exact sound.composite key mem name named
    · exact sound.keyed itself

end WellFormed

/-! ### Listings of a shop -/

def priceField : Field := { name := "price", typeRef := .builtin .semanticMoney, required := true }

def slugField : Field :=
  { name := "slug", typeRef := .builtin .text, required := true, unique := true }

def shop : Feature := { name := "shop" }

/-- A listing with most of what brings columns in. -/
def listing : Resource where
  name := "Listing"
  tenancy := some .org
  softDelete := true
  timestamps := some true
  fields := [priceField, slugField]
  polymorphicRefs := [⟨"seller_type", "seller_id", ["Person", "Company"]⟩]
  constraints := [.unique { fields := ["slug"], per := some "Org" }]

/-- The currency of the price is written out as text. -/
def pairedListing : Resource where
  name := "Listing"
  fields := [priceField, { name := "price_currency", typeRef := .builtin .text, required := true }]

theorem wellFormed_listing : WellFormed ⟨[shop]⟩ shop listing :=
  (wellFormed_iff_sound (by decide) (by decide)).mpr
    { currencies := by decide
      amounts := by decide
      pairs := by decide
      fresh := by decide
      keyed := fun _ => by decide
      constraints := by decide
      composite := by decide }

/-- The table has the column of the field, and that which the amount brings. -/
theorem currency_twice :
    ((fieldNames pairedListing).Nodup ∧
      ∀ name ∈ fieldNames pairedListing, name ∉ synthesised) ∧
      ¬WellFormed ⟨[shop]⟩ shop pairedListing := by
  refine ⟨by decide, fun h => ?_⟩
  exact absurd h.distinct (by decide)

end Lazuli.Migration
