import Mathlib.Data.List.Nodup
import Mathlib.Data.List.Perm.Basic
import Mathlib.Data.List.TakeWhile
import Lazuli.Codegen.Schema

/-!
The row struct of a resource and the columns of its table (`emitter/resource/struct_emit_p1.rs`,
`emitter/migration_ddl/create_table.rs`).

Both emitters go through the declarations of a resource. `pgx.RowToStructByName` wants a field
for every column that a statement returns and a column for every field.
-/

namespace Lazuli.Codegen

open Ir

/-! ### Settings -/

def isOrg (feature : Feature) (resource : Resource) : Bool :=
  effectiveTenancy feature resource = .org

def hasField (resource : Resource) (name : String) : Bool :=
  resource.fields.any fun f => f.name = name

def hasExplicitTimestampFields (resource : Resource) : Bool :=
  hasField resource "created_at" && hasField resource "updated_at"

/-- The struct has timestamps also when both are declared as fields. -/
def structTimestamps (feature : Feature) (resource : Resource) : Bool :=
  match resource.timestamps with
  | some explicit => explicit
  | none => feature.defaults.timestamps || hasExplicitTimestampFields resource

def tableTimestamps (feature : Feature) (resource : Resource) : Bool :=
  resource.timestamps.getD feature.defaults.timestamps

def isMoney (field : Field) : Bool := field.typeRef = .builtin .semanticMoney

def currencyName (field : Field) : String := field.name ++ "_currency"

/-- The currency column of an amount is declared as a field. -/
def explicitCurrency (resource : Resource) (field : Field) : Bool :=
  resource.fields.any fun f =>
    f.typeRef = .builtin .semanticCurrency ∧ f.name = currencyName field

/-- The amounts whose currency column both emitters add. -/
def pairedFields (resource : Resource) : List Field :=
  resource.fields.filter fun f => isMoney f && !explicitCurrency resource f

/-! ### The struct -/

structure TaggedField where
  dbCol : String
  jsonSuffix : String
  deriving DecidableEq

def isSecretCapability : TypeRef → Bool
  | .builtin .capSecret => true
  | .capability .hashed | .capability .encrypted | .capability .e2ee | .capability .token => true
  | _ => false

def optionalSuffix (name : String) (required : Bool) : String :=
  if required then name else name ++ ",omitempty"

def dbColFor (field : Field) : String :=
  if field.typeRef = .builtin .semanticGeoPoint then
    field.name ++ ",type:geography(point,4326)"
  else field.name

/-- A derived field is a comment in the struct. -/
def fieldRow (field : Field) : Option TaggedField :=
  if field.derivedFrom.isSome then none
  else some
    { dbCol := dbColFor field
      jsonSuffix :=
        if isSecretCapability field.typeRef then "-"
        else optionalSuffix field.name field.required }

def plainRow (name : String) : TaggedField := ⟨name, name⟩

def currencyRow (field : Field) : TaggedField :=
  ⟨currencyName field, optionalSuffix (currencyName field) field.required⟩

def timestampRows (feature : Feature) (resource : Resource) : List TaggedField :=
  if structTimestamps feature resource then
    (["created_at", "updated_at"].filter fun name => !hasField resource name).map plainRow
  else []

def softDeleteRows (resource : Resource) : List TaggedField :=
  if resource.softDelete then
    ⟨"deleted_at", "deleted_at,omitempty"⟩ ::
      if resource.softDeleteActor then [⟨"deleted_by", "deleted_by,omitempty"⟩] else []
  else []

def polymorphicColumns (resource : Resource) : List String :=
  resource.polymorphicRefs.flatMap fun p => [p.typeField, p.idField]

def structRows (feature : Feature) (resource : Resource) : List TaggedField :=
  [plainRow "id"] ++ (if isOrg feature resource then [plainRow "org_id"] else []) ++
    resource.fields.filterMap fieldRow ++ (polymorphicColumns resource).map plainRow ++
    (pairedFields resource).map currencyRow ++ timestampRows feature resource ++
    softDeleteRows resource

/-- The name in a `db` tag ends at the first comma; a dash skips the field. -/
def tagColumn (tag : String) : Option String :=
  let name := String.ofList (tag.toList.takeWhile (· ≠ ','))
  if name = "-" then none else some name

/-- The columns that the struct scans. -/
def structColumns (feature : Feature) (resource : Resource) : List String :=
  (structRows feature resource).filterMap fun row => tagColumn row.dbCol

/-! ### The table -/

/-- A typed column is quoted where it has to be; a raw one never is. -/
inductive SqlColumn where
  | typed (name : String)
  | raw (name : String)

def isIdentStart (c : Char) : Bool := c.isAlpha || c = '_' || 128 ≤ c.toNat

/-- An unquoted identifier is folded to lower case. -/
def unquoted (name : String) : Option String :=
  match name.toList with
  | [] => none
  | first :: rest =>
      if isIdentStart first && rest.all fun c => isIdentStart c || c.isDigit || c = '$' then
        some (String.ofList (name.toList.map Char.toLower))
      else none

def SqlColumn.column : SqlColumn → Option String
  | .typed name => if name = "" then none else some name
  | .raw name => unquoted name

def sessionResourceMatches (authFeature : Feature) (sessions : AuthSessions)
    (feature : Feature) (resource : Resource) : Bool :=
  sessions.resource.name = resource.name ∧
    sessions.resource.feature.getD authFeature.name = feature.name

def sessionRotationEnabledForResource (m : Module) (feature : Feature) (resource : Resource) :
    Option AuthSessions :=
  m.features.findSome? fun authFeature =>
    authFeature.sessions.filter fun sessions =>
      sessions.rotation && sessionResourceMatches authFeature sessions feature resource

def rotationColumns : List String :=
  ["refresh_token_hash", "refresh_expires_at", "parent_session_id", "theft_detected_at"]

/-- The rotation columns that no field declares. -/
def missingRotation (m : Module) (feature : Feature) (resource : Resource) : List String :=
  if (sessionRotationEnabledForResource m feature resource).isSome then
    rotationColumns.filter fun name => !hasField resource name
  else []

def compositePrimary (resource : Resource) : Bool := resource.compositeKey.any (·.primary)

/-- The column of a field, and behind an amount that of its currency. -/
def fieldColumns (resource : Resource) (field : Field) : List SqlColumn :=
  .typed field.name ::
    if isMoney field && !explicitCurrency resource field then [.raw (currencyName field)] else []

/-- The columns of `CREATE TABLE`, without its constraints. -/
def resourceColumns (m : Module) (feature : Feature) (resource : Resource) : List SqlColumn :=
  (if compositePrimary resource then [] else [.raw "id"]) ++
    (if isOrg feature resource then [.typed "org_id"] else []) ++
    resource.fields.flatMap (fieldColumns resource) ++
    (missingRotation m feature resource).map .raw ++
    (if tableTimestamps feature resource then [.raw "created_at", .raw "updated_at"] else []) ++
    (if resource.softDelete then
      .typed "deleted_at" :: if resource.softDeleteActor then [.typed "deleted_by"] else []
    else []) ++
    (polymorphicColumns resource).map .typed

def tableColumns (m : Module) (feature : Feature) (resource : Resource) : List (Option String) :=
  (resourceColumns m feature resource).map SqlColumn.column

/-! ### Names -/

def settingNames : List String :=
  ["id", "org_id", "created_at", "updated_at", "deleted_at", "deleted_by"]

/-- The names that settings bring in, but for the key of a composite primary key. -/
def implicitNames (feature : Feature) (resource : Resource) : List String :=
  (if compositePrimary resource then [] else ["id"]) ++
    (if isOrg feature resource then ["org_id"] else []) ++
    (if tableTimestamps feature resource then ["created_at", "updated_at"] else []) ++
    (if resource.softDelete then
      "deleted_at" :: if resource.softDeleteActor then ["deleted_by"] else []
    else [])

def fieldNames (resource : Resource) : List String := resource.fields.map (·.name)

def currencyNames (resource : Resource) : List String :=
  (pairedFields resource).map currencyName

def declaredNames (resource : Resource) : List String :=
  fieldNames resource ++ currencyNames resource ++ polymorphicColumns resource

/-- A name that a tag reads back. -/
def Plain (name : String) : Prop := ',' ∉ name.toList ∧ name ≠ "-"

/-! ### The property -/

section Columns

variable (m : Module) (feature : Feature) (resource : Resource)

/-- `CREATE TABLE` lists columns that SQL can read, none of them twice, and the struct scans
these columns and no other. -/
structure SameColumns : Prop where
  valid : ∀ col ∈ tableColumns m feature resource, col.isSome
  once : (tableColumns m feature resource).Nodup
  same : ∀ c, c ∈ structColumns feature resource ↔ some c ∈ tableColumns m feature resource

/-- The declarations of the resource do not get in each other's way. -/
structure Aligned : Prop where
  /-- A composite primary key leaves the `id` to a declared column. -/
  key : compositePrimary resource → "id" ∈ declaredNames resource
  /-- Nothing is derived, but for such an `id`. -/
  stored : ∀ f ∈ resource.fields, f.derivedFrom.isSome → compositePrimary resource ∧ f.name = "id"
  /-- The fields declare the columns of session rotation. -/
  rotation : missingRotation m feature resource = []
  distinct : (declaredNames resource).Nodup
  apart : ∀ name ∈ declaredNames resource, name ∉ implicitNames feature resource
  readable : ∀ name ∈ fieldNames resource ++ polymorphicColumns resource, name ≠ "" ∧ Plain name
  /-- An added currency column has a name that is its own when it is not quoted. -/
  unfolded : ∀ name ∈ currencyNames resource, unquoted name = some name

end Columns

/-! ### Reading names -/

theorem tagColumn_plain {tag c : String} (h : tagColumn tag = some c) : Plain c := by
  unfold tagColumn at h
  dsimp only at h
  split at h
  · cases h
  next dash =>
    obtain rfl := Option.some.inj h
    refine ⟨?_, dash⟩
    intro comma
    rw [String.toList_ofList] at comma
    have kept := List.mem_takeWhile_imp comma
    simp at kept

theorem tagColumn_of_plain {name : String} (h : Plain name) : tagColumn name = some name := by
  have all : name.toList.takeWhile (· ≠ ',') = name.toList := by
    apply List.takeWhile_eq_self_iff.mpr
    intro c hc
    have ne : c ≠ ',' := fun comma => h.1 (comma ▸ hc)
    exact decide_eq_true ne
  unfold tagColumn
  rw [all, String.ofList_toList]
  exact if_neg h.2

/-- The type of a point stands behind a comma. -/
theorem tagColumn_dbColFor (field : Field) : tagColumn (dbColFor field) = tagColumn field.name := by
  unfold dbColFor
  split
  · unfold tagColumn
    have cut : (field.name ++ ",type:geography(point,4326)").toList.takeWhile (· ≠ ',') =
        field.name.toList.takeWhile (· ≠ ',') := by
      rw [String.toList_append, List.takeWhile_append]
      split
      next all =>
        have same := (List.takeWhile_prefix (· ≠ ',')).eq_of_length all
        rw [same]
        exact List.append_nil _
      · rfl
    rw [cut]
  · rfl

theorem toLower_toLower (c : Char) : c.toLower.toLower = c.toLower := by
  unfold Char.toLower
  split
  next upper =>
    obtain ⟨low, high⟩ := upper
    rw [dif_neg]
    rintro ⟨-, again⟩
    change c.val + 32 ≤ 'Z'.val at again
    rw [UInt32.le_iff_toNat_le, UInt32.toNat_add] at again
    rw [ge_iff_le, UInt32.le_iff_toNat_le] at low
    rw [UInt32.le_iff_toNat_le] at high
    have a : 'A'.val.toNat = 65 := rfl
    have z : 'Z'.val.toNat = 90 := rfl
    have d : (32 : UInt32).toNat = 32 := rfl
    omega
  · rfl

/-- An unquoted name is an identifier, and is read in lower case. -/
theorem unquoted_some {name c : String} (h : unquoted name = some c) :
    c.toList = name.toList.map Char.toLower ∧ Plain name := by
  unfold unquoted at h
  split at h
  · cases h
  next first rest hname =>
    split at h
    next ident =>
      obtain rfl := Option.some.inj h
      rw [Bool.and_eq_true, List.all_eq_true] at ident
      refine ⟨String.toList_ofList, ?_, ?_⟩
      · rw [hname]
        intro comma
        rcases List.mem_cons.mp comma with rfl | comma
        · exact absurd ident.1 (by decide)
        · exact absurd (ident.2 _ comma) (by decide)
      · rintro rfl
        cases hname
        exact absurd ident.1 (by decide)
    · cases h

theorem unquoted_lower {name c : String} (h : unquoted name = some c) {d : String}
    (again : unquoted c = some d) : d = c := by
  have once := (unquoted_some h).1
  have twice := (unquoted_some again).1
  rw [once, List.map_map] at twice
  apply String.toList_injective
  rw [twice, once]
  apply List.map_congr_left
  intro a _
  exact toLower_toLower a

/-- A currency column is none of the columns with a fixed name. -/
theorem currency_suffix {field : Field} {c : String} (h : unquoted (currencyName field) = some c) :
    "_currency".toList <:+ c.toList := by
  rw [(unquoted_some h).1, currencyName, String.toList_append, List.map_append]
  exact List.suffix_append _ _

/-! ### The columns of both -/

section Both

variable {m : Module} {feature : Feature} {resource : Resource} {c : String}

theorem mem_plainRows {names : List String} (plain : ∀ n ∈ names, Plain n) :
    (∃ row ∈ names.map plainRow, tagColumn row.dbCol = some c) ↔ c ∈ names := by
  simp only [List.mem_map, exists_exists_and_eq_and]
  constructor
  · rintro ⟨n, hn, read⟩
    change tagColumn n = some c at read
    rw [tagColumn_of_plain (plain n hn)] at read
    exact Option.some.inj read ▸ hn
  · exact fun hc => ⟨c, hc, tagColumn_of_plain (plain c hc)⟩

theorem mem_structColumns : c ∈ structColumns feature resource ↔
    c = "id" ∨ (isOrg feature resource ∧ c = "org_id") ∨
      (∃ f ∈ resource.fields, f.derivedFrom = none ∧ tagColumn f.name = some c) ∨
      (∃ n ∈ polymorphicColumns resource, tagColumn n = some c) ∨
      (∃ f ∈ pairedFields resource, tagColumn (currencyName f) = some c) ∨
      (structTimestamps feature resource ∧ c ∈ ["created_at", "updated_at"] ∧
        hasField resource c = false) ∨
      (resource.softDelete ∧
        (c = "deleted_at" ∨ resource.softDeleteActor ∧ c = "deleted_by")) := by
  have fixed : ∀ n ∈ settingNames, Plain n := by
    unfold Plain
    decide
  simp only [structColumns, List.mem_filterMap, structRows, List.mem_append, or_and_right,
    exists_or, or_assoc]
  apply or_congr
  · rw [show [plainRow "id"] = ["id"].map plainRow from rfl, mem_plainRows, List.mem_singleton]
    exact fun n hn => fixed n ((by decide : ["id"] ⊆ _) hn)
  apply or_congr
  · split
    next org =>
      rw [show [plainRow "org_id"] = ["org_id"].map plainRow from rfl, mem_plainRows,
        List.mem_singleton, and_iff_right org]
      exact fun n hn => fixed n ((by decide : ["org_id"] ⊆ _) hn)
    next org => simp [org]
  apply or_congr
  · constructor
    · rintro ⟨row, ⟨f, hf, hrow⟩, read⟩
      unfold fieldRow at hrow
      split at hrow
      · cases hrow
      next kept =>
        obtain rfl := Option.some.inj hrow
        exact ⟨f, hf, Option.not_isSome_iff_eq_none.mp kept, tagColumn_dbColFor f ▸ read⟩
    · rintro ⟨f, hf, kept, read⟩
      refine ⟨_, ⟨f, hf, by rw [fieldRow, kept]; rfl⟩, ?_⟩
      exact (tagColumn_dbColFor f).trans read
  apply or_congr
  · simp only [List.mem_map, exists_exists_and_eq_and]
    rfl
  apply or_congr
  · simp only [List.mem_map, exists_exists_and_eq_and]
    rfl
  apply or_congr
  · unfold timestampRows
    split
    next stamps =>
      rw [mem_plainRows, List.mem_filter, and_iff_right stamps, Bool.not_eq_true']
      intro n hn
      exact fixed n ((by decide : ["created_at", "updated_at"] ⊆ _) (List.mem_filter.mp hn).1)
    next stamps => simp [stamps]
  · have at' : tagColumn "deleted_at" = some "deleted_at" :=
      tagColumn_of_plain (fixed _ (by decide))
    have by' : tagColumn "deleted_by" = some "deleted_by" :=
      tagColumn_of_plain (fixed _ (by decide))
    unfold softDeleteRows
    cases resource.softDelete <;> cases resource.softDeleteActor <;> simp [at', by', eq_comm]

def fieldCols (resource : Resource) : List (Option String) :=
  (fieldNames resource).map fun n => SqlColumn.column (.typed n)

def currencyCols (resource : Resource) : List (Option String) :=
  (currencyNames resource).map unquoted

def polymorphicCols (resource : Resource) : List (Option String) :=
  (polymorphicColumns resource).map fun n => SqlColumn.column (.typed n)

/-- An amount and its currency, one behind the other or in two lists. -/
theorem fieldColumns_perm (resource : Resource) :
    ((resource.fields.flatMap (fieldColumns resource)).map SqlColumn.column).Perm
      (fieldCols resource ++ currencyCols resource) := by
  have pairs : currencyCols resource = resource.fields.flatMap fun f =>
      if isMoney f && !explicitCurrency resource f then [unquoted (currencyName f)] else [] := by
    unfold currencyCols currencyNames pairedFields
    rw [List.map_map]
    induction resource.fields with
    | nil => rfl
    | cons f fields ih =>
        rw [List.flatMap_cons, ← ih, List.filter_cons]
        split <;> rfl
  have each : (resource.fields.flatMap (fieldColumns resource)).map SqlColumn.column =
      resource.fields.flatMap fun f => SqlColumn.column (.typed f.name) ::
        if isMoney f && !explicitCurrency resource f then [unquoted (currencyName f)] else [] := by
    rw [List.map_flatMap]
    congr 1
    funext f
    unfold fieldColumns
    split <;> rfl
  rw [pairs, each, fieldCols, fieldNames, List.map_map]
  exact (List.map_append_flatMap_perm _ _ _).symm

theorem missingRotation_subset : missingRotation m feature resource ⊆ rotationColumns := by
  unfold missingRotation
  split
  · exact List.filter_subset_self _
  · exact List.nil_subset _

theorem tableColumns_perm : (tableColumns m feature resource).Perm
    ((implicitNames feature resource).map some ++ (missingRotation m feature resource).map some ++
      (fieldCols resource ++ currencyCols resource) ++ polymorphicCols resource) := by
  have key : (if compositePrimary resource then [] else [SqlColumn.raw "id"]).map
      SqlColumn.column = (if compositePrimary resource then [] else ["id"]).map some := by
    split <;> rfl
  have org : (if isOrg feature resource then [SqlColumn.typed "org_id"] else []).map
      SqlColumn.column = (if isOrg feature resource then ["org_id"] else []).map some := by
    split <;> rfl
  have stamps : (if tableTimestamps feature resource then
      [SqlColumn.raw "created_at", .raw "updated_at"] else []).map SqlColumn.column =
      (if tableTimestamps feature resource then ["created_at", "updated_at"] else []).map some := by
    split <;> rfl
  have soft : (if resource.softDelete then SqlColumn.typed "deleted_at" ::
        if resource.softDeleteActor then [.typed "deleted_by"] else []
      else []).map SqlColumn.column =
      (if resource.softDelete then "deleted_at" ::
        if resource.softDeleteActor then ["deleted_by"] else []
      else []).map some := by
    cases resource.softDelete <;> cases resource.softDeleteActor <;> rfl
  have rotation : ((missingRotation m feature resource).map SqlColumn.raw).map SqlColumn.column =
      (missingRotation m feature resource).map some := by
    rw [List.map_map]
    apply List.map_congr_left
    intro n hn
    have named : ∀ n ∈ rotationColumns, unquoted n = some n := by decide
    exact named n (missingRotation_subset hn)
  have poly : ((polymorphicColumns resource).map SqlColumn.typed).map SqlColumn.column =
      polymorphicCols resource := List.map_map
  unfold tableColumns resourceColumns implicitNames
  rw [List.perm_iff_count]
  intro c
  simp only [List.map_append, key, org, stamps, soft, rotation, poly, List.count_append,
    (fieldColumns_perm resource).count_eq]
  omega

/-- The struct has timestamps on its own account only where both are fields. -/
theorem structTimestamps_iff : structTimestamps feature resource ∧ hasField resource c = false ∧
      c ∈ ["created_at", "updated_at"] ↔
    tableTimestamps feature resource ∧ hasField resource c = false ∧
      c ∈ ["created_at", "updated_at"] := by
  unfold structTimestamps tableTimestamps
  cases resource.timestamps with
  | some explicit => rfl
  | none =>
      rw [Option.getD_none, Bool.or_eq_true, or_and_right, or_iff_left]
      rintro ⟨both, absent, stamp⟩
      unfold hasExplicitTimestampFields at both
      rw [Bool.and_eq_true] at both
      simp only [List.mem_cons, List.not_mem_nil, or_false] at stamp
      rcases stamp with rfl | rfl
      · rw [absent] at both
        cases both.1
      · rw [absent] at both
        cases both.2

theorem hasField_eq_false : hasField resource c = false ↔ c ∉ fieldNames resource := by
  simp [hasField, fieldNames]

/-- Under the implicit names are the timestamps of the table. -/
theorem mem_implicitNames : c ∈ implicitNames feature resource ↔
    (compositePrimary resource = false ∧ c = "id") ∨ (isOrg feature resource ∧ c = "org_id") ∨
      (tableTimestamps feature resource ∧ c ∈ ["created_at", "updated_at"]) ∨
      (resource.softDelete ∧
        (c = "deleted_at" ∨ resource.softDeleteActor ∧ c = "deleted_by")) := by
  unfold implicitNames
  cases compositePrimary resource <;> cases isOrg feature resource <;>
    cases tableTimestamps feature resource <;> cases resource.softDelete <;>
    cases resource.softDeleteActor <;> simp [or_assoc]

theorem implicitNames_fixed (h : c ∈ implicitNames feature resource) : c ∈ settingNames := by
  unfold settingNames
  rcases mem_implicitNames.mp h with ⟨-, rfl⟩ | ⟨-, rfl⟩ | ⟨-, stamp⟩ | ⟨-, rfl | ⟨-, rfl⟩⟩
  · simp
  · simp
  · simp only [List.mem_cons, List.not_mem_nil, or_false] at stamp
    rcases stamp with rfl | rfl <;> simp
  · simp
  · simp

theorem implicitNames_nodup : (implicitNames feature resource).Nodup := by
  unfold implicitNames
  cases compositePrimary resource <;> cases isOrg feature resource <;>
    cases tableTimestamps feature resource <;> cases resource.softDelete <;>
    cases resource.softDeleteActor <;> decide

theorem mem_declaredNames : c ∈ declaredNames resource ↔
    (∃ f ∈ resource.fields, f.name = c) ∨ (∃ f ∈ pairedFields resource, currencyName f = c) ∨
      c ∈ polymorphicColumns resource := by
  simp [declaredNames, fieldNames, currencyNames]

end Both

/-! ### Aligned resources -/

section Aligned

variable {m : Module} {feature : Feature} {resource : Resource}

/-- Where every name is read as it is written, the table has the names of the settings and of
the declarations. -/
theorem tableColumns_perm_names (rotation : missingRotation m feature resource = [])
    (named : ∀ name ∈ fieldNames resource ++ polymorphicColumns resource, name ≠ "")
    (unfolded : ∀ name ∈ currencyNames resource, unquoted name = some name) :
    (tableColumns m feature resource).Perm
      ((implicitNames feature resource ++ declaredNames resource).map some) := by
  apply tableColumns_perm.trans
  have typed {names : List String}
      (sub : names ⊆ fieldNames resource ++ polymorphicColumns resource) :
      names.map (fun n => SqlColumn.column (.typed n)) = names.map some := by
    apply List.map_congr_left
    intro n hn
    exact if_neg (named n (sub hn))
  have fields : fieldCols resource = (fieldNames resource).map some :=
    typed (List.subset_append_left _ _)
  have poly : polymorphicCols resource = (polymorphicColumns resource).map some :=
    typed (List.subset_append_right _ _)
  have currency : currencyCols resource = (currencyNames resource).map some :=
    List.map_congr_left unfolded
  rw [rotation, fields, poly, currency, declaredNames]
  simp

theorem Aligned.tableColumns_perm (h : Aligned m feature resource) :
    (tableColumns m feature resource).Perm
      ((implicitNames feature resource ++ declaredNames resource).map some) :=
  tableColumns_perm_names h.rotation (fun n hn => (h.readable n hn).1) h.unfolded

theorem Aligned.mem_structColumns (h : Aligned m feature resource) {c : String} :
    c ∈ structColumns feature resource ↔
      c ∈ implicitNames feature resource ∨ c ∈ declaredNames resource := by
  have currency {f : Field} (hf : f ∈ pairedFields resource) :
      tagColumn (currencyName f) = some (currencyName f) :=
    tagColumn_of_plain (unquoted_some (h.unfolded _ (List.mem_map_of_mem hf))).2
  have field {f : Field} (hf : f ∈ resource.fields) : tagColumn f.name = some f.name :=
    tagColumn_of_plain (h.readable _ (List.mem_append_left _ (List.mem_map_of_mem hf))).2
  have poly {n : String} (hn : n ∈ polymorphicColumns resource) : tagColumn n = some n :=
    tagColumn_of_plain (h.readable _ (List.mem_append_right _ hn)).2
  rw [Lazuli.Codegen.mem_structColumns, mem_implicitNames, mem_declaredNames]
  constructor
  · rintro (rfl | org | ⟨f, hf, -, read⟩ | ⟨n, hn, read⟩ | ⟨f, hf, read⟩ | ⟨stamps, stamp, absent⟩ |
      soft)
    · cases hkey : compositePrimary resource with
      | false => exact .inl (.inl ⟨rfl, rfl⟩)
      | true => exact .inr (mem_declaredNames.mp (h.key hkey))
    · exact .inl (.inr (.inl org))
    · rw [field hf] at read
      exact .inr (.inl ⟨f, hf, Option.some.inj read⟩)
    · rw [poly hn] at read
      exact .inr (.inr (.inr (Option.some.inj read ▸ hn)))
    · rw [currency hf] at read
      exact .inr (.inr (.inl ⟨f, hf, Option.some.inj read⟩))
    · have table := structTimestamps_iff.mp ⟨stamps, absent, stamp⟩
      exact .inl (.inr (.inr (.inl ⟨table.1, stamp⟩)))
    · exact .inl (.inr (.inr (.inr soft)))
  · rintro ((⟨-, rfl⟩ | org | ⟨stamps, stamp⟩ | soft) | ⟨f, hf, rfl⟩ | ⟨f, hf, rfl⟩ | hn)
    · exact .inl rfl
    · exact .inr (.inl org)
    · have absent : hasField resource c = false := by
        rw [hasField_eq_false]
        intro mem
        have declared : c ∈ declaredNames resource :=
          List.mem_append_left _ (List.mem_append_left _ mem)
        apply h.apart c declared
        rw [mem_implicitNames]
        exact .inr (.inr (.inl ⟨stamps, stamp⟩))
      have struct := structTimestamps_iff.mpr ⟨stamps, absent, stamp⟩
      exact .inr (.inr (.inr (.inr (.inr (.inl ⟨struct.1, stamp, absent⟩)))))
    · exact .inr (.inr (.inr (.inr (.inr (.inr soft)))))
    · cases hderived : f.derivedFrom with
      | none => exact .inr (.inr (.inl ⟨f, hf, hderived, field hf⟩))
      | some expr => exact .inl (h.stored f hf (by rw [hderived]; rfl)).2
    · exact .inr (.inr (.inr (.inr (.inl ⟨f, hf, currency hf⟩))))
    · exact .inr (.inr (.inr (.inl ⟨c, hn, poly hn⟩)))

theorem Aligned.sameColumns (h : Aligned m feature resource) :
    SameColumns m feature resource := by
  have perm := h.tableColumns_perm
  constructor
  · intro col hcol
    obtain ⟨n, -, rfl⟩ := List.mem_map.mp (perm.mem_iff.mp hcol)
    rfl
  · rw [perm.nodup_iff]
    apply List.Nodup.map (fun _ _ => Option.some.inj)
    rw [List.nodup_append']
    exact ⟨implicitNames_nodup, h.distinct, fun n implicit declared => h.apart n declared implicit⟩
  · intro c
    rw [h.mem_structColumns, perm.mem_iff, List.mem_map]
    simp

/-! #### What agreement asks of the declarations -/

theorem structColumns_plain {c : String} (h : c ∈ structColumns feature resource) : Plain c := by
  obtain ⟨row, -, read⟩ := List.mem_filterMap.mp h
  exact tagColumn_plain read

theorem SameColumns.plain (h : SameColumns m feature resource) {c : String}
    (hc : some c ∈ tableColumns m feature resource) : Plain c :=
  structColumns_plain ((h.same c).mpr hc)

theorem SameColumns.readable (h : SameColumns m feature resource) :
    ∀ name ∈ fieldNames resource ++ polymorphicColumns resource, name ≠ "" ∧ Plain name := by
  intro n hn
  have mem : SqlColumn.column (.typed n) ∈ tableColumns m feature resource := by
    rw [Lazuli.Codegen.tableColumns_perm.mem_iff]
    simp only [List.mem_append, fieldCols, polymorphicCols]
    rcases List.mem_append.mp hn with field | poly
    · exact .inl (.inr (.inl (List.mem_map_of_mem field)))
    · exact .inr (List.mem_map_of_mem poly)
  have named : n ≠ "" := by
    rintro rfl
    cases h.valid _ mem
  rw [SqlColumn.column, if_neg named] at mem
  exact ⟨named, h.plain mem⟩

theorem SameColumns.currency (h : SameColumns m feature resource) {f : Field}
    (hf : f ∈ pairedFields resource) : ∃ c, unquoted (currencyName f) = some c ∧
      some c ∈ tableColumns m feature resource ∧ some c ∈ currencyCols resource := by
  have listed : unquoted (currencyName f) ∈ currencyCols resource :=
    List.mem_map_of_mem (List.mem_map_of_mem hf)
  have mem : unquoted (currencyName f) ∈ tableColumns m feature resource := by
    rw [Lazuli.Codegen.tableColumns_perm.mem_iff]
    simp only [List.mem_append]
    exact .inl (.inr (.inr listed))
  obtain ⟨c, read⟩ := Option.isSome_iff_exists.mp (h.valid _ mem)
  exact ⟨c, read, read ▸ mem, read ▸ listed⟩

/-- A column of the struct is a declared name or one that settings bring in. -/
theorem SameColumns.mem_structColumns (h : SameColumns m feature resource) {c : String}
    (hc : c ∈ structColumns feature resource) :
    (c ∈ implicitNames feature resource ∨ compositePrimary resource ∧ c = "id") ∨
      (∃ f ∈ resource.fields, f.derivedFrom = none ∧ f.name = c) ∨
      c ∈ polymorphicColumns resource ∨ ∃ f ∈ pairedFields resource, currencyName f = c := by
  have read {n : String} (plain : Plain n) (hn : tagColumn n = some c) : n = c := by
    rw [tagColumn_of_plain plain] at hn
    exact Option.some.inj hn
  rw [mem_implicitNames]
  rcases Lazuli.Codegen.mem_structColumns.mp hc with rfl | org | ⟨f, hf, kept, hn⟩ |
    ⟨n, poly, hn⟩ | ⟨f, hf, hn⟩ | ⟨stamps, stamp, absent⟩ | soft
  · cases hkey : compositePrimary resource with
    | false => exact .inl (.inl (.inl ⟨rfl, rfl⟩))
    | true => exact .inl (.inr ⟨rfl, rfl⟩)
  · exact .inl (.inl (.inr (.inl org)))
  · have plain := (h.readable _ (List.mem_append_left _ (List.mem_map_of_mem hf))).2
    exact .inr (.inl ⟨f, hf, kept, read plain hn⟩)
  · have plain := (h.readable _ (List.mem_append_right _ poly)).2
    exact .inr (.inr (.inl (read plain hn ▸ poly)))
  · obtain ⟨d, folded, -⟩ := h.currency hf
    exact .inr (.inr (.inr ⟨f, hf, read (unquoted_some folded).2 hn⟩))
  · have table := structTimestamps_iff.mp ⟨stamps, absent, stamp⟩
    exact .inl (.inl (.inr (.inr (.inl ⟨table.1, stamp⟩))))
  · exact .inl (.inl (.inr (.inr (.inr soft))))

/-- Such a name is neither for rotation nor for a currency. -/
theorem setting_fixed {c : String}
    (h : c ∈ implicitNames feature resource ∨ compositePrimary resource ∧ c = "id") :
    c ∈ settingNames := by
  rcases h with implicit | ⟨-, rfl⟩
  · exact implicitNames_fixed implicit
  · exact List.mem_cons_self

theorem SameColumns.rotation (h : SameColumns m feature resource) :
    missingRotation m feature resource = [] := by
  rw [List.eq_nil_iff_forall_not_mem]
  intro r hr
  have fixed := missingRotation_subset hr
  have listed : some r ∈ tableColumns m feature resource := by
    rw [Lazuli.Codegen.tableColumns_perm.mem_iff]
    simp only [List.mem_append]
    exact .inl (.inl (.inr (List.mem_map_of_mem hr)))
  have absent : r ∉ fieldNames resource := by
    unfold missingRotation at hr
    split at hr
    · rw [← hasField_eq_false]
      simpa using (List.mem_filter.mp hr).2
    · cases hr
  rcases h.mem_structColumns ((h.same r).mpr listed) with setting | ⟨f, hf, -, rfl⟩ | poly |
    ⟨f, -, rfl⟩
  · have other : ∀ r ∈ rotationColumns, r ∉ settingNames := by decide
    exact other r fixed (setting_fixed setting)
  · exact absent (List.mem_map_of_mem hf)
  · have once := Lazuli.Codegen.tableColumns_perm.nodup_iff.mp h.once
    have named := (h.readable r (List.mem_append_right _ poly)).1
    have typed : some r ∈ polymorphicCols resource := by
      have mem := List.mem_map_of_mem (f := fun n => SqlColumn.column (.typed n)) poly
      rwa [SqlColumn.column, if_neg named] at mem
    apply (List.nodup_append'.mp once).2.2 _ typed
    simp only [List.mem_append]
    exact .inl (.inr (List.mem_map_of_mem hr))
  · have suffix : "_currency".toList <:+ (currencyName f).toList := by
      rw [currencyName, String.toList_append]
      exact List.suffix_append _ _
    have other : ∀ r ∈ rotationColumns, ¬ "_currency".toList <:+ r.toList := by decide
    exact other _ fixed suffix

theorem SameColumns.unfolded (h : SameColumns m feature resource) :
    ∀ name ∈ currencyNames resource, unquoted name = some name := by
  intro name hname
  obtain ⟨f, hf, rfl⟩ := List.mem_map.mp hname
  obtain ⟨d, folded, listed, mem⟩ := h.currency hf
  have once := Lazuli.Codegen.tableColumns_perm.nodup_iff.mp h.once
  obtain ⟨front, -, notPoly⟩ := List.nodup_append'.mp once
  obtain ⟨-, declared, -⟩ := List.nodup_append'.mp front
  obtain ⟨-, currencies, notField⟩ := List.nodup_append'.mp declared
  have typed {n : String} (hn : n ∈ fieldNames resource ++ polymorphicColumns resource) :
      SqlColumn.column (.typed n) = some n := if_neg (h.readable n hn).1
  rcases h.mem_structColumns ((h.same d).mpr listed) with setting | ⟨g, hg, -, rfl⟩ | poly |
    ⟨g, hg, rfl⟩
  · have other : ∀ c ∈ settingNames, ¬ "_currency".toList <:+ c.toList := by decide
    exact absurd (currency_suffix folded) (other d (setting_fixed setting))
  · have hn : g.name ∈ fieldNames resource := List.mem_map_of_mem hg
    have field : some g.name ∈ fieldCols resource :=
      List.mem_map.mpr ⟨g.name, hn, typed (List.mem_append_left _ hn)⟩
    exact absurd mem (notField field)
  · have col : some d ∈ polymorphicCols resource :=
      List.mem_map.mpr ⟨d, poly, typed (List.mem_append_right _ poly)⟩
    refine absurd col (notPoly ?_)
    exact List.mem_append_right _ (List.mem_append_right _ mem)
  · -- Another amount with the folded name would be a second column of that name.
    obtain ⟨e, again, -⟩ := h.currency hg
    obtain rfl := unquoted_lower folded again
    have same := List.inj_on_of_nodup_map currencies hname (List.mem_map_of_mem hg)
      (folded.trans again.symm)
    exact folded.trans (congrArg some same.symm)

theorem SameColumns.tableColumns_perm (h : SameColumns m feature resource) :
    (tableColumns m feature resource).Perm
      ((implicitNames feature resource ++ declaredNames resource).map some) :=
  tableColumns_perm_names h.rotation (fun n hn => (h.readable n hn).1) h.unfolded

theorem SameColumns.names_nodup (h : SameColumns m feature resource) :
    (implicitNames feature resource ++ declaredNames resource).Nodup :=
  List.Nodup.of_map some (h.tableColumns_perm.nodup_iff.mp h.once)

theorem SameColumns.stored (h : SameColumns m feature resource) (f : Field)
    (hf : f ∈ resource.fields) (derived : f.derivedFrom.isSome) :
    compositePrimary resource ∧ f.name = "id" := by
  obtain ⟨-, distinct, apart⟩ := List.nodup_append'.mp h.names_nodup
  obtain ⟨declared, -, notPoly⟩ := List.nodup_append'.mp distinct
  obtain ⟨fields, -, notCurrency⟩ := List.nodup_append'.mp declared
  have hname : f.name ∈ fieldNames resource := List.mem_map_of_mem hf
  have listed : f.name ∈ declaredNames resource :=
    List.mem_append_left _ (List.mem_append_left _ hname)
  have column : some f.name ∈ tableColumns m feature resource :=
    h.tableColumns_perm.mem_iff.mpr (List.mem_map_of_mem (List.mem_append_right _ listed))
  rcases h.mem_structColumns ((h.same f.name).mpr column) with (implicit | key) |
    ⟨g, hg, kept, same⟩ | poly | ⟨g, hg, same⟩
  · exact absurd listed (apart implicit)
  · exact key
  · have eq := List.inj_on_of_nodup_map fields hg hf same
    rw [← eq, kept] at derived
    cases derived
  · exact absurd poly (notPoly (List.mem_append_left _ hname))
  · exact absurd (same ▸ List.mem_map_of_mem hg) (notCurrency hname)

theorem SameColumns.aligned (h : SameColumns m feature resource) :
    Aligned m feature resource := by
  obtain ⟨-, distinct, apart⟩ := List.nodup_append'.mp h.names_nodup
  constructor
  · intro composite
    have key : "id" ∈ structColumns feature resource :=
      Lazuli.Codegen.mem_structColumns.mpr (.inl rfl)
    have column := h.tableColumns_perm.mem_iff.mp ((h.same "id").mp key)
    obtain ⟨n, hn, eq⟩ := List.mem_map.mp column
    obtain rfl := Option.some.inj eq
    rcases List.mem_append.mp hn with implicit | declared
    · rw [mem_implicitNames, composite] at implicit
      simp at implicit
    · exact declared
  · exact h.stored
  · exact h.rotation
  · exact distinct
  · exact fun name declared implicit => apart implicit declared
  · exact h.readable
  · exact h.unfolded

end Aligned

theorem sameColumns_iff (m : Module) (feature : Feature) (resource : Resource) :
    SameColumns m feature resource ↔ Aligned m feature resource :=
  ⟨SameColumns.aligned, Aligned.sameColumns⟩

/-- A membership keyed by its two references. -/
def membership : Resource :=
  { name := "Membership"
    fields :=
      [{ name := "team_id", typeRef := .builtin .id, required := true },
       { name := "user_id", typeRef := .builtin .id, required := true }]
    compositeKey := some { fields := ["team_id", "user_id"], primary := true } }

/-- Its struct wants an `id` that its table does not have. -/
theorem membership_id_missing :
    ¬ ∀ (m : Module) (feature : Feature) (resource : Resource) (c : String),
      c ∈ structColumns feature resource ↔ some c ∈ tableColumns m feature resource := by
  intro same
  have struct : "id" ∈ structColumns { name := "teams" } membership :=
    mem_structColumns.mpr (.inl rfl)
  have table := (same ⟨[]⟩ { name := "teams" } membership "id").mp struct
  revert table
  decide

end Lazuli.Codegen
