import Mathlib
import Lazuli.Migration.Baseline

/-!
An unchanged resource and its migration.

The schema of the migration has a column for each field and none of its own where the key is a
composite one; that of the resource always has an `id`, and no column for a derived field. The
two differ in nothing exactly when the resource has neither, but for names that are used twice
(`regenerated_iff`).
-/

namespace Lazuli.Migration

open Ir

/-! ### The columns on both sides -/

/-- The columns that the settings of a resource bring in. -/
def settingColumns (resource : Resource) : List (String × String) :=
  (if resource.timestamps.getD true then
      [("created_at", "TIMESTAMPTZ"), ("updated_at", "TIMESTAMPTZ")]
    else []) ++
    (if resource.softDelete then
      ("deleted_at", "TIMESTAMPTZ") ::
        if resource.softDeleteActor then [("deleted_by", "BIGINT")] else []
    else []) ++
    resource.polymorphicRefs.flatMap fun pref =>
      [(pref.typeField, "TEXT"), (pref.idField, "BIGINT")]

/-- Those of the migration. -/
def writtenColumns (m : Module) (resource : Resource) : List (String × String) :=
  (if compositePrimary resource then [] else [("id", "BIGSERIAL")]) ++
    resource.fields.map (fun field => (field.name, pgTypeForField m field)) ++
    settingColumns resource

/-- Those of the resource. -/
def keptColumns (resource : Resource) : List (String × String) :=
  ("id", "BIGSERIAL") ::
    ((resource.fields.filter fun field => field.derivedFrom.isNone).map fun field =>
      (field.name, irPgType field.typeRef)) ++
    settingColumns resource

section Columns

variable {m : Module} {feature : Feature} {resource : Resource}

theorem signature_currentSchema (resource : Resource) :
    (currentSchemaFromIr resource).columns.map Column.signature = keptColumns resource := by
  have hrefs : (resource.polymorphicRefs.flatMap fun pref =>
      [({ name := pref.typeField, sqlType := "TEXT", nullable := false } : Column),
        { name := pref.idField, sqlType := "BIGINT", nullable := false }]).map Column.signature =
      resource.polymorphicRefs.flatMap fun pref =>
        [(pref.typeField, "TEXT"), (pref.idField, "BIGINT")] := by
    rw [List.map_flatMap]
    rfl
  have hsoft : ((synthesizedSoftDeleteColumns resource).map fun name =>
      ({ name, sqlType := if name = "deleted_by" then "BIGINT" else "TIMESTAMPTZ"
         nullable := true } : Column)).map Column.signature =
      if resource.softDelete then
        ("deleted_at", "TIMESTAMPTZ") ::
          if resource.softDeleteActor then [("deleted_by", "BIGINT")] else []
      else [] := by
    rw [synthesizedSoftDeleteColumns]
    cases resource.softDelete <;> cases resource.softDeleteActor <;> rfl
  rw [currentSchemaFromIr, List.map_cons, List.map_append, List.map_append, List.map_append,
    hrefs, hsoft, keptColumns, settingColumns, List.map_map]
  cases resource.timestamps.getD true <;> simp [Column.signature, fieldToColumn]

theorem signature_tableConstraints :
    ∀ column ∈ tableConstraints m feature resource, column.signature = none := by
  have hunique {fields : List String} {per constraint : Option String} {column : SqlColumn}
      (h : uniqueFieldsSql fields per constraint = some column) : column.signature = none := by
    rw [uniqueFieldsSql] at h
    split at h
    · cases h
    · rw [← Option.some_inj.mp h]
      rfl
  intro column hmem
  simp only [tableConstraints, List.mem_append] at hmem
  rcases hmem with ((hmem | hmem) | hmem) | hmem
  · obtain ⟨field, -, hcolumn⟩ := List.mem_filterMap.mp hmem
    exact hunique hcolumn
  · obtain ⟨constraint, -, hcolumn⟩ := List.mem_filterMap.mp hmem
    cases constraint with
    | index index => cases hcolumn
    | unique unique =>
        rw [uniqueConstraintSql] at hcolumn
        split at hcolumn
        · cases hcolumn
        · exact hunique hcolumn
  · rw [Option.mem_toList, compositeKeySql] at hmem
    obtain ⟨ck, -, hcolumn⟩ := Option.bind_eq_some_iff.mp hmem
    split at hcolumn
    · cases hcolumn
    · rw [← Option.some_inj.mp hcolumn]
      split <;> rfl
  · obtain ⟨field, -, hcolumn⟩ := List.mem_filterMap.mp hmem
    rw [foreignKeyConstraint] at hcolumn
    split at hcolumn
    · obtain ⟨_, -, rfl⟩ := Option.map_eq_some_iff.mp hcolumn
      rfl
    · cases hcolumn

theorem signature_fieldColumns (hmoney : ∀ field ∈ resource.fields, isMoney field = false) :
    (resource.fields.flatMap (fieldColumns m resource)).filterMap SqlColumn.signature =
      resource.fields.map fun field => (field.name, pgTypeForField m field) := by
  rw [List.filterMap_flatMap]
  refine (List.flatMap_congr fun field hfield => ?_).trans (List.flatMap_pure_eq_map _ _)
  rw [fieldColumns, hmoney field hfield]
  rfl

theorem signature_settings (feature : Feature) (hts : resource.timestamps.isSome = true) :
    (if usesTimestamps feature resource then timestampColumns else []).filterMap
        SqlColumn.signature ++
      (softDeleteColumns resource).filterMap SqlColumn.signature ++
      (polymorphicRefColumns resource).filterMap SqlColumn.signature = settingColumns resource := by
  obtain ⟨b, hb⟩ := Option.isSome_iff_exists.mp hts
  have hstamps : (if usesTimestamps feature resource then timestampColumns else []).filterMap
      SqlColumn.signature = if resource.timestamps.getD true then
        [("created_at", "TIMESTAMPTZ"), ("updated_at", "TIMESTAMPTZ")] else [] := by
    rw [usesTimestamps, hb]
    cases b <;> rfl
  have hsoft : (softDeleteColumns resource).filterMap SqlColumn.signature =
      if resource.softDelete then
        ("deleted_at", "TIMESTAMPTZ") ::
          if resource.softDeleteActor then [("deleted_by", "BIGINT")] else []
      else [] := by
    rw [softDeleteColumns]
    cases resource.softDelete <;> cases resource.softDeleteActor <;> rfl
  have hrefs : (polymorphicRefColumns resource).filterMap SqlColumn.signature =
      resource.polymorphicRefs.flatMap fun pref =>
        [(pref.typeField, "TEXT"), (pref.idField, "BIGINT")] := by
    rw [polymorphicRefColumns, List.filterMap_flatMap]
    refine List.flatMap_congr fun pref _ => ?_
    simp [SqlColumn.signature]
  rw [hstamps, hsoft, hrefs, settingColumns]

theorem signature_resourceColumns (hts : resource.timestamps.isSome = true)
    (horg : effectiveTenancy feature resource ≠ .org)
    (hmoney : ∀ field ∈ resource.fields, isMoney field = false)
    (hrotation : sessionRotationEnabledForResource m feature resource = none) :
    (resourceColumns m feature resource).filterMap SqlColumn.signature =
      writtenColumns m resource := by
  have hid : (if compositePrimary resource then [] else [implicitId]).filterMap
      SqlColumn.signature = if compositePrimary resource then [] else [("id", "BIGSERIAL")] := by
    split <;> rfl
  have hconstraints : (tableConstraints m feature resource).filterMap SqlColumn.signature = [] :=
    List.filterMap_eq_nil_iff.mpr signature_tableConstraints
  rw [resourceColumns, if_neg horg, missingRotation, hrotation, writtenColumns,
    ← signature_settings feature hts]
  simp only [List.filterMap_append, hid, signature_fieldColumns hmoney, hconstraints,
    List.append_nil, List.nil_append, List.append_assoc, Option.isSome_none, Bool.false_eq_true,
    if_false]

theorem pgTypeForEnum_ne_bigserial (name : String) : pgTypeForEnum m name ≠ "BIGSERIAL" := by
  rw [pgTypeForEnum]
  split
  · split <;> decide
  · decide

theorem pgTypeFor_ne_bigserial (typeRef : TypeRef) : pgTypeFor typeRef ≠ "BIGSERIAL" := by
  cases typeRef with
  | builtin type => cases type <;> simp [pgTypeFor, pgTypeForBuiltin]
  | capability cap => cases cap <;> decide
  | many inner =>
      intro same
      have hlast := congrArg (fun s : String => s.toList.getLast?) same
      simp [pgTypeFor] at hlast
  | userDefined _ | enumRef _ | unresolved _ => simp [pgTypeFor]

/-- No field has the type of the `id` that a table has of its own. -/
theorem pgTypeForField_ne_bigserial (field : Field) : pgTypeForField m field ≠ "BIGSERIAL" := by
  rw [pgTypeForField]
  split
  · split
    · decide
    · split
      · decide
      · exact pgTypeForEnum_ne_bigserial _
  · exact pgTypeForEnum_ne_bigserial _
  · split <;> decide
  · exact pgTypeFor_ne_bigserial _

theorem settingColumns_ne_bigserial {column : String × String}
    (h : column ∈ settingColumns resource) : column.2 ≠ "BIGSERIAL" := by
  simp only [settingColumns, List.mem_append, List.mem_flatMap] at h
  rcases h with (h | h) | ⟨pref, -, h⟩
  · split at h
    · simp only [List.mem_cons, List.not_mem_nil, or_false] at h
      rcases h with rfl | rfl <;> decide
    · cases h
  · split at h
    · rcases List.mem_cons.mp h with rfl | h
      · decide
      · split at h
        · rw [List.mem_singleton.mp h]
          decide
        · cases h
    · cases h
  · simp only [List.mem_cons, List.not_mem_nil, or_false] at h
    rcases h with rfl | rfl
    · simp
    · simp

end Columns

/-! ### The difference -/

section Diff

variable {baseline current : ResourceSchema}

theorem find_map_sqlType (schema : ResourceSchema) (name : String) :
    (schema.find name).map (·.sqlType) = (schema.columns.map Column.signature).lookup name := by
  obtain ⟨columns⟩ := schema
  rw [ResourceSchema.find]
  induction columns with
  | nil => rfl
  | cons c columns ih =>
      rw [List.map_cons, Column.signature, List.lookup_cons]
      by_cases h : c.name = name
      · rw [List.find?_cons_of_pos (by simpa using h), h, beq_self_eq_true]
        rfl
      · rw [List.find?_cons_of_neg (by simpa using h), ih]
        have hne : (name == c.name) = false := beq_eq_false_iff_ne.mpr (Ne.symm h)
        rw [hne]

/-- A column that was there with the same type. -/
theorem unchanged_iff (column : Column) :
    (baseline.find column.name).isNone = false ∧ typeChange baseline column = none ↔
      (baseline.columns.map Column.signature).lookup column.name = some column.sqlType := by
  rw [← find_map_sqlType, typeChange]
  cases baseline.find column.name with
  | none => simp
  | some old => simp

theorem diff_isEmpty_iff :
    (diff baseline current).isEmpty = true ↔
      (∀ column ∈ current.columns.map Column.signature,
        (baseline.columns.map Column.signature).lookup column.1 = some column.2) ∧
      ∀ column ∈ baseline.columns.map Column.signature,
        ((current.columns.map Column.signature).lookup column.1).isSome = true := by
  have hadds : (diff baseline current).isEmpty = true ↔
      ((∀ c ∈ current.columns, (baseline.find c.name).isNone = false) ∧
        ∀ c ∈ baseline.columns, (current.find c.name).isNone = false) ∧
        ∀ c ∈ current.columns, typeChange baseline c = none := by
    simp only [SchemaDiff.isEmpty, diff, Bool.and_eq_true, List.isEmpty_iff,
      List.filter_eq_nil_iff, List.filterMap_eq_nil_iff, Bool.not_eq_true]
  have hsome (name : String) : (current.find name).isNone = false ↔
      ((current.columns.map Column.signature).lookup name).isSome = true := by
    rw [← find_map_sqlType]
    cases current.find name <;> simp
  rw [hadds]
  constructor
  · rintro ⟨⟨hadd, hdrop⟩, htype⟩
    refine ⟨List.forall_mem_map.mpr fun c hc => ?_, List.forall_mem_map.mpr fun c hc => ?_⟩
    · exact (unchanged_iff c).mp ⟨hadd c hc, htype c hc⟩
    · exact (hsome c.name).mp (hdrop c hc)
  · rintro ⟨hkept, hdropped⟩
    have hkept := fun c hc => (unchanged_iff c).mpr (List.forall_mem_map.mp hkept c hc)
    refine ⟨⟨fun c hc => (hkept c hc).1, fun c hc => ?_⟩, fun c hc => (hkept c hc).2⟩
    exact (hsome c.name).mpr (List.forall_mem_map.mp hdropped c hc)

end Diff

/-! ### Steady resources -/

/-- What a resource whose migration is steady leaves out. -/
structure Steady (m : Module) (resource : Resource) : Prop where
  /-- The table has an `id` of its own. -/
  noPrimary : compositePrimary resource = false
  /-- A derived field shares its column with something that is not derived. -/
  derived : ∀ field ∈ resource.fields, field.derivedFrom.isSome = true →
    ∃ column ∈ keptColumns resource, column.1 = field.name
  /-- Of columns of one name the first in the table decides the type. -/
  types : ∀ column ∈ keptColumns resource,
    ∀ type ∈ (writtenColumns m resource).lookup column.1, type = column.2

section Steady

variable {m : Module} {feature : Feature} {resource : Resource}

/-- The columns of both sides agree exactly if the resource is steady. -/
theorem columns_agree_iff (m : Module) (resource : Resource) :
    ((∀ column ∈ keptColumns resource,
        (writtenColumns m resource).lookup column.1 = some column.2) ∧
      ∀ column ∈ writtenColumns m resource,
        ((keptColumns resource).lookup column.1).isSome = true) ↔ Steady m resource := by
  constructor
  · rintro ⟨hkept, hwritten⟩
    refine ⟨?_, fun field hfield _ => ?_, fun column hcolumn type htype => ?_⟩
    · have hid := hkept ("id", "BIGSERIAL") (List.mem_append_left _ List.mem_cons_self)
      obtain ⟨_, _, hsplit, -⟩ := List.lookup_eq_some_iff.mp hid
      have hmem : ("id", "BIGSERIAL") ∈ writtenColumns m resource := by
        rw [hsplit]
        simp
      simp only [writtenColumns, List.mem_append, List.mem_map] at hmem
      rcases hmem with (hmem | ⟨field, -, hfield⟩) | hmem
      · by_contra hprimary
        rw [if_pos (by simpa using hprimary)] at hmem
        cases hmem
      · exact absurd (congrArg Prod.snd hfield) (pgTypeForField_ne_bigserial field)
      · exact absurd rfl (settingColumns_ne_bigserial hmem)
    · have hmem : (field.name, pgTypeForField m field) ∈ writtenColumns m resource :=
        List.mem_append_left _ (List.mem_append_right _ (List.mem_map_of_mem hfield))
      obtain ⟨column, hcolumn, hname⟩ := List.lookup_isSome_iff.mp (hwritten _ hmem)
      exact ⟨column, hcolumn, (beq_iff_eq.mp hname).symm⟩
    · rw [hkept column hcolumn, Option.mem_some_iff] at htype
      exact htype.symm
  · rintro ⟨hprimary, hderived, htypes⟩
    have hid : ("id", "BIGSERIAL") ∈ writtenColumns m resource := by
      rw [writtenColumns, hprimary]
      exact List.mem_cons_self
    have hname : ∀ column ∈ keptColumns resource,
        ∃ written ∈ writtenColumns m resource, column.1 = written.1 := by
      intro column hcolumn
      simp only [keptColumns, List.cons_append, List.mem_cons, List.mem_append,
        List.mem_map] at hcolumn
      rcases hcolumn with rfl | ⟨field, hfield, rfl⟩ | hcolumn
      · exact ⟨_, hid, rfl⟩
      · exact ⟨_, List.mem_append_left _ (List.mem_append_right _
          (List.mem_map_of_mem (List.mem_of_mem_filter hfield))), rfl⟩
      · exact ⟨column, List.mem_append_right _ hcolumn, rfl⟩
    refine ⟨fun column hcolumn => ?_, fun column hcolumn => List.lookup_isSome_iff.mpr ?_⟩
    · obtain ⟨written, hwritten, same⟩ := hname column hcolumn
      have hsome : ((writtenColumns m resource).lookup column.1).isSome = true :=
        List.lookup_isSome_iff.mpr ⟨written, hwritten, beq_iff_eq.mpr same⟩
      obtain ⟨type, htype⟩ := Option.isSome_iff_exists.mp hsome
      rw [htype, htypes column hcolumn type htype]
    · simp only [writtenColumns, List.mem_append, List.mem_map] at hcolumn
      rcases hcolumn with (hcolumn | ⟨field, hfield, rfl⟩) | hcolumn
      · rw [hprimary, if_neg Bool.false_ne_true, List.mem_singleton] at hcolumn
        exact ⟨_, List.mem_append_left _ List.mem_cons_self, by rw [hcolumn]; rfl⟩
      · cases hfrom : field.derivedFrom with
        | some expr =>
            obtain ⟨column, hkept, same⟩ := hderived field hfield (by rw [hfrom]; rfl)
            exact ⟨column, hkept, beq_iff_eq.mpr same.symm⟩
        | none =>
            have hkept : field ∈ resource.fields.filter fun field => field.derivedFrom.isNone :=
              List.mem_filter.mpr ⟨hfield, by rw [hfrom]; rfl⟩
            exact ⟨_, List.mem_append_left _ (List.mem_cons_of_mem _ (List.mem_map_of_mem hkept)),
              beq_iff_eq.mpr rfl⟩
      · exact ⟨column, List.mem_append_right _ hcolumn, beq_iff_eq.mpr rfl⟩

/-- Where no name is used twice, a resource is steady without a composite primary key and without
derived fields. -/
theorem steady_iff_of_distinct
    (htypes : ∀ field ∈ resource.fields, pgTypeForField m field = irPgType field.typeRef)
    (hdistinct : ((writtenColumns m resource).map Prod.fst).Nodup) :
    Steady m resource ↔
      compositePrimary resource = false ∧
        ∀ field ∈ resource.fields, field.derivedFrom = none := by
  constructor
  · rintro ⟨hprimary, hderived, -⟩
    refine ⟨hprimary, fun field hfield => ?_⟩
    rw [writtenColumns, hprimary, List.map_append, List.map_append, List.map_map,
      List.nodup_append] at hdistinct
    obtain ⟨hfront, -, hsettings⟩ := hdistinct
    obtain ⟨-, hnames, hid⟩ := List.nodup_append.mp hfront
    have hname : field.name ∈ resource.fields.map (Prod.fst ∘ fun field =>
        (field.name, pgTypeForField m field)) := List.mem_map_of_mem hfield
    by_contra hfrom
    obtain ⟨column, hcolumn, same⟩ := hderived field hfield (Option.isSome_iff_ne_none.mpr hfrom)
    simp only [keptColumns, List.cons_append, List.mem_cons, List.mem_append,
      List.mem_map] at hcolumn
    rcases hcolumn with rfl | ⟨other, hother, rfl⟩ | hcolumn
    · exact hid _ (List.mem_singleton_self _) _ hname same
    · obtain ⟨hother, hnone⟩ := List.mem_filter.mp hother
      have hsame := List.inj_on_of_nodup_map hnames hother hfield same
      rw [hsame] at hnone
      exact hfrom (Option.isNone_iff_eq_none.mp hnone)
    · exact hsettings _ (List.mem_append_right _ hname) _ (List.mem_map_of_mem hcolumn) same.symm
  · rintro ⟨hprimary, hnone⟩
    have hall : resource.fields.filter (fun field => field.derivedFrom.isNone) = resource.fields :=
      List.filter_eq_self.mpr fun field hfield => by rw [hnone field hfield]; rfl
    have hsame : keptColumns resource = writtenColumns m resource := by
      rw [keptColumns, writtenColumns, hall, hprimary]
      have hmap := List.map_congr_left fun field hfield =>
        congrArg (Prod.mk field.name) (htypes field hfield)
      rw [hmap]
      rfl
    refine ⟨hprimary, fun field hfield hsome => ?_, fun column hcolumn type htype => ?_⟩
    · rw [hnone field hfield] at hsome
      cases hsome
    · obtain ⟨_, _, hsplit, -⟩ := List.lookup_eq_some_iff.mp htype
      have hmem : (column.1, type) ∈ writtenColumns m resource := by
        rw [hsplit]
        simp
      have hwritten : column ∈ writtenColumns m resource := hsame ▸ hcolumn
      exact congrArg Prod.snd (List.inj_on_of_nodup_map hdistinct hmem hwritten rfl)

/-- A migration that was just emitted differs from its resource in nothing exactly if the resource
is steady. -/
theorem regenerated_iff (m : Module) (feature : Feature) (resource : Resource) (label : String)
    (hw : Written resource) (hts : resource.timestamps.isSome = true)
    (horg : effectiveTenancy feature resource ≠ .org)
    (hmoney : ∀ field ∈ resource.fields, isMoney field = false)
    (hrotation : sessionRotationEnabledForResource m feature resource = none) :
    (∃ schema,
      parseBaselineFromStr (emitResourceMigration m feature resource label) = .ok schema ∧
        (diff schema (currentSchemaFromIr resource)).isEmpty = true) ↔
      Steady m resource := by
  obtain ⟨schema, hparse, hsig⟩ := parse_migration label hw horg hmoney hrotation
  rw [signature_resourceColumns hts horg hmoney hrotation] at hsig
  have hagree := columns_agree_iff m resource
  rw [← hagree, ← hsig, ← signature_currentSchema, ← diff_isEmpty_iff, hparse]
  constructor
  · rintro ⟨_, same, hdiff⟩
    rwa [← Except.ok.inj same] at hdiff
  · exact fun hdiff => ⟨schema, rfl, hdiff⟩

end Steady

/-! ### Two invoices -/

def amountField : Field where
  name := "amount"
  typeRef := .builtin .integer
  required := true

/-- `total` is computed by the database. -/
def totalField : Field where
  name := "total"
  typeRef := .builtin .integer
  required := false
  derivedFrom := some "amount * 2"

def plainInvoice : Resource where
  name := "Invoice"
  timestamps := some true
  softDelete := true
  fields := [amountField]

def derivedInvoice : Resource := { plainInvoice with fields := [amountField, totalField] }

def billing : Feature where
  name := "billing"
  resources := [plainInvoice]

theorem written_derivedInvoice : Written derivedInvoice where
  names := by simp [derivedInvoice, amountField, totalField]; decide
  derived := by simp [derivedInvoice, amountField, totalField]
  keys := by simp [derivedInvoice, amountField, totalField]
  uniques := by simp [derivedInvoice, plainInvoice]
  composite := by simp [derivedInvoice, plainInvoice]
  refs := by simp [derivedInvoice, plainInvoice]

theorem written_plainInvoice : Written plainInvoice where
  names := by simp [plainInvoice, amountField]; decide
  derived := by simp [plainInvoice, amountField]
  keys := by simp [plainInvoice, amountField]
  uniques := by simp [plainInvoice]
  composite := by simp [plainInvoice]
  refs := by simp [plainInvoice]

theorem regenerated_iff_plainInvoice :
    ∃ schema, parseBaselineFromStr
        (emitResourceMigration ⟨[billing]⟩ billing plainInvoice "billing.lzi") = .ok schema ∧
      (diff schema (currentSchemaFromIr plainInvoice)).isEmpty = true := by
  refine (regenerated_iff ⟨[billing]⟩ billing plainInvoice "billing.lzi" written_plainInvoice rfl
    (by decide) (by decide) rfl).mpr ⟨rfl, by decide, ?_⟩
  decide

/-- The column of a derived field is dropped again. -/
theorem derived_column_dropped :
    ¬ ∀ (m : Module) (feature : Feature) (resource : Resource) (label : String),
      Written resource → resource.timestamps.isSome = true →
      effectiveTenancy feature resource ≠ .org →
      (∀ field ∈ resource.fields, isMoney field = false) →
      (∀ field ∈ resource.fields, ∃ type, field.typeRef = .builtin type) →
      sessionRotationEnabledForResource m feature resource = none →
      ∃ schema,
        parseBaselineFromStr (emitResourceMigration m feature resource label) = .ok schema ∧
          (diff schema (currentSchemaFromIr resource)).isEmpty = true := by
  intro claimed
  have horg : effectiveTenancy billing derivedInvoice ≠ .org := by decide
  have hmoney : ∀ field ∈ derivedInvoice.fields, isMoney field = false := by decide
  obtain ⟨schema, hparse, hempty⟩ := claimed ⟨[billing]⟩ billing derivedInvoice "billing.lzi"
    written_derivedInvoice rfl horg hmoney (by simp [derivedInvoice, amountField, totalField]) rfl
  obtain ⟨read, hread, hsig⟩ := parse_migration "billing.lzi" written_derivedInvoice horg hmoney
    (m := ⟨[billing]⟩) rfl
  obtain rfl := Except.ok.inj (hread.symm.trans hparse)
  have hkept := (diff_isEmpty_iff.mp hempty).2 ("total", "BIGINT") (by rw [hsig]; decide)
  rw [signature_currentSchema] at hkept
  revert hkept
  decide

end Lazuli.Migration
