import Lazuli.Codegen.Casing
import Lazuli.General.Text
import Lazuli.Migration.CreateTable

/-!
The Go types of fields (`emitter/types/mod.rs`, `emitter/types/builtins.rs`,
`emitter/cross_feature.rs`).

A name is looked up in the index of the module, with the kind under which it was declared first.
The name of a resource is a key; another name is a type of the package of its feature.
-/

namespace Lazuli.Codegen.GoTypes

open Ir General
open Lazuli.Migration (CrossFeatureIndex)

/-! ### The index with kinds -/

inductive DeclKind where
  | resource
  | record
  | enum
  deriving DecidableEq

structure KindIndex where
  map : String → Option (String × DeclKind)
  ambiguous : String → Option (List String)

def KindIndex.register (index : KindIndex) (feature : String) (decl : String × DeclKind) :
    KindIndex :=
  match index.ambiguous decl.1 with
  | some existing =>
      if feature ∈ existing then index
      else
        { index with
          ambiguous := Function.update index.ambiguous decl.1 (some (existing ++ [feature])) }
  | none =>
      match index.map decl.1 with
      | some (prev, _) =>
          if prev = feature then index
          else
            { map := Function.update index.map decl.1 none
              ambiguous := Function.update index.ambiguous decl.1 (some [prev, feature]) }
      | none =>
          { index with map := Function.update index.map decl.1 (some (feature, decl.2)) }

def declarations (feature : Feature) : List (String × DeclKind) :=
  feature.resources.map (fun r => (r.name, .resource)) ++
    feature.records.map (fun r => (r.name, .record)) ++
    feature.enums.map fun e => (e.name, .enum)

def KindIndex.build (m : Module) : KindIndex :=
  m.features.foldl (fun index feature =>
    (declarations feature).foldl (fun index decl => index.register feature.name decl) index)
    ⟨fun _ => none, fun _ => none⟩

def KindIndex.owner (index : KindIndex) (typeName : String) : Option String :=
  (index.map typeName).map (·.1)

def KindIndex.kind (index : KindIndex) (typeName : String) : Option DeclKind :=
  (index.map typeName).map (·.2)

def KindIndex.isAmbiguous (index : KindIndex) (typeName : String) : Bool :=
  (index.ambiguous typeName).isSome

section Forget

/-- The index without kinds, as the columns use it. -/
def KindIndex.forget (index : KindIndex) : CrossFeatureIndex where
  map name := (index.map name).map (·.1)
  ambiguous := index.ambiguous

theorem KindIndex.forget_register (index : KindIndex) (feature : String)
    (decl : String × DeclKind) :
    (index.register feature decl).forget = index.forget.register feature decl.1 := by
  have hupdate (value : Option (String × DeclKind)) :
      (fun name => ((Function.update index.map decl.1 value) name).map Prod.fst) =
        Function.update (fun name => (index.map name).map Prod.fst) decl.1
          (value.map Prod.fst) := by
    funext name
    by_cases h : name = decl.1
    · rw [h, Function.update_self, Function.update_self]
    · rw [Function.update_of_ne h, Function.update_of_ne h]
  rw [register, CrossFeatureIndex.register]
  cases hambiguous : index.ambiguous decl.1 with
  | some existing =>
      simp only [forget, hambiguous]
      split <;> rfl
  | none =>
      cases hmap : index.map decl.1 with
      | none =>
          simp only [forget, hambiguous, hmap, Option.map_none]
          rw [hupdate]
          rfl
      | some entry =>
          simp only [forget, hambiguous, hmap, Option.map_some]
          split
          · rfl
          · rw [hupdate]
            rfl

theorem map_declarations (feature : Feature) :
    (declarations feature).map (·.1) = Migration.typeNames feature := by
  simp [declarations, Migration.typeNames, Function.comp_def]

/-- Columns and Go types see the same owners. -/
theorem KindIndex.forget_build (m : Module) :
    (KindIndex.build m).forget = CrossFeatureIndex.build m := by
  have hfeature (feature : Feature) (index : KindIndex) :
      ((declarations feature).foldl (fun index decl => index.register feature.name decl)
          index).forget =
        (Migration.typeNames feature).foldl
          (fun index name => index.register feature.name name) index.forget := by
    rw [← map_declarations, List.foldl_map]
    exact (List.foldl_hom KindIndex.forget fun index decl =>
      (index.forget_register feature.name decl).symm).symm
  exact (List.foldl_hom KindIndex.forget fun index feature =>
    (hfeature feature index).symm).symm

end Forget

/-! ### Go types -/

/-- A type of Go or of the runtime, a name of the package itself or of that of a feature, an empty
struct, or a slice. -/
inductive GoType where
  | runtime (name : String) (importPath : Option String)
  | ident (package : Option String) (name : String)
  | emptyStruct
  | slice (elem : GoType)
  deriving DecidableEq

def genPackageName (feature : String) : String := feature ++ "gen"

def GoType.text : GoType → String
  | .runtime name _ => name
  | .ident none name => name
  | .ident (some owner) name => genPackageName owner ++ "." ++ name
  | .emptyStruct => "struct\x7b\x7d"
  | .slice elem => "[]" ++ elem.text

def GoType.importPath (moduleName : String) : GoType → Option String
  | .runtime _ importPath => importPath
  | .ident package _ => package.map fun owner => moduleName ++ "/" ++ owner
  | .emptyStruct => none
  | .slice elem => elem.importPath moduleName

def plain (name : String) : GoType := .runtime name none

def lazuli (name : String) : GoType :=
  .runtime ("lazuli." ++ name) (some "lazuli.dev/runtime/lazuli")

def fileRef : GoType := .runtime "storage.FileRef" (some "lazuli.dev/runtime/lazuli/storage")

/-- A type of a plugin is carried by text. -/
def goTypeForBuiltin : BuiltinType → GoType
  | .id => lazuli "ID"
  | .text => plain "string"
  | .boolean => plain "bool"
  | .integer => plain "int64"
  | .decimal => plain "float64"
  | .date => lazuli "Date"
  | .dateTime => lazuli "Time"
  | .json => lazuli "JSON"
  | .semanticEmail => lazuli "Email"
  | .semanticMoney => lazuli "MoneyValue"
  | .semanticPhone => lazuli "Phone"
  | .semanticUrl => lazuli "URL"
  | .semanticUuid => lazuli "UUID"
  | .semanticCurrency => lazuli "Currency"
  | .semanticGeoPoint => .runtime "postgis.Point" (some "github.com/cridenour/go-postgis")
  | .semanticHexColor => lazuli "HexColor"
  | .semanticPercentage => lazuli "Percentage"
  | .semanticPositiveDecimal => lazuli "PositiveDecimal"
  | .semanticNonNegativeInt => lazuli "NonNegativeInt"
  | .semanticPluginType _ => plain "string"
  | .capSecret => lazuli "Secret"
  | .capFile => fileRef

def goTypeForCapability : CapabilityRef → GoType
  | .file => fileRef
  | .hashed => lazuli "HashedRef"
  | .encrypted | .e2ee => lazuli "EncryptedRef"
  | .token => lazuli "TokenRef"
  | .pii => plain "string"

/-- Another character than a letter, a digit or an underscore is an underscore. -/
def sanitiseGoIdent (raw : String) : String :=
  let out := raw.toList.map fun ch => if ch.isAlphanum ∨ ch = '_' then ch else '_'
  if out = [] then "lazuliUnresolved"
  else if out.head?.any Char.isDigit then String.ofList ('_' :: out)
  else String.ofList out

def isEmptyName (name : String) : Bool := Text.trim name.toList = "Empty".toList

/-- `Empty` is a type of its own unless a feature declares it. -/
def isImplicitEmpty (m : Module) (qname : QualifiedName) : Bool :=
  qname.feature.isNone && isEmptyName qname.name &&
    ((KindIndex.build m).owner "Empty").isNone && !(KindIndex.build m).isAmbiguous "Empty"

def isDecorator (name : String) : Bool := name.toList.head? = some '@'

/-- The type of a name in the package of the feature `current`. -/
def resolveNamed (m : Module) (current : String) (qname : QualifiedName) : GoType :=
  if isDecorator qname.name then .ident none (sanitiseGoIdent qname.name)
  else
    let goName := Runtime.pascalCase qname.name
    if (KindIndex.build m).kind qname.name = some .resource then
      .runtime "lazuli.ID" none
    else
      let inPackage (owner : String) : GoType :=
        if owner = current then .ident none goName else .ident (some owner) goName
      match qname.feature with
      | some owner => inPackage owner
      | none =>
          match (KindIndex.build m).owner qname.name with
          | some owner => inPackage owner
          | none => .ident none goName

def goTypeFor (m : Module) (current : String) : TypeRef → GoType
  | .builtin type => goTypeForBuiltin type
  | .userDefined qname | .enumRef qname =>
      if isImplicitEmpty m qname then .emptyStruct else resolveNamed m current qname
  | .many inner => .slice (goTypeFor m current inner)
  | .unresolved name =>
      if isEmptyName name then .emptyStruct else .ident none (sanitiseGoIdent name)
  | .capability cap => goTypeForCapability cap

end Lazuli.Codegen.GoTypes

/-!
Columns that are scanned into Go types (`pg_type_for_field` in `migration_ddl/sql_column.rs`,
`go_type_for` in `emitter/types/mod.rs`).

A Go type accepts a column: a key or a number a `BIGINT`, text a `TEXT`, a record or a slice of
records a document, and a slice an array of what its elements accept. The column of a name is
found by the name alone in the whole module, its Go type through the index and the package; below
`many` every name is text to the columns. `compatible_iff` says where the two agree.
-/

namespace Lazuli.Codegen.ColumnTypes

open Ir GoTypes General
open Lazuli.Migration (pgTypeForField pgTypeFor pgTypeForBuiltin pgTypeForCapability pgTypeForEnum
  foreignKeyOwner nameIsRecord findEnumDecl isIntStorage)
open Lazuli.Runtime (pascalCase capitalized splitWords)

/-! ### What a Go type accepts -/

/-- How a type is declared in a package: the struct of a resource or of a record, or an enum over
numbers or over text. -/
inductive Shape where
  | row
  | document
  | number
  | text
  deriving DecidableEq

def Shape.column : Shape → Option String
  | .row => none
  | .document => some "JSONB"
  | .number => some "BIGINT"
  | .text => some "TEXT"

def enumShape (decl : EnumDecl) : Shape := if isIntStorage decl then .number else .text

/-- What the package of a feature declares under a Go name. -/
def shapes (m : Module) (package goName : String) : List Shape :=
  (m.features.filter fun f => f.name = package).flatMap fun f =>
    (f.resources.filter fun r => pascalCase r.name = goName).map (fun _ => .row) ++
      (f.records.filter fun r => pascalCase r.name = goName).map (fun _ => .document) ++
      (f.enums.filter fun e => pascalCase e.name = goName).map enumShape

/-- The name is declared, and in one way only. -/
def Declares (m : Module) (package goName : String) (shape : Shape) : Prop :=
  shapes m package goName ≠ [] ∧ ∀ s ∈ shapes m package goName, s = shape

/-- The column of a type of Go or of the runtime. -/
def runtimeColumn : String → Option String
  | "lazuli.ID" | "int64" | "lazuli.NonNegativeInt" => some "BIGINT"
  | "string" | "lazuli.Email" | "lazuli.Phone" | "lazuli.URL" | "lazuli.UUID" | "lazuli.Currency"
  | "lazuli.HexColor" | "lazuli.Secret" | "lazuli.HashedRef" | "lazuli.TokenRef" => some "TEXT"
  | "bool" => some "BOOLEAN"
  | "float64" | "lazuli.Percentage" | "lazuli.PositiveDecimal" => some "NUMERIC(20, 6)"
  | "lazuli.MoneyValue" => some "NUMERIC(20,4)"
  | "lazuli.Date" => some "DATE"
  | "lazuli.Time" => some "TIMESTAMPTZ"
  | "lazuli.JSON" | "storage.FileRef" => some "JSONB"
  | "postgis.Point" => some "geography(point, 4326)"
  | "lazuli.EncryptedRef" => some "BYTEA"
  | _ => none

def IsDocument (m : Module) (current : String) : GoType → Prop
  | .ident package name => Declares m (package.getD current) name .document
  | _ => False

/-- In the package of `current` the column is scanned into the type. -/
def Accepts (m : Module) (current : String) : GoType → String → Prop
  | .runtime name _, pg => runtimeColumn name = some pg
  | .emptyStruct, _ => False
  | .ident package name, pg =>
      (∃ s, Declares m (package.getD current) name s ∧ s.column = some pg) ∨
        package = none ∧ shapes m current name = [] ∧ name = "string" ∧ pg = "TEXT"
  | .slice elem, pg =>
      pg = "JSONB" ∧ IsDocument m current elem ∨
        ∃ t, pg = t ++ "[]" ∧ Accepts m current elem t

def Compatible (m : Module) (current : String) (field : Field) : Prop :=
  Accepts m current (goTypeFor m current field.typeRef) (pgTypeForField m field)

/-! ### Where the two agree -/

section Names

variable (m : Module) (current : String)

/-- No feature, no `@`, and not the empty type. -/
structure Named (qname : QualifiedName) : Prop where
  plain : isDecorator qname.name = false
  nonempty : isImplicitEmpty m qname = false

/-- The index knows the name as that of a resource. -/
def IsKey (qname : QualifiedName) : Prop :=
  Named m qname ∧ (KindIndex.build m).kind qname.name = some .resource

/-- The feature that a name is looked up in: the one it names, or the only one that declares it, or
else the one at hand. -/
def home (qname : QualifiedName) : String :=
  (qname.feature.or ((KindIndex.build m).owner qname.name)).getD current

/-- The name is that of a type which its package declares in this way. -/
def RefersTo (qname : QualifiedName) (shape : Shape) : Prop :=
  Named m qname ∧ (KindIndex.build m).kind qname.name ≠ some .resource ∧
    Declares m (home m current qname) (pascalCase qname.name) shape

/-- What was not resolved is by its letters a type over text. -/
def SpellsText (name : String) : Prop :=
  isEmptyName name = false ∧
    (Declares m current (sanitiseGoIdent name) .text ∨
      shapes m current (sanitiseGoIdent name) = [] ∧ sanitiseGoIdent name = "string")

/-- The first enum of the name in the module decides the column. -/
def EnumFits (qname : QualifiedName) : Prop :=
  match findEnumDecl m qname.name with
  | some decl =>
      if isIntStorage decl then IsKey m qname ∨ RefersTo m current qname .number
      else RefersTo m current qname .text
  | none => RefersTo m current qname .text

/-- A name that stands for itself: a foreign key, a record of the module, or an enum. -/
def NameFits (qname : QualifiedName) : Prop :=
  if (foreignKeyOwner m qname).isSome then IsKey m qname ∨ RefersTo m current qname .number
  else if nameIsRecord m qname.name then RefersTo m current qname .document
  else EnumFits m current qname

/-- Below `many` a name has to be an enum over text. -/
def ElementFits : TypeRef → Prop
  | .builtin _ | .capability _ => True
  | .userDefined qname | .enumRef qname => RefersTo m current qname .text
  | .many inner => ElementFits inner
  | .unresolved name => SpellsText m current name

/-- Only directly below one `many` may a record stand. -/
def Fits : TypeRef → Prop
  | .builtin _ | .capability _ => True
  | .userDefined qname => NameFits m current qname
  | .enumRef qname => EnumFits m current qname
  | .many (.userDefined qname) =>
      if nameIsRecord m qname.name then RefersTo m current qname .document
      else RefersTo m current qname .text
  | .many inner => ElementFits m current inner
  | .unresolved name => SpellsText m current name

end Names

/-! ### Names of packages -/

section Names

theorem head_capitalized {word : List Char} (h : word ≠ []) :
    ∃ (c : Char) (rest : List Char), capitalized word = c.toUpper :: rest := by
  cases word with
  | nil => exact absurd rfl h
  | cons c word =>
      rw [capitalized]
      split
      · exact ⟨c, word.map Char.toUpper, rfl⟩
      · exact ⟨c, word, rfl⟩

theorem mem_capitalized {word : List Char} {d : Char} (h : d ∈ capitalized word) :
    ∃ c ∈ word, d = c ∨ d = c.toUpper := by
  cases word with
  | nil => cases h
  | cons c word =>
      rw [capitalized] at h
      split at h
      · obtain ⟨e, he, rfl⟩ := List.mem_map.mp h
        exact ⟨e, he, .inr rfl⟩
      · rcases List.mem_cons.mp h with rfl | hd
        · exact ⟨c, List.mem_cons_self, .inr rfl⟩
        · exact ⟨d, List.mem_cons_of_mem c hd, .inl rfl⟩

theorem splitWords_parts (s : String) :
    ∀ word ∈ splitWords s, word ≠ [] ∧ ∀ c ∈ word, c ≠ '_' :=
  forall_mem_splitWordsFrom (by simp) fun _ _ h => h

/-- No type is declared with an underscore in its Go name. -/
theorem underscore_notMem_pascalCase (s : String) : '_' ∉ (pascalCase s).toList := by
  intro h
  rw [pascalCase, String.toList_ofList] at h
  obtain ⟨word, hword, hc⟩ := List.mem_flatMap.mp h
  obtain ⟨c, hmem, same | upper⟩ := mem_capitalized hc
  · exact (splitWords_parts s word hword).2 c hmem same.symm
  · exact (splitWords_parts s word hword).2 c hmem (CamelCase.eq_of_toUpper_eq rfl upper.symm)

/-- A Go name of a declaration is none of the predeclared types. -/
theorem pascalCase_ne_string (s : String) : pascalCase s ≠ "string" := by
  intro h
  have hchars : (splitWords s).flatMap capitalized = "string".toList := by
    rw [← h, pascalCase, String.toList_ofList]
  cases hs : splitWords s with
  | nil => simp [hs] at hchars
  | cons word words =>
      have hword : word ≠ [] := (splitWords_parts s word (hs ▸ List.mem_cons_self)).1
      obtain ⟨c, rest, hcap⟩ := head_capitalized hword
      rw [hs, List.flatMap_cons, hcap, List.cons_append] at hchars
      have hhead : c.toUpper = 's' := (List.cons.inj hchars).1
      have hlower : c.toUpper.isLower = false := Char.isLower_toUpper_eq_false c
      rw [hhead] at hlower
      cases hlower

theorem head_sanitiseGoIdent {name : String} (h : isDecorator name = true) :
    (sanitiseGoIdent name).toList.head? = some '_' := by
  have hhead : name.toList.head? = some '@' := of_decide_eq_true h
  cases hname : name.toList with
  | nil => simp [hname] at hhead
  | cons c rest =>
      obtain rfl : c = '@' := by simpa [hname] using hhead
      simp [sanitiseGoIdent, hname]

end Names

/-! ### Identifiers -/

section Identifiers

variable {m : Module} {current : String}

theorem accepts_ident_package {package : Option String} {name pg : String}
    (h : package ≠ none ∨ name ≠ "string") :
    Accepts m current (.ident package name) pg ↔
      ∃ s, Declares m (package.getD current) name s ∧ s.column = some pg := by
  rw [Accepts, or_iff_left]
  rintro ⟨hpackage, -, hname, -⟩
  exact h.elim (fun h => h hpackage) fun h => h hname

theorem shapes_eq_nil {package goName : String} (h : ∀ name, pascalCase name ≠ goName) :
    shapes m package goName = [] := by
  refine List.flatMap_eq_nil_iff.mpr fun f _ => ?_
  have none_of {α : Type} (key : α → String) (l : List α) :
      l.filter (fun x => pascalCase (key x) = goName) = [] :=
    List.filter_eq_nil_iff.mpr fun x _ => by simpa using h (key x)
  simp [none_of]

theorem shapes_decorator {package name : String} (h : isDecorator name = true) :
    shapes m package (sanitiseGoIdent name) = [] := by
  refine shapes_eq_nil fun name' same => underscore_notMem_pascalCase name' ?_
  rw [same]
  exact List.mem_of_mem_head? (by rw [head_sanitiseGoIdent h]; rfl)

theorem not_accepts_decorator {name pg : String} (h : isDecorator name = true) :
    ¬ Accepts m current (.ident none (sanitiseGoIdent name)) pg := by
  have hname : sanitiseGoIdent name ≠ "string" := by
    intro same
    have hhead := head_sanitiseGoIdent h
    rw [same] at hhead
    cases hhead
  rw [accepts_ident_package (.inr hname)]
  rintro ⟨s, ⟨hne, -⟩, -⟩
  exact hne (shapes_decorator h)

/-- The package that a name is looked up in is its home. -/
theorem resolveNamed_eq {qname : QualifiedName} (h : isDecorator qname.name = false)
    (hkind : (KindIndex.build m).kind qname.name ≠ some .resource) :
    ∃ package, resolveNamed m current qname = .ident package (pascalCase qname.name) ∧
      package.getD current = home m current qname := by
  have inPackage (owner : String) :
      ∃ package, (if owner = current then GoType.ident none (pascalCase qname.name)
          else .ident (some owner) (pascalCase qname.name)) =
        .ident package (pascalCase qname.name) ∧ package.getD current = owner := by
    split
    · exact ⟨none, rfl, by simp_all⟩
    · exact ⟨some owner, rfl, rfl⟩
  rw [resolveNamed, if_neg (by simp [h])]
  simp only [if_neg hkind]
  cases hfeature : qname.feature with
  | some owner => simpa [home, hfeature] using inPackage owner
  | none =>
      cases howner : (KindIndex.build m).owner qname.name with
      | some owner => simpa [home, hfeature, howner] using inPackage owner
      | none => exact ⟨none, rfl, by simp [home, hfeature, howner]⟩

theorem goTypeFor_named {qname : QualifiedName} (hnamed : Named m qname) :
    goTypeFor m current (.userDefined qname) = resolveNamed m current qname := by
  rw [goTypeFor, if_neg (by simp [hnamed.nonempty])]

/-- A key accepts a number, and another name what it is declared over. -/
theorem accepts_named (qname : QualifiedName) (pg : String) :
    Accepts m current (goTypeFor m current (.userDefined qname)) pg ↔
      IsKey m qname ∧ pg = "BIGINT" ∨
        ∃ s, RefersTo m current qname s ∧ s.column = some pg := by
  by_cases hnamed : Named m qname
  · rw [goTypeFor_named hnamed]
    by_cases hkind : (KindIndex.build m).kind qname.name = some .resource
    · rw [resolveNamed, if_neg (by simp [hnamed.plain])]
      simp only [if_pos hkind]
      have hrefers (s : Shape) : ¬ RefersTo m current qname s := fun h => h.2.1 hkind
      simp only [hrefers, false_and, exists_false, or_false]
      rw [and_iff_right ⟨hnamed, hkind⟩, Accepts]
      exact ⟨fun h => (Option.some.inj h).symm, fun h => h ▸ rfl⟩
    · obtain ⟨package, htype, hpackage⟩ := resolveNamed_eq hnamed.plain hkind
      rw [htype, accepts_ident_package (.inr (pascalCase_ne_string _)), hpackage]
      simp [IsKey, RefersTo, hnamed, hkind]
  · refine iff_of_false ?_ ?_
    · rw [goTypeFor]
      split
      · exact id
      · rename_i hempty
        have hdecorator : isDecorator qname.name = true := by
          by_contra hplain
          exact hnamed ⟨by simpa using hplain, by simpa using hempty⟩
        rw [resolveNamed, if_pos hdecorator]
        exact not_accepts_decorator hdecorator
    · rintro (⟨hkey, -⟩ | ⟨s, hrefers, -⟩)
      · exact hnamed hkey.1
      · exact hnamed hrefers.1

theorem Shape.column_eq_iff {s s' : Shape} {pg : String} (h : s'.column = some pg) :
    s.column = some pg ↔ s = s' := by
  cases s' <;> cases h <;> cases s <;> simp [Shape.column]

/-- The column of one shape is accepted by no other. -/
theorem exists_column {p : Shape → Prop} {s : Shape} {pg : String} (h : s.column = some pg) :
    (∃ s', p s' ∧ s'.column = some pg) ↔ p s := by
  constructor
  · rintro ⟨s', hs', hcolumn⟩
    exact (Shape.column_eq_iff h).mp hcolumn ▸ hs'
  · exact fun hs => ⟨s, hs, h⟩

section Named

variable (qname : QualifiedName)

theorem accepts_number :
    Accepts m current (goTypeFor m current (.userDefined qname)) "BIGINT" ↔
      IsKey m qname ∨ RefersTo m current qname .number := by
  rw [accepts_named, exists_column (s := .number) rfl, and_iff_left rfl]

theorem accepts_document :
    Accepts m current (goTypeFor m current (.userDefined qname)) "JSONB" ↔
      RefersTo m current qname .document := by
  rw [accepts_named, exists_column (s := .document) rfl, or_iff_right (by simp)]

theorem accepts_text :
    Accepts m current (goTypeFor m current (.userDefined qname)) "TEXT" ↔
      RefersTo m current qname .text := by
  rw [accepts_named, exists_column (s := .text) rfl, or_iff_right (by simp)]

theorem accepts_enum :
    Accepts m current (goTypeFor m current (.userDefined qname))
        (pgTypeForEnum m qname.name) ↔ EnumFits m current qname := by
  rw [pgTypeForEnum, EnumFits]
  cases findEnumDecl m qname.name with
  | none => exact accepts_text qname
  | some decl =>
      simp only
      split
      · exact accepts_number qname
      · exact accepts_text qname

theorem resolveNamed_cases :
    resolveNamed m current qname = .runtime "lazuli.ID" none ∨
      ∃ package name, resolveNamed m current qname = .ident package name := by
  cases hplain : isDecorator qname.name with
  | true => exact .inr ⟨none, sanitiseGoIdent qname.name, by rw [resolveNamed, if_pos hplain]⟩
  | false =>
      by_cases hkind : (KindIndex.build m).kind qname.name = some .resource
      · left
        rw [resolveNamed, if_neg (by simp [hplain])]
        simp only [if_pos hkind]
      · obtain ⟨package, htype, -⟩ := resolveNamed_eq hplain hkind
        exact .inr ⟨package, _, htype⟩

theorem isDocument_named :
    IsDocument m current (goTypeFor m current (.userDefined qname)) ↔
      RefersTo m current qname .document := by
  rw [← accepts_document, goTypeFor]
  split
  · exact Iff.rfl
  · rcases resolveNamed_cases (m := m) qname with h | ⟨package, name, h⟩
    · rw [h]
      have hkey : runtimeColumn "lazuli.ID" = some "BIGINT" := rfl
      exact iff_of_false id (by simp [Accepts, hkey])
    · rw [h, IsDocument, Accepts, exists_column (s := .document) rfl]
      simp

end Named

/-! ### Types -/

theorem accepts_builtin (type : BuiltinType) :
    Accepts m current (goTypeForBuiltin type) (pgTypeForBuiltin type) := by
  cases type <;> rfl

theorem accepts_capability (cap : CapabilityRef) :
    Accepts m current (goTypeForCapability cap) (pgTypeForCapability cap) := by
  cases cap <;> rfl

theorem accepts_unresolved (name : String) :
    Accepts m current (goTypeFor m current (.unresolved name)) "TEXT" ↔
      SpellsText m current name := by
  rw [goTypeFor, SpellsText]
  cases hempty : isEmptyName name with
  | true => simp [Accepts]
  | false => simp [Accepts, exists_column (s := .text) rfl]

theorem append_brackets_ne_jsonb (t : String) : t ++ "[]" ≠ "JSONB" := by
  intro h
  have hlast := congrArg (fun s : String => s.toList.getLast?) h
  simp at hlast

/-- An array is no document. -/
theorem accepts_slice (elem : GoType) (t : String) :
    Accepts m current (.slice elem) (t ++ "[]") ↔ Accepts m current elem t := by
  rw [Accepts, or_iff_right fun h => append_brackets_ne_jsonb t h.1]
  constructor
  · rintro ⟨t', ht, h⟩
    exact (String.append_left_inj "[]").mp ht ▸ h
  · exact fun h => ⟨t, rfl, h⟩

theorem accepts_slice_document (elem : GoType) :
    Accepts m current (.slice elem) "JSONB" ↔ IsDocument m current elem := by
  rw [Accepts, or_iff_left]
  · exact and_iff_right rfl
  · rintro ⟨t, ht, -⟩
    exact append_brackets_ne_jsonb t ht.symm

theorem accepts_element (type : TypeRef) :
    Accepts m current (goTypeFor m current type) (pgTypeFor type) ↔
      ElementFits m current type := by
  induction type with
  | builtin type => exact iff_of_true (accepts_builtin type) trivial
  | capability cap => exact iff_of_true (accepts_capability cap) trivial
  | userDefined qname | enumRef qname => exact accepts_text qname
  | unresolved name => exact accepts_unresolved name
  | many inner ih => rw [goTypeFor, pgTypeFor, accepts_slice, ih, ElementFits]

theorem accepts_name (qname : QualifiedName) :
    Accepts m current (goTypeFor m current (.userDefined qname))
        (if (foreignKeyOwner m qname).isSome then "BIGINT"
          else if nameIsRecord m qname.name then "JSONB" else pgTypeForEnum m qname.name) ↔
      NameFits m current qname := by
  rw [NameFits]
  split
  · exact accepts_number qname
  · split
    · exact accepts_document qname
    · exact accepts_enum qname

theorem accepts_names (qname : QualifiedName) :
    Accepts m current (goTypeFor m current (.many (.userDefined qname)))
        (if nameIsRecord m qname.name then "JSONB" else "TEXT[]") ↔
      Fits m current (.many (.userDefined qname)) := by
  rw [goTypeFor, Fits]
  split
  · rw [accepts_slice_document, isDocument_named]
  · exact (accepts_slice _ "TEXT").trans (accepts_text qname)

/-- The columns scan into the Go types exactly where both readings of a name agree. -/
theorem compatible_iff (m : Module) (current : String) (field : Field) :
    Compatible m current field ↔ Fits m current field.typeRef := by
  rw [Compatible, pgTypeForField]
  cases field.typeRef with
  | userDefined qname => exact accepts_name qname
  | enumRef qname => exact accepts_enum qname
  | builtin type => exact accepts_element (.builtin type)
  | capability cap => exact accepts_element (.capability cap)
  | unresolved name => exact accepts_element (.unresolved name)
  | many inner =>
      cases inner with
      | userDefined qname => exact accepts_names qname
      | builtin type => exact accepts_element (.many (.builtin type))
      | enumRef qname => exact accepts_element (.many (.enumRef qname))
      | capability cap => exact accepts_element (.many (.capability cap))
      | unresolved name => exact accepts_element (.many (.unresolved name))
      | many inner => exact accepts_element (.many (.many inner))

end Identifiers

/-! ### An array of numbers -/

def priority : EnumDecl where
  name := "Priority"
  variants := [⟨"low", some (.integer 1)⟩, ⟨"high", some (.integer 2)⟩]

/-- `many Priority` -/
def priorities : Field where
  name := "priorities"
  typeRef := .many (.userDefined ⟨none, "Priority"⟩)
  required := true

def orders : Feature where
  name := "orders"
  resources := [{ name := "Order", fields := [priorities] }]
  enums := [priority]

def ordersModule : Module := ⟨[orders]⟩

theorem shapes_priority : shapes ordersModule "orders" "Priority" = [.number] := by decide

/-- A `TEXT[]` is scanned into a slice over `int64`. -/
theorem priorities_not_scanned :
    ¬ ∀ m : Module, ∀ f ∈ m.features, ∀ r ∈ f.resources, ∀ field ∈ r.fields,
      Compatible m f.name field := by
  intro h
  have hfield : Accepts ordersModule "orders"
      (goTypeFor ordersModule "orders" (.many (.userDefined ⟨none, "Priority"⟩))) "TEXT[]" :=
    h ordersModule orders List.mem_cons_self _ List.mem_cons_self priorities List.mem_cons_self
  have helement := (accepts_slice _ "TEXT").mp hfield
  obtain ⟨-, -, -, hall⟩ := (accepts_text ⟨none, "Priority"⟩).mp helement
  have hshapes : shapes ordersModule (home ordersModule "orders" ⟨none, "Priority"⟩)
      (pascalCase "Priority") = [.number] := shapes_priority
  rw [hshapes] at hall
  cases hall .number List.mem_cons_self

end Lazuli.Codegen.ColumnTypes
