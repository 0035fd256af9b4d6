import Mathlib.Data.List.Nodup
import Lazuli.General.Lookup
import Mathlib.Algebra.Group.Nat.Defs
import Lazuli.Codegen.Schema
import Lazuli.General.LineTable

/-!
The source map (`lazuli_ir/src/nodes/source_map.rs`, `lazuli_analyzer/src/source_map.rs`).

`buildSourceFile` keeps of a file the offsets at which its lines start, and of its end;
`SourceMap.resolve` finds the line and the column of a span in them. `resolve_eq` says that these
are the line and the column in the text, for files whose offsets are 32-bit numbers.
-/

namespace Lazuli.Analyzer

open General
open Ir (SpanRef)

abbrev FileId := Nat

structure SourceFile where
  id : FileId
  path : String
  lineOffsets : List Nat
  deriving DecidableEq

structure SourceMap where
  files : List SourceFile
  deriving DecidableEq

structure ResolvedLoc where
  file : String
  line : Nat
  column : Nat
  deriving DecidableEq

/-- The byte `b'\n'`. -/
def newline : UInt8 := 10

/-- Offsets are cast to `u32`; a longer text ends at the largest one. -/
def buildSourceFile (id : FileId) (path : String) (source : List UInt8) : SourceFile :=
  let offsets := (LineTable.starts newline source).map (· % 2 ^ 32)
  let sourceLen := if source.length < 2 ^ 32 then source.length else 2 ^ 32 - 1
  { id, path
    lineOffsets := if offsets.getLast? = some sourceLen then offsets else offsets ++ [sourceLen] }

namespace SourceMap

/-- The position at which a span starts. The last offset of a table is the end of the file, unless
the file is empty. -/
def resolve (map : SourceMap) (fileId : FileId) (span : SpanRef) : Option ResolvedLoc := do
  let file ← map.files.find? (·.id = fileId)
  let sourceLen ← file.lineOffsets.getLast?
  guard (span.start < 2 ^ 32 ∧ span.start ≤ sourceLen)
  let searchable :=
    if file.lineOffsets.length > 1 then file.lineOffsets.dropLast else file.lineOffsets
  let lineIdx := LineTable.slot searchable span.start
  let lineStart ← searchable[lineIdx]?
  some ⟨file.path, lineIdx + 1, span.start - lineStart + 1⟩

end SourceMap

/-- A file of which the map is made. Its offsets are `u32` numbers. -/
structure MappedFile where
  id : FileId
  path : String
  text : List UInt8
  small : text.length < 2 ^ 32

def MappedFile.toSourceFile (file : MappedFile) : SourceFile :=
  buildSourceFile file.id file.path file.text

/-- The map that is built of files. -/
def SourceMap.ofFiles (files : List MappedFile) : SourceMap :=
  ⟨files.map MappedFile.toSourceFile⟩

section Resolve

variable {file : MappedFile} {offset : Nat}

/-- The table of a file: the starts of the lines up to an offset in it, the later ones, and the
end. -/
theorem MappedFile.lineOffsets_split (inside : offset < file.text.length) :
    ∃ after, file.toSourceFile.lineOffsets =
        LineTable.starts newline (file.text.take offset) ++ after ++ [file.text.length] ∧
      ∀ y ∈ after, offset < y := by
  have starts : (LineTable.starts newline file.text).map (· % 2 ^ 32) =
      LineTable.starts newline file.text := by
    refine (List.map_congr_left fun x hx => ?_).trans (List.map_id _)
    have := LineTable.le_of_mem_starts hx
    have := file.small
    exact Nat.mod_eq_of_lt (by omega)
  have split := LineTable.starts_split newline file.text offset (by omega)
  have high : ∀ y ∈ LineTable.startsAfter newline offset (file.text.drop offset), offset < y :=
    fun _ hy => LineTable.lt_of_mem_startsAfter hy
  simp only [toSourceFile, buildSourceFile, starts, if_pos file.small]
  rw [split] at *
  generalize LineTable.startsAfter newline offset (file.text.drop offset) = later at *
  split
  case isFalse => exact ⟨later, rfl, high⟩
  case isTrue last =>
    -- the end of the file starts a line, which lies after the offset
    cases later using List.reverseRecOn with
    | nil =>
        rw [List.append_nil] at last
        have low := LineTable.le_of_mem_starts (List.mem_of_getLast? last)
        rw [List.length_take] at low
        omega
    | append_singleton later m =>
        rw [← List.append_assoc, List.getLast?_concat, Option.some.injEq] at last
        subst last
        exact ⟨later, (List.append_assoc _ _ _).symm,
          fun y hy => high y (List.mem_append_left _ hy)⟩

/-- **A span is where the map says**: in the line and at the column of its start in the text of the
first file under its id. -/
theorem SourceMap.resolve_eq {files : List MappedFile} {id : FileId} {span : SpanRef}
    (found : files.find? (·.id = id) = some file) (inside : span.start < file.text.length) :
    (SourceMap.ofFiles files).resolve id span = some ⟨file.path,
      LineTable.line newline file.text span.start,
      LineTable.column newline file.text span.start⟩ := by
  have foundEntry : (SourceMap.ofFiles files).files.find? (·.id = id) =
      some file.toSourceFile := by
    rw [SourceMap.ofFiles, List.find?_map]
    exact congrArg (Option.map MappedFile.toSourceFile) found
  obtain ⟨after, table, high⟩ := MappedFile.lineOffsets_split inside
  obtain ⟨line, start, here, column⟩ :=
    LineTable.slot_starts newline file.text span.start (by omega) high
  have small := file.small
  have representable : span.start < 2 ^ 32 ∧ span.start ≤ file.text.length := ⟨by omega, by omega⟩
  have path : file.toSourceFile.path = file.path := rfl
  have long : 1 < (LineTable.starts newline (file.text.take span.start) ++ after ++
      [file.text.length]).length := by
    rw [List.length_append, List.length_append, LineTable.length_starts]
    simp only [List.length_singleton]
    omega
  simp only [SourceMap.resolve, foundEntry, table, Option.bind_eq_bind, Option.bind_some,
    List.getLast?_concat, List.dropLast_concat, if_pos long, guard, if_pos representable, here,
    line, column, path]
  rfl

end Resolve

end Lazuli.Analyzer

/-!
Where a symbol comes from (`lazuli_analyzer/src/symbol_origin/mod.rs`).

`buildSymbolOriginIndex` walks the declarations of every feature and enters each under
`<feature>.<name>`. The key does not tell the kind, so a later declaration replaces an earlier one
of its name (`symbols_apply`); and the file of a feature is the first one with its base name.
`index_spec` says what can be read in the index.
-/

namespace Lazuli.Analyzer.Origins

open General
open Ir (SpanRef)

/-! ### The part of the IR that is walked -/

/-- What the walker reads of a declaration. Records and aggregates have no previous names, events
and aggregates no contract. -/
structure Declaration where
  name : String
  spanRef : Option SpanRef
  previousNames : List String
  contractVersion : Option Nat
  deriving DecidableEq

inductive Query where
  | list (query : Declaration)
  | lookup (query : Declaration)
  | sql (query : Declaration)
  deriving DecidableEq

structure Feature where
  name : String
  enums : List Declaration
  resources : List Declaration
  records : List Declaration
  commands : List Declaration
  queries : List Query
  events : List Declaration
  aggregates : List Declaration
  uses : List String
  usesSpans : List SpanRef
  deriving DecidableEq

structure Module where
  features : List Feature
  deriving DecidableEq

/-! ### The index -/

inductive SymbolKind where
  | enum
  | resource
  | record
  | scalar
  | semantic
  | command
  | query
  | event
  | aggregate
  deriving DecidableEq

inductive SourceLocation where
  | file (file : String) (line column : Nat)
  | builtin
  deriving DecidableEq

structure SymbolOrigin where
  feature : String
  name : String
  kind : SymbolKind
  definedAt : SourceLocation
  previousNames : List String
  contractVersion : Option Nat
  deriving DecidableEq

structure ImportEdge where
  importer : String
  imported : String
  usesAt : SourceLocation
  deriving DecidableEq

/-- The two maps, as functions. -/
structure SymbolOriginIndex where
  symbols : String → Option SymbolOrigin
  imports : String → Option (List ImportEdge)

def qualifiedKey (feature name : String) : String := feature ++ "." ++ name

def basename (path : String) : String :=
  String.ofList (path.toList.reverse.takeWhile (· ∉ ['/', '\\'])).reverse

/-- The first file with the base name of the feature, or the conventional first id. -/
def featureFileId (feature : Feature) (map : SourceMap) : FileId :=
  match map.files.find? fun file => basename file.path = feature.name ++ ".lzi" with
  | some file => file.id
  | none => 1

def unresolved : SourceLocation := .file "<unresolved>" 0 0

def resolveOrUnresolved (span : Option SpanRef) (fileId : FileId) (map : SourceMap) :
    SourceLocation :=
  match span.bind (map.resolve fileId) with
  | some loc => .file loc.file loc.line loc.column
  | none => unresolved

def insertSymbol (feature : Feature) (fileId : FileId) (map : SourceMap) (kind : SymbolKind)
    (symbols : String → Option SymbolOrigin) (name : String) (spanRef : Option SpanRef)
    (previousNames : List String) (contractVersion : Option Nat) :
    String → Option SymbolOrigin :=
  Function.update symbols (qualifiedKey feature.name name)
    (some { feature := feature.name, name, kind, previousNames, contractVersion
            definedAt := resolveOrUnresolved spanRef fileId map })

def queryFacts : Query → Declaration
  | .list q => q
  | .lookup q => q
  | .sql q => q

/-- The symbols of one feature. -/
def insertSymbols (feature : Feature) (map : SourceMap) (symbols : String → Option SymbolOrigin) :
    String → Option SymbolOrigin :=
  let insert := insertSymbol feature (featureFileId feature map) map
  let symbols := feature.enums.foldl (fun symbols d =>
    insert .enum symbols d.name d.spanRef d.previousNames d.contractVersion) symbols
  let symbols := feature.resources.foldl (fun symbols d =>
    insert .resource symbols d.name d.spanRef d.previousNames d.contractVersion) symbols
  let symbols := feature.records.foldl (fun symbols d =>
    insert .record symbols d.name d.spanRef [] d.contractVersion) symbols
  let symbols := feature.commands.foldl (fun symbols d =>
    insert .command symbols d.name d.spanRef d.previousNames d.contractVersion) symbols
  let symbols := feature.queries.foldl (fun symbols query =>
    let d := queryFacts query
    insert .query symbols d.name d.spanRef d.previousNames d.contractVersion) symbols
  let symbols := feature.events.foldl (fun symbols d =>
    insert .event symbols d.name d.spanRef d.previousNames none) symbols
  feature.aggregates.foldl (fun symbols d =>
    insert .aggregate symbols d.name d.spanRef [] none) symbols

def importEdges (feature : Feature) (map : SourceMap) : List ImportEdge :=
  feature.uses.mapIdx fun i imported =>
    { importer := feature.name, imported
      usesAt := resolveOrUnresolved feature.usesSpans[i]? (featureFileId feature map) map }

def insertImports (feature : Feature) (map : SourceMap)
    (imports : String → Option (List ImportEdge)) : String → Option (List ImportEdge) :=
  if importEdges feature map = [] then imports
  else Function.update imports feature.name (some (importEdges feature map))

def buildSymbolOriginIndex (module : Module) (map : SourceMap) : SymbolOriginIndex :=
  module.features.foldl (fun index feature =>
      { symbols := insertSymbols feature map index.symbols
        imports := insertImports feature map index.imports })
    { symbols := fun _ => none, imports := fun _ => none }

/-! ### What is declared -/

/-- A declaration of a feature, with its kind. -/
structure Declared where
  feature : Feature
  kind : SymbolKind
  decl : Declaration
  deriving DecidableEq

def Declared.key (d : Declared) : String := qualifiedKey d.feature.name d.decl.name

/-- The declarations of a feature, in the order of the walk. -/
def Feature.declared (feature : Feature) : List Declared :=
  feature.enums.map (⟨feature, .enum, ·⟩) ++ feature.resources.map (⟨feature, .resource, ·⟩) ++
    feature.records.map (fun d => ⟨feature, .record, { d with previousNames := [] }⟩) ++
    feature.commands.map (⟨feature, .command, ·⟩) ++
    feature.queries.map (fun q => ⟨feature, .query, queryFacts q⟩) ++
    feature.events.map (fun d => ⟨feature, .event, { d with contractVersion := none }⟩) ++
    feature.aggregates.map fun d =>
      ⟨feature, .aggregate, { d with previousNames := [], contractVersion := none }⟩

def Module.declared (module : Module) : List Declared := module.features.flatMap Feature.declared

/-- The entry of a declaration. -/
def Declared.origin (map : SourceMap) (d : Declared) : SymbolOrigin where
  feature := d.feature.name
  name := d.decl.name
  kind := d.kind
  definedAt := resolveOrUnresolved d.decl.spanRef (featureFileId d.feature map) map
  previousNames := d.decl.previousNames
  contractVersion := d.decl.contractVersion

/-! ### The walk -/

section Walk

variable {module : Module} {map : SourceMap}

theorem insertSymbols_eq (feature : Feature) (symbols : String → Option SymbolOrigin) :
    insertSymbols feature map symbols =
      insertAll Declared.key (Declared.origin map) symbols feature.declared := by
  simp only [Feature.declared, insertAll, List.foldl_append, List.foldl_map]
  rfl

/-- A key holds the last declaration of it. -/
theorem symbols_apply (key : String) :
    (buildSymbolOriginIndex module map).symbols key =
      (lastWhere (fun d => d.key = key) module.declared).map (Declared.origin map) := by
  have walk (features : List Feature) (index : SymbolOriginIndex) :
      (features.foldl (fun index feature =>
        { symbols := insertSymbols feature map index.symbols
          imports := insertImports feature map index.imports : SymbolOriginIndex }) index).symbols =
        insertAll Declared.key (Declared.origin map) index.symbols
          (features.flatMap Feature.declared) := by
    induction features generalizing index with
    | nil => rfl
    | cons feature features ih =>
        rw [List.foldl_cons, ih, List.flatMap_cons, insertSymbols_eq, insertAll, insertAll,
          insertAll, List.foldl_append]
  rw [buildSymbolOriginIndex, walk, insertAll_apply, Option.or_none]
  rfl

theorem imports_apply (name : String) :
    (buildSymbolOriginIndex module map).imports name =
      (lastWhere (fun feature => feature.name = name)
        (module.features.filter fun feature => importEdges feature map ≠ [])).map
          (importEdges · map) := by
  have walk (features : List Feature) (index : SymbolOriginIndex) :
      (features.foldl (fun index feature =>
        { symbols := insertSymbols feature map index.symbols
          imports := insertImports feature map index.imports : SymbolOriginIndex }) index).imports =
        insertAll Feature.name (importEdges · map) index.imports
          (features.filter fun feature => importEdges feature map ≠ []) := by
    induction features generalizing index with
    | nil => rfl
    | cons feature features ih =>
        rw [List.foldl_cons, ih, insertImports]
        by_cases none : importEdges feature map = []
        · rw [if_pos none, List.filter_cons_of_neg (by simpa using none)]
        · rw [if_neg none, List.filter_cons_of_pos (by simpa using none)]
          rfl
  rw [buildSymbolOriginIndex, walk, insertAll_apply, Option.or_none]

theorem importEdges_uses (feature : Feature) :
    (importEdges feature map).map (fun edge => (edge.importer, edge.imported)) =
      feature.uses.map (feature.name, ·) := by
  apply List.ext_getElem?
  intro i
  simp only [importEdges, List.getElem?_map, List.getElem?_mapIdx, Option.map_map]
  rfl

end Walk

/-! ### What the index says -/

/-- The file in which the spans of a feature are looked up: the first under the id that its base
name gives. -/
def pickedFile (files : List MappedFile) (feature : Feature) : Option MappedFile :=
  files.find? (·.id = featureFileId feature (SourceMap.ofFiles files))

/-- Every declaration has an entry with its feature, name and kind. -/
def Complete (module : Module) (files : List MappedFile) : Prop :=
  ∀ d ∈ module.declared, ∃ key origin,
    (buildSymbolOriginIndex module (SourceMap.ofFiles files)).symbols key = some origin ∧
      origin.feature = d.feature.name ∧ origin.name = d.decl.name ∧ origin.kind = d.kind

/-- Every entry is of a declaration, and at the position of its span in the file of the feature,
when the span lies in it. -/
def Located (module : Module) (files : List MappedFile)
    (fileOf : Feature → Option MappedFile) : Prop :=
  ∀ key origin,
    (buildSymbolOriginIndex module (SourceMap.ofFiles files)).symbols key = some origin →
      ∃ d ∈ module.declared, origin.feature = d.feature.name ∧ origin.name = d.decl.name ∧
        origin.kind = d.kind ∧
          ∀ span, d.decl.spanRef = some span → ∀ file, fileOf d.feature = some file →
            span.start < file.text.length →
              origin.definedAt = .file file.path (LineTable.line newline file.text span.start)
                (LineTable.column newline file.text span.start)

/-- What the index of a module says. -/
structure Indexed (module : Module) (files : List MappedFile) : Prop where
  entry : ∀ earlier d later, module.declared = earlier ++ d :: later →
    (∀ d' ∈ later, d'.key ≠ d.key) → ∃ origin,
      (buildSymbolOriginIndex module (SourceMap.ofFiles files)).symbols d.key = some origin ∧
        origin.feature = d.feature.name ∧ origin.name = d.decl.name ∧ origin.kind = d.kind
  located : Located module files (pickedFile files)
  uses : ∀ feature ∈ module.features,
    ((buildSymbolOriginIndex module (SourceMap.ofFiles files)).imports feature.name).getD [] =
      importEdges feature (SourceMap.ofFiles files) ∧
    (importEdges feature (SourceMap.ofFiles files)).map
      (fun edge => (edge.importer, edge.imported)) = feature.uses.map (feature.name, ·)
  importers : ∀ name edges,
    (buildSymbolOriginIndex module (SourceMap.ofFiles files)).imports name = some edges →
      ∃ feature ∈ module.features, feature.name = name

/-- Of distinct features each has its own edges. -/
theorem imports_of_distinct {module : Module} {map : SourceMap}
    (distinct : (module.features.map Feature.name).Nodup) {feature : Feature}
    (mem : feature ∈ module.features) :
    ((buildSymbolOriginIndex module map).imports feature.name).getD [] =
      importEdges feature map := by
  rw [imports_apply]
  by_cases none : importEdges feature map = []
  · have absent : lastWhere (fun other : Feature => other.name = feature.name)
        (module.features.filter fun other => importEdges other map ≠ []) = Option.none := by
      rw [lastWhere, List.find?_eq_none]
      intro other hother same
      obtain ⟨hother, edges⟩ := List.mem_filter.mp (List.mem_reverse.mp hother)
      obtain rfl := List.inj_on_of_nodup_map distinct hother mem (by simpa using same)
      simp [none] at edges
    rw [absent, none]
    rfl
  · rw [lastWhere_of_unique (List.mem_filter.mpr ⟨mem, by simpa using none⟩) (by simp)]
    · rfl
    · intro other hother same
      exact List.inj_on_of_nodup_map distinct (List.mem_filter.mp hother).1 mem
        (by simpa using same)

/-- **The index of a module with distinct feature names.** -/
theorem index_spec (module : Module) (files : List MappedFile)
    (distinct : (module.features.map Feature.name).Nodup) : Indexed module files where
  entry earlier d later split last := by
    have found : lastWhere (fun d' => d'.key = d.key) module.declared = some d :=
      lastWhere_eq_some_iff.mpr ⟨earlier, later, split, by simp, by simpa using last⟩
    exact ⟨d.origin _, by rw [symbols_apply, found]; rfl, rfl, rfl, rfl⟩
  located key origin h := by
    rw [symbols_apply, Option.map_eq_some_iff] at h
    obtain ⟨d, found, rfl⟩ := h
    refine ⟨d, (lastWhere_some found).1, rfl, rfl, rfl, fun span hspan file hfile inside => ?_⟩
    have resolved := SourceMap.resolve_eq hfile inside
    simp only [Declared.origin, resolveOrUnresolved, hspan, Option.bind_some, resolved]
  uses feature mem := ⟨imports_of_distinct distinct mem, importEdges_uses feature⟩
  importers name edges h := by
    rw [imports_apply, Option.map_eq_some_iff] at h
    obtain ⟨feature, found, -⟩ := h
    obtain ⟨mem, same⟩ := lastWhere_some found
    exact ⟨feature, (List.mem_filter.mp mem).1, by simpa using same⟩

/-! ### A shop with a command and a query of one name -/

def bare (name : String) : Feature where
  name := name
  enums := []
  resources := []
  records := []
  commands := []
  queries := []
  events := []
  aggregates := []
  uses := []
  usesSpans := []

def undocumented (name : String) (span : Option SpanRef) : Declaration :=
  { name, spanRef := span, previousNames := [], contractVersion := none }

def shop : Feature :=
  { bare "shop" with
    commands := [undocumented "orders" none]
    queries := [.list (undocumented "orders" (some ⟨0, 1⟩))] }

/-- Two features, the second of which is lowered from a file of the first one's base name. -/
def shopFiles : List MappedFile :=
  [{ id := 1, path := "old/shop.lzi", text := [113], small := by decide },
    { id := 2, path := "new/shop.lzi", text := [113], small := by decide }]

theorem index_spec_shop : Indexed ⟨[shop, bare "billing"]⟩ shopFiles :=
  index_spec ⟨[shop, bare "billing"]⟩ shopFiles (by decide)

def ordersCommand : Declared := ⟨shop, .command, undocumented "orders" none⟩

def ordersQuery : Declared := ⟨shop, .query, undocumented "orders" (some ⟨0, 1⟩)⟩

theorem declared_shop : Module.declared ⟨[shop, bare "billing"]⟩ = [ordersCommand, ordersQuery] :=
  rfl

/-- The command has no entry, and the query is located in the first file with the base name, also
when the feature is lowered from the second. -/
theorem command_lost : ¬ Complete ⟨[shop, bare "billing"]⟩ shopFiles ∧
    ¬ Located ⟨[shop, bare "billing"]⟩ shopFiles fun _ => shopFiles[1]? := by
  constructor
  · intro complete
    obtain ⟨key, origin, entry, -, -, kind⟩ := complete ordersCommand (by simp [declared_shop])
    rw [symbols_apply, declared_shop, Option.map_eq_some_iff] at entry
    obtain ⟨d, found, rfl⟩ := entry
    have keys : ordersCommand.key = ordersQuery.key := rfl
    rw [lastWhere, List.reverse_cons, List.reverse_singleton, List.singleton_append] at found
    by_cases here : ordersQuery.key = key
    · rw [List.find?_cons_of_pos (by simpa using here)] at found
      cases found
      cases kind
    · rw [List.find?_cons_of_neg (by simpa using here),
        List.find?_cons_of_neg (by simpa [keys] using here)] at found
      cases found
  · intro located
    obtain ⟨d, mem, -, -, kind, position⟩ := located "shop.orders"
      (ordersQuery.origin (SourceMap.ofFiles shopFiles)) (by rw [symbols_apply, declared_shop]; rfl)
    rw [declared_shop] at mem
    obtain rfl : d = ordersQuery := by
      rcases List.mem_cons.mp mem with rfl | mem
      · cases kind
      · exact List.mem_singleton.mp mem
    have wrong := position ⟨0, 1⟩ rfl _ rfl (by decide)
    revert wrong
    decide

end Lazuli.Analyzer.Origins
