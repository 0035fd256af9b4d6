import Mathlib.Data.List.Nodup
import Mathlib.Tactic.Convert
import Lazuli.Analyzer.SymbolOrigin
import Lazuli.General.Lookup
import Lazuli.General.Loop

/-!
The two module loaders (`lazuli_cli/src/module_loader/mod.rs`).

`buildModuleFromPath` and `buildModuleWithSourceFromPath` walk the same files with the same
accumulators; the second keeps a source map and the file of every feature besides. Parsers,
lowering and module passes are those of a `Frontend`. The loops agree step by step
(`loadFileWithSource_view`), so the loaders do (`loaders_agree`).
-/

namespace Lazuli.Cli.ModuleLoader

open Lazuli.Analyzer Lazuli.General

/-! ### What the loaders pass on -/

/-- The types of the syntax and of the IR that the loaders do not look into. -/
structure Nodes where
  Path : Type
  Io : Type
  Workspace : Type
  Contract : Type
  App : Type
  Registry : Type
  Profile : Type
  DesignAst : Type
  Design : Type
  Rbac : Type
  DoctorAllowDecl : Type
  DoctorAllow : Type
  Skeleton : Type
  Feature : Type

structure Module (n : Nodes) where
  workspace : Option n.Workspace
  contracts : List n.Contract
  app : Option n.App
  registry : Option n.Registry
  profiles : List n.Profile
  design : Option n.Design
  rbac : Option n.Rbac
  doctorAllows : List n.DoctorAllow
  features : List n.Feature

variable {n : Nodes}

def Module.empty : Module n where
  workspace := none
  contracts := []
  app := none
  registry := none
  profiles := []
  design := none
  rbac := none
  doctorAllows := []
  features := []

/-- The file system, the parsers, the lowering and the passes over a module. The errors of the
front end are their debug texts. The passes go over the features in place: none is added, dropped or
renamed. -/
structure Frontend (n : Nodes) where
  isDir : n.Path → Bool
  isFile : n.Path → Bool
  parent : n.Path → Option n.Path
  current : n.Path
  display : n.Path → String
  relative : n.Path → n.Path → String
  resolveInAppDir : n.Path → String → n.Path
  readToString : n.Path → Except n.Io String
  collectPackageLziFiles : n.Path → Except n.Io (List n.Path)
  sort : List n.Path → List n.Path
  parseDesignDocument : String → Except String n.DesignAst
  lowerDesign : n.DesignAst → Except String n.Design
  parseAppManifest : String → Option n.App
  parseAppRegistry : String → Option n.Registry
  parseAppWorkspace : String → Option n.Workspace
  parseAppContracts : String → List n.Contract
  parseAppProfiles : String → List n.Profile
  captureDoctorAllows : String → Except String (List n.DoctorAllowDecl)
  declToIr : n.DoctorAllowDecl → n.DoctorAllow
  parseFeatureSkeletons : String → Except String (List n.Skeleton)
  lowerFeatureSkeleton : n.Skeleton → Except String n.Feature
  embedSqlQueryBodies : n.Feature → Option n.Path → n.Feature
  featureName : n.Feature → String
  resolveInvalidatesTargets : Module n → Except String (Module n)
  resolveRestrictOnDeleteScopesModule : Module n → Module n
  attachLzxSurfaces : n.Path → Module n → Module n
  resolveModulePlugins : Module n → n.Path → Except String (Module n)
  names_invalidates : ∀ m m', resolveInvalidatesTargets m = .ok m' →
    m'.features.map featureName = m.features.map featureName
  names_restrict : ∀ m, (resolveRestrictOnDeleteScopesModule m).features.map featureName =
    m.features.map featureName
  names_surfaces : ∀ path m, (attachLzxSurfaces path m).features.map featureName =
    m.features.map featureName
  names_plugins : ∀ m path m', resolveModulePlugins m path = .ok m' →
    m'.features.map featureName = m.features.map featureName

/-- Why loading stops: a read, too many files, the failures of the files, or a pass. -/
inductive LoadError (n : Nodes) where
  | reading (context : String) (error : n.Io)
  | tooManyFiles
  | failed (loadFailures : List String)
  | invalidates (error : String)
  | plugins (error : String)

variable (fe : Frontend n)

def Frontend.read (path : n.Path) : Except (LoadError n) String :=
  match fe.readToString path with
  | .ok source => .ok source
  | .error err => .error (.reading ("reading " ++ fe.display path) err)

/-- The files to load: the package's in order, or the one that is named. -/
def Frontend.files (input : n.Path) : Except (LoadError n) (List n.Path) :=
  if fe.isDir input then
    match fe.collectPackageLziFiles input with
    | .ok out => .ok (fe.sort out)
    | .error err => .error (.reading "" err)
  else .ok [input]

/-! ### Without a source map -/

structure ModuleLoad (n : Nodes) where
  module : Module n
  loadFailures : List String

/-- A failed design is skipped with a message. -/
def Frontend.loadDesign (module : Module n) (input : n.Path) :
    Except (LoadError n) (Module n) :=
  if fe.isDir input then
    let designPath := fe.resolveInAppDir input "design.lzi"
    if fe.isFile designPath then do
      let source ← fe.read designPath
      match fe.parseDesignDocument source with
      | .ok ast =>
          match fe.lowerDesign ast with
          | .ok design => .ok { module with design := some design }
          | .error _ => .ok module
      | .error _ => .ok module
    else .ok module
  else .ok module

def Frontend.lowerInto (path : n.Path) (load : ModuleLoad n) (ast : n.Skeleton) : ModuleLoad n :=
  match fe.lowerFeatureSkeleton ast with
  | .ok feature =>
      let feature := fe.embedSqlQueryBodies feature (fe.parent path)
      { load with module :=
          { load.module with features := load.module.features ++ [feature] } }
  | .error err =>
      { load with loadFailures :=
          load.loadFailures ++ [fe.display path ++ ": feature lower failed: " ++ err] }

/-- The body of the loop, once the file is read. The first app, registry and workspace are kept,
contracts and profiles are appended. -/
def Frontend.loadText (load : ModuleLoad n) (path : n.Path) (source : String) : ModuleLoad n :=
  let module := { load.module with
    app := load.module.app.or (fe.parseAppManifest source)
    registry := load.module.registry.or (fe.parseAppRegistry source)
    workspace := load.module.workspace.or (fe.parseAppWorkspace source)
    contracts := load.module.contracts ++ fe.parseAppContracts source
    profiles := load.module.profiles ++ fe.parseAppProfiles source }
  let load : ModuleLoad n := match fe.captureDoctorAllows source with
    | .ok decls =>
        { load with module :=
            { module with doctorAllows := module.doctorAllows ++ decls.map fe.declToIr } }
    | .error err =>
        { module, loadFailures := load.loadFailures ++
            [fe.display path ++ ": doctor-allow annotation parse failed: " ++ err] }
  match fe.parseFeatureSkeletons source with
  | .ok skeletons => skeletons.foldl (fe.lowerInto path) load
  | .error err =>
      { load with loadFailures :=
          load.loadFailures ++ [fe.display path ++ ": feature parse failed: " ++ err] }

def Frontend.loadFile (load : ModuleLoad n) (path : n.Path) :
    Except (LoadError n) (ModuleLoad n) := do
  let source ← fe.read path
  .ok (fe.loadText load path source)

/-- Stop on failures, otherwise run the passes over the whole module. -/
def Frontend.runPasses (input : n.Path) (load : ModuleLoad n) :
    Except (LoadError n) (Module n) :=
  if load.loadFailures ≠ [] then .error (.failed load.loadFailures)
  else match fe.resolveInvalidatesTargets load.module with
    | .error err => .error (.invalidates err)
    | .ok module =>
        let module := fe.resolveRestrictOnDeleteScopesModule module
        let module := if fe.isDir input then fe.attachLzxSurfaces input module else module
        match fe.resolveModulePlugins module input with
        | .error err => .error (.plugins err)
        | .ok module => .ok module

def Frontend.buildModuleFromPath (input : n.Path) : Except (LoadError n) (Module n) := do
  let module ← fe.loadDesign .empty input
  let files ← fe.files input
  let load ← files.foldlM fe.loadFile { module, loadFailures := [] }
  fe.runPasses input load

/-! ### With a source map -/

structure SourceLoad (n : Nodes) where
  module : Module n
  sourceMap : SourceMap
  featureFileIds : String → Option FileId
  loadFailures : List String

/-- A failed design is skipped in silence. -/
def Frontend.loadDesignWithSource (module : Module n) (input : n.Path) :
    Except (LoadError n) (Module n) :=
  if fe.isDir input then
    let designPath := fe.resolveInAppDir input "design.lzi"
    if fe.isFile designPath then do
      let source ← fe.read designPath
      match (fe.parseDesignDocument source).bind fe.lowerDesign with
      | .ok design => .ok { module with design := some design }
      | .error _ => .ok module
    else .ok module
  else .ok module

def Frontend.lowerIntoWithSource (path : n.Path) (fileId : FileId) (load : SourceLoad n)
    (ast : n.Skeleton) : SourceLoad n :=
  match fe.lowerFeatureSkeleton ast with
  | .ok feature =>
      let feature := fe.embedSqlQueryBodies feature (fe.parent path)
      { load with
        featureFileIds :=
          Function.update load.featureFileIds (fe.featureName feature) (some fileId)
        module := { load.module with features := load.module.features ++ [feature] } }
  | .error err =>
      { load with loadFailures :=
          load.loadFailures ++ [fe.display path ++ ": feature lower failed: " ++ err] }

/-- The body of the loop, once the file has an id and is read. -/
def Frontend.loadTextWithSource (sourceRoot : n.Path) (load : SourceLoad n) (path : n.Path)
    (fileId : FileId) (source : String) : SourceLoad n :=
  let load := { load with sourceMap :=
    ⟨load.sourceMap.files ++
      [buildSourceFile fileId (fe.relative sourceRoot path) source.toUTF8.toList]⟩ }
  let module := { load.module with
    app := load.module.app.or (fe.parseAppManifest source)
    registry := load.module.registry.or (fe.parseAppRegistry source)
    workspace := load.module.workspace.or (fe.parseAppWorkspace source)
    contracts := load.module.contracts ++ fe.parseAppContracts source
    profiles := load.module.profiles ++ fe.parseAppProfiles source }
  let load : SourceLoad n := match fe.captureDoctorAllows source with
    | .ok decls =>
        { load with module :=
            { module with doctorAllows := module.doctorAllows ++ decls.map fe.declToIr } }
    | .error err =>
        { load with module, loadFailures := load.loadFailures ++
            [fe.display path ++ ": doctor-allow annotation parse failed: " ++ err] }
  match fe.parseFeatureSkeletons source with
  | .ok skeletons => skeletons.foldl (fe.lowerIntoWithSource path fileId) load
  | .error err =>
      { load with loadFailures :=
          load.loadFailures ++ [fe.display path ++ ": feature parse failed: " ++ err] }

def Frontend.loadFileWithSource (sourceRoot : n.Path) (load : SourceLoad n)
    (entry : n.Path × Nat) : Except (LoadError n) (SourceLoad n) := do
  let (path, idx) := entry
  let fileId ← if idx + 1 < 2 ^ 16 then Except.ok (idx + 1) else .error .tooManyFiles
  let source ← fe.read path
  .ok (fe.loadTextWithSource sourceRoot load path fileId source)

def Frontend.sourceRoot (input : n.Path) : n.Path :=
  if fe.isDir input then input else (fe.parent input).getD fe.current

def Frontend.runPassesWithSource (input : n.Path) (load : SourceLoad n) :
    Except (LoadError n) (Module n × SourceMap × (String → Option FileId)) :=
  if load.loadFailures ≠ [] then .error (.failed load.loadFailures)
  else match fe.resolveInvalidatesTargets load.module with
    | .error err => .error (.invalidates err)
    | .ok module =>
        let module := fe.resolveRestrictOnDeleteScopesModule module
        let module := if fe.isDir input then fe.attachLzxSurfaces input module else module
        match fe.resolveModulePlugins module input with
        | .error err => .error (.plugins err)
        | .ok module => .ok (module, load.sourceMap, load.featureFileIds)

def Frontend.buildModuleWithSourceFromPath (input : n.Path) :
    Except (LoadError n) (Module n × SourceMap × (String → Option FileId)) := do
  let module ← fe.loadDesignWithSource .empty input
  let files ← fe.files input
  let load ← files.zipIdx.foldlM (fe.loadFileWithSource (fe.sourceRoot input))
    { module, sourceMap := ⟨[]⟩, featureFileIds := fun _ => none, loadFailures := [] }
  fe.runPassesWithSource input load

/-! ### The same module -/

section Agree

variable {fe : Frontend n}

/-- What the first loader keeps of the second one's accumulators. -/
def SourceLoad.view (load : SourceLoad n) : ModuleLoad n := ⟨load.module, load.loadFailures⟩

theorem loadDesignWithSource_eq (module : Module n) (input : n.Path) :
    fe.loadDesignWithSource module input = fe.loadDesign module input := by
  unfold Frontend.loadDesignWithSource Frontend.loadDesign
  split
  case isFalse => rfl
  case isTrue =>
    simp only
    split
    case isFalse => rfl
    case isTrue =>
      refine bind_congr fun source => ?_
      cases fe.parseDesignDocument source with
      | error err => rfl
      | ok ast =>
          cases lowered : fe.lowerDesign ast <;> simp [Except.bind, lowered]

theorem lowerIntoWithSource_view (path : n.Path) (fileId : FileId) (load : SourceLoad n)
    (ast : n.Skeleton) :
    (fe.lowerIntoWithSource path fileId load ast).view = fe.lowerInto path load.view ast := by
  unfold Frontend.lowerIntoWithSource Frontend.lowerInto
  cases fe.lowerFeatureSkeleton ast <;> rfl

theorem foldl_lowerIntoWithSource_view (path : n.Path) (fileId : FileId)
    (skeletons : List n.Skeleton) (load : SourceLoad n) :
    (skeletons.foldl (fe.lowerIntoWithSource path fileId) load).view =
      skeletons.foldl (fe.lowerInto path) load.view :=
  (List.foldl_hom SourceLoad.view fun load ast =>
    (lowerIntoWithSource_view path fileId load ast).symm).symm

theorem loadTextWithSource_view (sourceRoot : n.Path) (load : SourceLoad n) (path : n.Path)
    (fileId : FileId) (source : String) :
    (fe.loadTextWithSource sourceRoot load path fileId source).view =
      fe.loadText load.view path source := by
  unfold Frontend.loadTextWithSource Frontend.loadText
  cases fe.parseFeatureSkeletons source with
  | error err => cases fe.captureDoctorAllows source <;> rfl
  | ok skeletons =>
      cases fe.captureDoctorAllows source <;>
        exact foldl_lowerIntoWithSource_view path fileId skeletons _

/-- The bodies of the loops agree on a file that gets an id. -/
theorem loadFileWithSource_view (sourceRoot : n.Path) (load : SourceLoad n) (path : n.Path)
    {idx : Nat} (small : idx + 1 < 2 ^ 16) :
    (fe.loadFileWithSource sourceRoot load (path, idx)).map SourceLoad.view =
      fe.loadFile load.view path := by
  unfold Frontend.loadFileWithSource Frontend.loadFile
  simp only [if_pos small]
  cases fe.read path with
  | error err => rfl
  | ok source =>
      exact congrArg Except.ok (loadTextWithSource_view sourceRoot load path (idx + 1) source)

variable (fe) in
/-- The two walks over the files, of which there are not too many. -/
theorem walk_view (sourceRoot : n.Path) (load : SourceLoad n) {files : List n.Path}
    (few : files.length ≤ 65535) :
    (files.zipIdx.foldlM (fe.loadFileWithSource sourceRoot) load).map SourceLoad.view =
      files.foldlM fe.loadFile load.view := by
  have step (s : SourceLoad n) (entry : n.Path × Nat) (mem : entry ∈ files.zipIdx) :
      (fe.loadFileWithSource sourceRoot s entry).map SourceLoad.view =
        fe.loadFile s.view entry.1 := by
    have := (List.mem_zipIdx' mem).1
    exact loadFileWithSource_view sourceRoot s entry.1 (by omega)
  rw [foldlM_view SourceLoad.view Prod.fst step, List.zipIdx_map_fst]

theorem runPassesWithSource_map (input : n.Path) (load : SourceLoad n) :
    (fe.runPassesWithSource input load).map Prod.fst = fe.runPasses input load.view := by
  unfold Frontend.runPassesWithSource Frontend.runPasses
  by_cases failed : load.loadFailures ≠ []
  · rw [if_pos failed, if_pos (show load.view.loadFailures ≠ [] from failed)]
    rfl
  · rw [if_neg failed, if_neg (show ¬ load.view.loadFailures ≠ [] from failed), SourceLoad.view]
    simp only
    cases fe.resolveInvalidatesTargets load.module with
    | error err => rfl
    | ok module =>
        simp only
        split <;> rfl

theorem buildModuleWithSource_map (input : n.Path)
    (few : ∀ files, fe.files input = .ok files → files.length ≤ 65535) :
    (fe.buildModuleWithSourceFromPath input).map Prod.fst = fe.buildModuleFromPath input := by
  unfold Frontend.buildModuleWithSourceFromPath Frontend.buildModuleFromPath
  rw [loadDesignWithSource_eq]
  cases fe.loadDesign .empty input with
  | error err => rfl
  | ok module =>
      cases listed : fe.files input with
      | error err => rfl
      | ok files =>
          have walk := walk_view fe (fe.sourceRoot input)
            { module, sourceMap := ⟨[]⟩, featureFileIds := fun _ => none, loadFailures := [] }
            (few files listed)
          show (files.zipIdx.foldlM (fe.loadFileWithSource (fe.sourceRoot input))
              { module, sourceMap := ⟨[]⟩, featureFileIds := fun _ => none, loadFailures := [] } >>=
                fe.runPassesWithSource input).map Prod.fst =
            files.foldlM fe.loadFile { module, loadFailures := [] } >>= fe.runPasses input
          rw [show ({ module, loadFailures := [] } : ModuleLoad n) = SourceLoad.view
            { module, sourceMap := ⟨[]⟩, featureFileIds := fun _ => none, loadFailures := [] }
            from rfl, ← walk]
          cases files.zipIdx.foldlM (fe.loadFileWithSource (fe.sourceRoot input))
              { module, sourceMap := ⟨[]⟩, featureFileIds := fun _ => none, loadFailures := [] } with
          | error err => rfl
          | ok load => exact runPassesWithSource_map input load

end Agree

/-! ### The files and their features -/

/-- What is read in a file. -/
def Frontend.sourceOf (path : n.Path) : String := (fe.readToString path).toOption.getD ""

/-- The features that are lowered from a text. -/
def Frontend.lowered (path : n.Path) (source : String) : List n.Feature :=
  match fe.parseFeatureSkeletons source with
  | .ok skeletons => skeletons.filterMap fun ast =>
      (fe.lowerFeatureSkeleton ast).toOption.map (fe.embedSqlQueryBodies · (fe.parent path))
  | .error _ => []

def Frontend.featuresOf (path : n.Path) : List n.Feature := fe.lowered path (fe.sourceOf path)

/-- The entry of the source map for the file at a position. -/
def Frontend.entry (sourceRoot : n.Path) (idx : Nat) (path : n.Path) : SourceFile :=
  buildSourceFile (idx + 1) (fe.relative sourceRoot path) (fe.sourceOf path).toUTF8.toList

/-- What the accumulators hold after some files. -/
structure Walked (sourceRoot : n.Path) (done : List (n.Path × Nat)) (load : SourceLoad n) :
    Prop where
  features : load.module.features = done.flatMap fun entry => fe.featuresOf entry.1
  files : load.sourceMap.files = done.map fun entry => fe.entry sourceRoot entry.2 entry.1
  ids : load.featureFileIds = insertAll (fun owned => fe.featureName owned.1) Prod.snd
    (fun _ => none) (done.flatMap fun entry => (fe.featuresOf entry.1).map (·, entry.2 + 1))

section Walk

variable {fe}

variable (fe) in
theorem foldl_lowerIntoWithSource (path : n.Path) (fileId : FileId) (skeletons : List n.Skeleton)
    (load : SourceLoad n) :
    let lowered := skeletons.filterMap fun ast =>
      (fe.lowerFeatureSkeleton ast).toOption.map (fe.embedSqlQueryBodies · (fe.parent path))
    let after := skeletons.foldl (fe.lowerIntoWithSource path fileId) load
    after.module.features = load.module.features ++ lowered ∧ after.sourceMap = load.sourceMap ∧
      after.featureFileIds = insertAll (fun owned => fe.featureName owned.1) Prod.snd
        load.featureFileIds (lowered.map (·, fileId)) := by
  induction skeletons generalizing load with
  | nil => exact ⟨(List.append_nil _).symm, rfl, rfl⟩
  | cons ast skeletons ih =>
      obtain ⟨features, map, ids⟩ := ih (fe.lowerIntoWithSource path fileId load ast)
      cases lowered : fe.lowerFeatureSkeleton ast with
      | error err =>
          rw [List.foldl_cons, List.filterMap_cons_none (by rw [lowered]; rfl)]
          simp only [Frontend.lowerIntoWithSource, lowered] at features map ids ⊢
          exact ⟨features, map, ids⟩
      | ok feature =>
          rw [List.foldl_cons, List.filterMap_cons_some (by rw [lowered]; rfl)]
          simp only [Frontend.lowerIntoWithSource, lowered] at features map ids ⊢
          refine ⟨?_, map, ids⟩
          rw [features, List.append_assoc, List.singleton_append]

variable (fe) in
/-- The manifests and the waivers of a file touch neither the features nor the map. -/
theorem loadTextWithSource_eq (sourceRoot : n.Path) (load : SourceLoad n) (path : n.Path)
    (fileId : FileId) (source : String) :
    ∃ base : SourceLoad n, base.module.features = load.module.features ∧
      base.sourceMap.files = load.sourceMap.files ++
        [buildSourceFile fileId (fe.relative sourceRoot path) source.toUTF8.toList] ∧
      base.featureFileIds = load.featureFileIds ∧
      fe.loadTextWithSource sourceRoot load path fileId source =
        match fe.parseFeatureSkeletons source with
        | .ok skeletons => skeletons.foldl (fe.lowerIntoWithSource path fileId) base
        | .error err =>
            { base with loadFailures :=
                base.loadFailures ++ [fe.display path ++ ": feature parse failed: " ++ err] } := by
  unfold Frontend.loadTextWithSource
  refine ⟨_, ?_, ?_, ?_, rfl⟩
  · cases fe.captureDoctorAllows source <;> rfl
  · cases fe.captureDoctorAllows source <;> rfl
  · cases fe.captureDoctorAllows source <;> rfl

variable (fe) in
theorem loadTextWithSource_spec (sourceRoot : n.Path) (load : SourceLoad n) (path : n.Path)
    (fileId : FileId) (source : String) :
    let after := fe.loadTextWithSource sourceRoot load path fileId source
    after.module.features = load.module.features ++ fe.lowered path source ∧
      after.sourceMap.files = load.sourceMap.files ++
        [buildSourceFile fileId (fe.relative sourceRoot path) source.toUTF8.toList] ∧
      after.featureFileIds = insertAll (fun owned => fe.featureName owned.1) Prod.snd
        load.featureFileIds ((fe.lowered path source).map (·, fileId)) := by
  obtain ⟨base, features, files, ids, eq⟩ :=
    loadTextWithSource_eq fe sourceRoot load path fileId source
  rw [eq, Frontend.lowered]
  cases fe.parseFeatureSkeletons source with
  | error err => exact ⟨by rw [List.append_nil]; exact features, files, ids⟩
  | ok skeletons =>
      obtain ⟨features', map', ids'⟩ := foldl_lowerIntoWithSource fe path fileId skeletons base
      exact ⟨features'.trans (by rw [features]), (congrArg SourceMap.files map').trans files,
        ids'.trans (by rw [ids])⟩

theorem walked_step (sourceRoot : n.Path) (done : List (n.Path × Nat)) (entry : n.Path × Nat)
    (load load' : SourceLoad n) (walked : Walked fe sourceRoot done load)
    (step : fe.loadFileWithSource sourceRoot load entry = .ok load') :
    Walked fe sourceRoot (done ++ [entry]) load' := by
  obtain ⟨path, idx⟩ := entry
  unfold Frontend.loadFileWithSource at step
  simp only at step
  split at step
  case isFalse => cases step
  case isTrue =>
    cases read : fe.readToString path with
    | error err =>
        simp only [Frontend.read, read] at step
        cases step
    | ok source =>
        simp only [Frontend.read, read] at step
        obtain rfl := Except.ok.inj step
        have here : fe.sourceOf path = source := by rw [Frontend.sourceOf, read]; rfl
        obtain ⟨features, files, ids⟩ :=
          loadTextWithSource_spec fe sourceRoot load path (idx + 1) source
        constructor
        · rw [features, walked.features, List.flatMap_append, List.flatMap_singleton,
            Frontend.featuresOf, here]
        · rw [files, walked.files, List.map_append, List.map_singleton, Frontend.entry, here]
        · rw [ids, walked.ids, List.flatMap_append, List.flatMap_singleton, Frontend.featuresOf,
            here, insertAll, insertAll, insertAll, List.foldl_append]

end Walk

/-- What goes with the module: an entry for each file under an id of its own, and the features of
each file under the file's id. -/
structure Sourced (input : n.Path) (files : List n.Path) (module : Module n) (map : SourceMap)
    (featureFileIds : String → Option FileId) : Prop where
  entries : map.files = files.zipIdx.map fun entry =>
    fe.entry (fe.sourceRoot input) entry.2 entry.1
  distinct : (map.files.map SourceFile.id).Nodup
  names : module.features.map fe.featureName = (files.flatMap fe.featuresOf).map fe.featureName
  owned : (module.features.map fe.featureName).Nodup → ∀ name id,
    featureFileIds name = some id ↔ ∃ i path, files[i]? = some path ∧ id = i + 1 ∧
      ∃ feature ∈ fe.featuresOf path, fe.featureName feature = name

section Sourced

variable {fe} {input : n.Path} {files : List n.Path} {module : Module n} {map : SourceMap}
  {ids : String → Option FileId}

theorem runPassesWithSource_ok {load : SourceLoad n}
    (h : fe.runPassesWithSource input load = .ok (module, map, ids)) :
    module.features.map fe.featureName = load.module.features.map fe.featureName ∧
      map = load.sourceMap ∧ ids = load.featureFileIds := by
  unfold Frontend.runPassesWithSource at h
  split at h
  case isTrue => cases h
  case isFalse =>
    cases invalidates : fe.resolveInvalidatesTargets load.module with
    | error err =>
        rw [invalidates] at h
        cases h
    | ok module₁ =>
        rw [invalidates] at h
        simp only at h
        split at h
        case h_1 => cases h
        case h_2 module₂ plugins =>
          cases h
          refine ⟨?_, rfl, rfl⟩
          rw [fe.names_plugins _ _ _ plugins, ← fe.names_invalidates _ _ invalidates,
            ← fe.names_restrict module₁]
          split
          · exact fe.names_surfaces _ _
          · rfl

/-- The pairs of a feature and its file's id that are inserted. -/
theorem mem_owned_iff {owned : n.Feature × FileId} :
    owned ∈ (files.zipIdx.flatMap fun entry =>
        (fe.featuresOf entry.1).map (·, entry.2 + 1)) ↔
      ∃ i path, files[i]? = some path ∧ owned.2 = i + 1 ∧ owned.1 ∈ fe.featuresOf path := by
  rw [List.mem_flatMap]
  constructor
  · rintro ⟨⟨path, i⟩, mem, owns⟩
    obtain ⟨feature, hfeature, rfl⟩ := List.mem_map.mp owns
    exact ⟨i, path, List.mem_zipIdx_iff_getElem?.mp mem, rfl, hfeature⟩
  · rintro ⟨i, path, here, same, hfeature⟩
    refine ⟨(path, i), List.mem_zipIdx_iff_getElem?.mpr here, List.mem_map.mpr ⟨owned.1, hfeature, ?_⟩⟩
    rw [← same]

theorem sourced_of_walked {load : SourceLoad n} (walked : Walked fe (fe.sourceRoot input)
    files.zipIdx load) (passes : fe.runPassesWithSource input load = .ok (module, map, ids)) :
    Sourced fe input files module map ids := by
  obtain ⟨names, rfl, rfl⟩ := runPassesWithSource_ok passes
  have features : load.module.features = files.flatMap fe.featuresOf := by
    rw [walked.features, ← List.flatMap_map, List.zipIdx_map_fst]
  refine ⟨walked.files, ?_, by rw [names, features], fun nodup name id => ?_⟩
  · have idsEq : load.sourceMap.files.map SourceFile.id =
        (files.zipIdx.map Prod.snd).map (· + 1) := by
      rw [walked.files, List.map_map, List.map_map]
      rfl
    rw [idsEq, List.zipIdx_map_snd]
    exact List.Nodup.map (fun _ _ same => Nat.add_right_cancel same) List.nodup_range'
  · rw [walked.ids, insertAll_apply, Option.or_none, Option.map_eq_some_iff]
    -- the names of the pairs are those of the module, so no two pairs share one
    have distinct : ((files.zipIdx.flatMap fun entry =>
        (fe.featuresOf entry.1).map (·, entry.2 + 1)).map
          fun owned => fe.featureName owned.1).Nodup := by
      rw [names, features] at nodup
      convert nodup using 1
      rw [← List.zipIdx_map_fst 0 files, List.flatMap_map, List.zipIdx_map_fst, List.map_flatMap,
        List.map_flatMap]
      simp only [List.map_map]
      rfl
    constructor
    · rintro ⟨owned, found, rfl⟩
      obtain ⟨mem, same⟩ := lastWhere_some found
      obtain ⟨i, path, here, id, hfeature⟩ := mem_owned_iff.mp mem
      exact ⟨i, path, here, id, owned.1, hfeature, by simpa using same⟩
    · rintro ⟨i, path, here, rfl, feature, hfeature, rfl⟩
      refine ⟨(feature, i + 1), lastWhere_of_unique
        (mem_owned_iff.mpr ⟨i, path, here, rfl, hfeature⟩) (by simp) ?_, rfl⟩
      intro other mem same
      exact List.inj_on_of_nodup_map distinct mem
        (mem_owned_iff.mpr ⟨i, path, here, rfl, hfeature⟩) (by simpa using same)

theorem features_of_design {module module' : Module n}
    (h : fe.loadDesignWithSource module input = .ok module') :
    module'.features = module.features := by
  unfold Frontend.loadDesignWithSource at h
  split at h
  case isFalse =>
    cases h
    rfl
  case isTrue =>
    simp only at h
    split at h
    case isFalse =>
      cases h
      rfl
    case isTrue =>
      cases read : fe.read (fe.resolveInAppDir input "design.lzi") with
      | error err =>
          rw [read] at h
          cases h
      | ok source =>
          simp only [read, bind, Except.bind] at h
          split at h <;>
            cases h <;> rfl

end Sourced

/-- **The loaders agree**, for at most 65535 files, and the second one's tables name the files. -/
theorem loaders_agree (fe : Frontend n) (input : n.Path)
    (few : ∀ files, fe.files input = .ok files → files.length ≤ 65535) :
    (fe.buildModuleWithSourceFromPath input).map Prod.fst = fe.buildModuleFromPath input ∧
      ∀ module map ids, fe.buildModuleWithSourceFromPath input = .ok (module, map, ids) →
        ∃ files, fe.files input = .ok files ∧ Sourced fe input files module map ids := by
  refine ⟨buildModuleWithSource_map input few, fun module map ids built => ?_⟩
  unfold Frontend.buildModuleWithSourceFromPath at built
  cases design : fe.loadDesignWithSource .empty input with
  | error err =>
      rw [design] at built
      cases built
  | ok module₀ =>
      rw [design] at built
      cases listed : fe.files input with
      | error err =>
          rw [listed] at built
          cases built
      | ok files =>
          rw [listed] at built
          cases walk : files.zipIdx.foldlM (fe.loadFileWithSource (fe.sourceRoot input))
              { module := module₀, sourceMap := ⟨[]⟩, featureFileIds := fun _ => none
                loadFailures := [] } with
          | error err =>
              simp only [bind, Except.bind, walk] at built
              cases built
          | ok load =>
              simp only [bind, Except.bind, walk] at built
              have walked : Walked fe (fe.sourceRoot input) files.zipIdx load :=
                foldlM_inv (Walked fe (fe.sourceRoot input)) (walked_step (fe.sourceRoot input))
                  ⟨features_of_design design, rfl, rfl⟩ walk
              exact ⟨files, rfl, sourced_of_walked walked built⟩

/-! ### A file on its own -/

def plainNodes : Nodes where
  Path := String
  Io := Unit
  Workspace := Unit
  Contract := Unit
  App := Unit
  Registry := Unit
  Profile := Unit
  DesignAst := Unit
  Design := Unit
  Rbac := Unit
  DoctorAllowDecl := Unit
  DoctorAllow := Unit
  Skeleton := String
  Feature := String

/-- Every text is one feature, named as the text. -/
def plain : Frontend plainNodes where
  isDir _ := false
  isFile _ := true
  parent _ := none
  current := "."
  display path := path
  relative _ path := path
  resolveInAppDir path _ := path
  readToString _ := .ok "shop"
  collectPackageLziFiles path := .ok [path]
  sort files := files
  parseDesignDocument _ := .ok ()
  lowerDesign _ := .ok ()
  parseAppManifest _ := none
  parseAppRegistry _ := none
  parseAppWorkspace _ := none
  parseAppContracts _ := []
  parseAppProfiles _ := []
  captureDoctorAllows _ := .ok []
  declToIr _ := ()
  parseFeatureSkeletons source := .ok [source]
  lowerFeatureSkeleton ast := .ok ast
  embedSqlQueryBodies feature _ := feature
  featureName feature := feature
  resolveInvalidatesTargets module := .ok module
  resolveRestrictOnDeleteScopesModule module := module
  attachLzxSurfaces _ module := module
  resolveModulePlugins module _ := .ok module
  names_invalidates _ _ h := Except.ok.inj h ▸ rfl
  names_restrict _ := rfl
  names_surfaces _ _ := rfl
  names_plugins _ _ _ h := Except.ok.inj h ▸ rfl

theorem loaders_agree_plain :
    (plain.buildModuleWithSourceFromPath "shop.lzi").map Prod.fst =
        plain.buildModuleFromPath "shop.lzi" ∧
      ∀ module map ids, plain.buildModuleWithSourceFromPath "shop.lzi" = .ok (module, map, ids) →
        ∃ files, plain.files "shop.lzi" = .ok files ∧
          Sourced plain "shop.lzi" files module map ids :=
  loaders_agree plain "shop.lzi" fun files listed => by
    cases listed
    decide

end Lazuli.Cli.ModuleLoader
