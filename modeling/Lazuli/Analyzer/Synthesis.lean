import Mathlib
import Lazuli.Analyzer.RestrictScopes
import Lazuli.General.Infix

/-!
The passes that add declarations to a feature (`feature.rs`, `lifecycle/mod.rs`, `auto_photo.rs`,
`conventions/mod.rs`).

Junctions, the commands of lifecycles, the commands and records of photos and the bundles of
conventions come one after the other. A lifecycle pushes its commands whatever is there. The last
two passes leave a name alone that was there when the pass began, but do not look at the names
that they form themselves.
-/

namespace Lazuli.Analyzer.Synthesis

open General Ir

/-! ### What is declared -/

structure TransitionDecl extends LifecycleTransition where
  timestamps : Option String

structure LifecycleBlock where
  discriminatorField : String
  transitions : List TransitionDecl

/-- A resource as it is lowered by itself, and its lifecycle block. -/
structure ResourceDecl where
  lowered : Resource
  lifecycle : Option LifecycleBlock := none

/-- A feature with the names of its policy categories and, by resource and field, the
`auto_photo_policy` of its files. -/
structure Skeleton where
  resources : List ResourceDecl := []
  commands : List CommandDecl := []
  queries : List Ir.Query := []
  records : List Ir.Record := []
  categories : List String := []
  autoPhotoPolicy : String → String → Option String := fun _ _ => none

/-! ### What is there in the end -/

inductive AutoPhotoCommandRole where
  | request
  | confirm
  | clear
  | getUrl
  deriving DecidableEq

/-- What a command is made from beside its name. -/
inductive CommandBody where
  | authored (decl : CommandDecl)
  | transition (resource : String) (transition : TransitionDecl)
  | autoPhoto (resource field : String) (role : AutoPhotoCommandRole) (policy : String)
  | create (resource : String)
  | update (resource : String)
  | delete (resource : String)

structure Command where
  name : String
  body : CommandBody

inductive QueryBody where
  | authored (decl : Ir.Query)
  | lookup (resource : String)
  | list (resource : String)
  | lookupMy (resource : String) (mode : MeMode)

structure Query where
  name : String
  body : QueryBody

inductive RecordBody where
  | authored (decl : Ir.Record)
  | uploadIntent
  | displayUrl

structure Record where
  name : String
  body : RecordBody

inductive ConventionOrigin where
  | synthesized (convention : ConventionRef)
  | authorOverride (convention : ConventionRef)
  deriving DecidableEq

def ConventionOrigin.convention : ConventionOrigin → ConventionRef
  | .synthesized convention | .authorOverride convention => convention

/-- The origins in the order in which they are put into their map. -/
structure Feature where
  resources : List Resource
  commands : List Command
  queries : List Query
  records : List Record
  synthOrigins : List (String × ConventionOrigin)

/-- What the map holds in the end. -/
def Feature.originOf (f : Feature) (name : String) : Option ConventionOrigin :=
  (lastWhere (fun e => e.1 = name) f.synthOrigins).map Prod.snd

/-- The bundle that has added a command. -/
def CommandBody.bundle : CommandBody → Option ConventionRef
  | .create _ | .update _ | .delete _ => some .crud
  | _ => none

def QueryBody.bundle : QueryBody → Option ConventionRef
  | .lookup _ | .list _ => some .crud
  | .lookupMy .. => some .me
  | .authored _ => none

/-! ### Junctions -/

def Skeleton.authored (s : Skeleton) : List Resource := s.resources.map (·.lowered)

def lowerFeatureSkeleton (s : Skeleton) : Feature where
  resources := withJunctions s.authored
  commands := s.commands.map fun c => ⟨c.name, .authored c⟩
  queries := s.queries.map fun q => ⟨q.name, .authored q⟩
  records := s.records.map fun r => ⟨r.name, .authored r⟩
  synthOrigins := []

/-! ### Lifecycles -/

def pascalFrom (uppercaseNext : Bool) : List Char → List Char
  | [] => []
  | ch :: rest =>
      if ch = '_' ∨ ch = '-' ∨ ch = ' ' then pascalFrom true rest
      else (if uppercaseNext then ch.toUpper else ch) :: pascalFrom false rest

def pascalCase (value : String) : String := String.ofList (pascalFrom true value.toList)

/-- A field that the resource has already is left as it is. -/
def emitField (fields : List Field) (field : Field) : List Field :=
  if fields.any (·.name = field.name) then fields else fields ++ [field]

def discriminator (resource : String) (block : LifecycleBlock) : Field where
  name := block.discriminatorField
  typeRef := .enumRef ⟨none, pascalCase resource ++ pascalCase block.discriminatorField⟩
  required := true

def timestampFields (block : LifecycleBlock) : List Field :=
  block.transitions.filterMap fun t => t.timestamps.map fun name =>
    { name := name, typeRef := .builtin .dateTime, required := false }

def lowerLifecycle (block : LifecycleBlock) : Lifecycle where
  discriminatorField := block.discriminatorField
  transitions := block.transitions.map (·.toLifecycleTransition)

def withLifecycle (block : LifecycleBlock) (r : Resource) : Resource :=
  { r with
    fields := (discriminator r.name block :: timestampFields block).foldl emitField r.fields
    lifecycle := some (lowerLifecycle block) }

/-- The first resource of the name is given the lifecycle; it may have none yet. -/
def attach (name : String) (block : LifecycleBlock) : List Resource → Option (List Resource)
  | [] => none
  | r :: rest =>
      if r.name = name then
        if r.lifecycle.isSome then none else some (withLifecycle block r :: rest)
      else (attach name block rest).map (r :: ·)

def emitLifecycleCommands (resource : String) (block : LifecycleBlock) : List Command :=
  block.transitions.map fun t => ⟨t.name, .transition resource t⟩

def lowerBlock (f : Feature) (decl : ResourceDecl) : Feature :=
  match decl.lifecycle with
  | none => f
  | some block =>
      match attach decl.lowered.name block f.resources with
      | none => f
      | some resources =>
          { f with
            resources := resources
            commands := f.commands ++ emitLifecycleCommands decl.lowered.name block }

def lowerLifecycles (f : Feature) (decls : List ResourceDecl) : Feature :=
  decls.foldl lowerBlock f

/-! ### What is not there yet -/

/-- What bears none of the names that were there before. -/
def addUnwritten {α : Type} (name : α → String) (existing added : List α) : List α :=
  existing ++ added.filter fun a => name a ∉ existing.map name

/-! ### Photos -/

def AutoPhotoCommandRole.affix : AutoPhotoCommandRole → Affix
  | .request => { lead := "request_", tail := "_upload" }
  | .confirm => { lead := "confirm_", tail := "_upload" }
  | .clear => { lead := "clear_" }
  | .getUrl => { lead := "get_", tail := "_url" }

def autoPhotoCommandName (field : String) (role : AutoPhotoCommandRole) : String :=
  role.affix.name field

def snakeToPascalFrom (capitalizeNext : Bool) : List Char → List Char
  | [] => []
  | ch :: rest =>
      if ch = '_' then snakeToPascalFrom true rest
      else (if capitalizeNext then ch.toUpper else ch) :: snakeToPascalFrom false rest

def snakeToPascal (s : String) : String := String.ofList (snakeToPascalFrom true s.toList)

def uploadIntent : Affix := { lead := "", tail := "UploadIntent" }

def displayUrl : Affix := { lead := "", tail := "DisplayUrl" }

/-- `to_ascii_lowercase`. -/
def toAsciiLowercase (s : String) : String := String.ofList (s.toList.map Char.toLower)

def policyNameFor (s : Skeleton) (resource : String) : Option String :=
  [pascalToSnake resource ++ "_only", toAsciiLowercase resource ++ "_only", "authenticated"].find?
    (· ∈ s.categories)

def hasUserUnique (r : Resource) : Bool :=
  r.fields.any fun f => f.name = "user" && f.required && f.unique && isNamedType "User" f.typeRef

/-- A file field with what its commands are made from. -/
structure PhotoSite where
  resource : String
  field : String
  policy : String
  deriving DecidableEq

/-- A field without a policy is passed over. -/
def photoSite (s : Skeleton) (r : Resource) (field : Field) : Option PhotoSite :=
  if field.required = false ∧ field.typeRef = .capability .file then
    let explicit := (s.autoPhotoPolicy r.name field.name).map fun raw =>
      ((raw.toList.dropPrefix? "@policy.".toList).map String.ofList).getD raw
    (explicit.or (policyNameFor s r.name)).map (PhotoSite.mk r.name field.name)
  else none

def photoSites (s : Skeleton) (resources : List Resource) : List PhotoSite :=
  resources.flatMap fun r => if hasUserUnique r then r.fields.filterMap (photoSite s r) else []

def photoRecords (site : PhotoSite) : List Record :=
  [⟨uploadIntent.name (snakeToPascal site.field), .uploadIntent⟩,
    ⟨displayUrl.name (snakeToPascal site.field), .displayUrl⟩]

def photoCommands (site : PhotoSite) : List Command :=
  [.request, .confirm, .clear, .getUrl].map fun role =>
    ⟨autoPhotoCommandName site.field role, .autoPhoto site.resource site.field role site.policy⟩

def synthesizeAutoPhoto (s : Skeleton) (f : Feature) : Feature :=
  { f with
    commands := addUnwritten Command.name f.commands
      ((photoSites s f.resources).flatMap photoCommands)
    records := addUnwritten Record.name f.records
      ((photoSites s f.resources).flatMap photoRecords) }

/-! ### Conventions -/

def createName (r : Resource) : String := "create_" ++ pascalToSnake r.name

def updateName (r : Resource) : String := "update_" ++ pascalToSnake r.name

def deleteName (r : Resource) : String := "delete_" ++ pascalToSnake r.name

def crudCommands (r : Resource) : List Command :=
  if .crud ∈ r.conventions then
    [⟨createName r, .create r.name⟩, ⟨updateName r, .update r.name⟩,
      ⟨deleteName r, .delete r.name⟩]
  else []

def crudQueries (r : Resource) : List Query :=
  if .crud ∈ r.conventions then
    [⟨lookupName r, .lookup r.name⟩, ⟨listName r, .list r.name⟩]
  else []

def meQueries (r : Resource) : List Query :=
  if .me ∈ r.conventions then
    match classifyMeMode r with
    | some mode => [⟨lookupMyName r, .lookupMy r.name mode⟩]
    | none => []
  else []

def bundleQueries (r : Resource) : List Query := crudQueries r ++ meQueries r

/-- What is recorded of a name of a bundle. -/
def mark (existing : List String) (bundle : ConventionRef) (name : String) :
    String × ConventionOrigin :=
  (name, if name ∈ existing then .authorOverride bundle else .synthesized bundle)

def originsOf (f : Feature) (r : Resource) : List (String × ConventionOrigin) :=
  let commands := f.commands.map Command.name
  let queries := f.queries.map Query.name
  (crudCommands r).map (fun c => mark commands .crud c.name) ++
    (crudQueries r).map (fun q => mark queries .crud q.name) ++
    (meQueries r).map (fun q => mark queries .me q.name)

def synthesizeConventions (f : Feature) : Feature :=
  { f with
    commands := addUnwritten Command.name f.commands (f.resources.flatMap crudCommands)
    queries := addUnwritten Query.name f.queries (f.resources.flatMap bundleQueries)
    synthOrigins := f.synthOrigins ++ f.resources.flatMap (originsOf f) }

/-! ### The passes in their order -/

/-- Behind the first two passes. -/
def lifecyclesLowered (s : Skeleton) : Feature :=
  lowerLifecycles (lowerFeatureSkeleton s) s.resources

def photosAdded (s : Skeleton) : Feature := synthesizeAutoPhoto s (lifecyclesLowered s)

def synthesize (s : Skeleton) : Feature := synthesizeConventions (photosAdded s)

end Lazuli.Analyzer.Synthesis
