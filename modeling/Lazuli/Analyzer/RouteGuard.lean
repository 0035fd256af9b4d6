import Lazuli.Codegen.Schema
import Lazuli.General.Text
import Lazuli.General.Kahn

/-!
Route guards against backend policies (`crates/lazuli_analyzer/src/checks/route_guard_helpers`).

For every route whose target is a view of a surface, the check resolves the guard of the route
(its own, the platform view's, the view's, the audience's, the app's default, or the built-in
public one), collects the policies of the query and the commands that the view calls, and
compares the two lists of atoms. Of the diagnostics this keeps `ROUTE-GUARD-001` and
`ROUTE-GUARD-002`; the others say nothing about policies.
-/

namespace Lazuli.Analyzer.RouteGuard

open Lazuli.General Lazuli.Ir

/-! ### The declarations -/

/-- Any of the policies admits. -/
structure ViewGuard where
  policy : List String
  deriving DecidableEq

structure AppManifest where
  /-- `route_guard.default_policy`. -/
  defaultPolicy : Option String
  deriving DecidableEq

/-- `target` is the route's `to`. -/
structure AppRoute where
  name : String
  target : Option String
  surface : Option String
  audience : Option String
  guard : Option ViewGuard
  deriving DecidableEq

/-- `actions` are the targets of the view's actions. -/
structure ExperienceView where
  name : String
  source : Option String
  submit : Option String
  actions : List String
  guard : Option ViewGuard
  deriving DecidableEq

structure Experience where
  name : String
  views : List ExperienceView
  deriving DecidableEq

structure PlatformView where
  name : String
  submit : Option String
  actions : List String
  guard : Option ViewGuard
  deriving DecidableEq

structure Audience where
  name : String
  guard : Option ViewGuard
  views : List PlatformView
  deriving DecidableEq

structure PlatformSurface where
  experience : String
  usesExperience : Option String
  audiences : List Audience
  deriving DecidableEq

structure ExperienceModule where
  app : Option AppManifest
  routes : List AppRoute
  experiences : List Experience
  surfaces : List PlatformSurface
  deriving DecidableEq

structure Category where
  name : String
  atoms : List String
  deriving DecidableEq

/-- A command or a query with its policy. -/
structure Operation where
  name : String
  policy : PolicyRef
  deriving DecidableEq

structure Feature where
  name : String
  /-- `defaults.policy`. -/
  defaultPolicy : Option PolicyRef
  categories : List Category
  commands : List Operation
  queries : List Operation
  deriving DecidableEq

/-! ### Atoms -/

def trimText (s : String) : String := String.ofList (Text.trim s.toList)

/-- `trim_start_matches('@')`. -/
def bare (s : String) : String := String.ofList (s.toList.dropWhile (· = '@'))

/-- `split_once`. -/
def splitOnce (c : Char) (s : String) : Option (String × String) :=
  if c ∈ s.toList then
    some (String.ofList (s.toList.takeWhile (· ≠ c)),
      String.ofList ((s.toList.dropWhile (· ≠ c)).drop 1))
  else none

def stripPrefix (lead s : String) : Option String :=
  (s.toList.dropPrefix? lead.toList).map String.ofList

def splitText (c : Char) (s : String) : List String := (s.toList.splitOn c).map String.ofList

/-- What stands before the first such character. -/
def headText (c : Char) (s : String) : String := String.ofList (s.toList.takeWhile (· ≠ c))

def parseAtom (text : String) : Option PolicyAtom :=
  match splitOnce '.' (bare (trimText text)) with
  | none => none
  | some (ns, name) => if ns ≠ "policy" ∧ ns ≠ "" ∧ name ≠ "" then some ⟨ns, name⟩ else none

/-- By namespace, then by name. -/
def atomLe (a b : PolicyAtom) : Bool := a.ns < b.ns || (a.ns = b.ns && a.name ≤ b.name)

/-- `dedup`, which drops an element equal to the one before it. -/
def dedup : List PolicyAtom → List PolicyAtom
  | a :: b :: rest => if a = b then dedup (b :: rest) else a :: dedup (b :: rest)
  | atoms => atoms

def sortAtoms (atoms : List PolicyAtom) : List PolicyAtom :=
  dedup (atoms.insertionSort fun a b => atomLe a b = true)

variable (features : List Feature)

def categoryAtoms (feature name : String) : List PolicyAtom :=
  match features.find? (·.name = feature) with
  | none => []
  | some f =>
      match f.categories.find? (·.name = name) with
      | none => []
      | some c => sortAtoms (c.atoms.filterMap parseAtom)

/-- `policy.<feature>.<name>` when the feature exists, else `policy.<name>` of the feature at
hand, else an atom. -/
def policyTextAtoms (text defaultFeature : String) : List PolicyAtom :=
  let raw := bare (trimText text)
  match stripPrefix "policy." raw with
  | none => (parseAtom raw).toList
  | some tail =>
      match splitOnce '.' tail with
      | none => categoryAtoms features defaultFeature tail
      | some (first, second) =>
          if features.any (·.name = first) then categoryAtoms features first second
          else categoryAtoms features defaultFeature tail

def policyRefAtoms (policy : Option PolicyRef) (feature : Feature) : List PolicyAtom :=
  match policy with
  | none | some .none => []
  | some (.atom a) =>
      match stripPrefix "policy." a with
      | some name => categoryAtoms features feature.name name
      | none => (parseAtom a).toList
  | some (.localRef name) => categoryAtoms features feature.name name
  | some (.external feature name) => categoryAtoms features feature name
  | some (.unresolved text) => policyTextAtoms features text feature.name

/-! ### What a view calls -/

def parseQueryRef (text defaultFeature : String) : Option (String × String) :=
  match splitText '.' (trimText (headText '(' text)) with
  | [feature, "query", name] => some (feature, name)
  | [feature, "query", _, name] => some (feature, name)
  | ["query", name] => some (defaultFeature, name)
  | _ => none

def parseCommandRef (text defaultFeature : String) : Option (String × String) :=
  match splitText '.' (trimText (headText '(' text)) with
  | [feature, "command", name] => some (feature, name)
  | [name] => some (defaultFeature, name)
  | _ => none

structure BackendPolicy where
  label : String
  atoms : List PolicyAtom
  isPublic : Bool
  deriving DecidableEq

def effectivePolicy (policy : PolicyRef) (default : Option PolicyRef) : Option PolicyRef :=
  if policy = .none then default else some policy

def policyIsPublic (atoms : List PolicyAtom) (policy : Option PolicyRef) : Bool :=
  policy.isNone || atoms.any fun a => a = ⟨"scope", "public"⟩

/-- The policy of an operation of a feature; `kind` says which table it is in. -/
def backendPolicy (kind : String) (operations : Feature → List Operation)
    (ref : String × String) : Option BackendPolicy :=
  match features.find? (·.name = ref.1) with
  | none => none
  | some f =>
      match (operations f).find? (·.name = ref.2) with
      | none => none
      | some op =>
          let policy := effectivePolicy op.policy f.defaultPolicy
          let atoms := policyRefAtoms features policy f
          some ⟨ref.1 ++ "." ++ kind ++ "." ++ ref.2, atoms, policyIsPublic atoms policy⟩

/-- The query and the commands, each once, in the order of the texts. -/
def backendPolicies (defaultFeature : String) (view : ExperienceView) (platform : PlatformView) :
    List BackendPolicy :=
  let query := (view.source.bind fun s => parseQueryRef s defaultFeature).bind
    (backendPolicy features "query" (·.queries))
  let texts := view.submit.toList ++ view.actions ++ platform.submit.toList ++ platform.actions
  let commands := (texts.filterMap fun t => parseCommandRef t defaultFeature).eraseDups
  query.toList ++ commands.filterMap (backendPolicy features "command" (·.commands))

/-! ### The check -/

inductive GuardSource where
  | authored
  | builtin
  deriving DecidableEq

structure ResolvedGuard where
  atoms : List PolicyAtom
  source : GuardSource
  deriving DecidableEq

structure RouteCtx where
  audience : Audience
  platformView : PlatformView
  experienceView : ExperienceView
  feature : String
  view : String
  deriving DecidableEq

def targetView (target : Option String) : Option (String × String) :=
  target.bind fun target =>
    match splitText '.' (headText '(' target) with
    | feature :: "view" :: view :: _ => some (feature, view)
    | _ => none

def surfaceMatches (surface : PlatformSurface) (label : Option String) (feature : String) : Bool :=
  match label with
  | none => surface.experience = feature
  | some label =>
      label = surface.experience || label = surface.experience ++ " web" ||
        label = surface.experience ++ " mobile" || label = surface.experience ++ ".web" ||
        label = surface.experience ++ ".mobile"

def routeCtx (m : ExperienceModule) (route : AppRoute) : Option RouteCtx := do
  let (feature, view) ← targetView route.target
  let surface ← m.surfaces.find? fun s => surfaceMatches s route.surface feature &&
    match route.audience with
    | some name => s.audiences.any (·.name = name)
    | none => !s.audiences.isEmpty
  let named := route.audience.bind fun name => surface.audiences.find? (·.name = name)
  let audience ← named.or surface.audiences.head?
  let platformView ← audience.views.find? (·.name = view)
  let experience ← m.experiences.find? (·.name = surface.usesExperience.getD surface.experience)
  let experienceView ← experience.views.find? (·.name = view)
  some ⟨audience, platformView, experienceView, feature, view⟩

def resolveGuard (feature : String) (guards : List (Option ViewGuard))
    (app : Option AppManifest) : ResolvedGuard :=
  match guards.findSome? id with
  | some guard => ⟨guard.policy.flatMap fun p => policyTextAtoms features p feature, .authored⟩
  | none =>
      match app.bind (·.defaultPolicy) with
      | some policy => ⟨policyTextAtoms features policy feature, .authored⟩
      | none => ⟨[⟨"scope", "public"⟩], .builtin⟩

def missingAtoms (guard backend : List PolicyAtom) : List String :=
  (backend.filter fun atom => !guard.any fun g => g = atom).map
    fun a => "@" ++ a.ns ++ "." ++ a.name

structure RouteGuardDiagnostic where
  code : String
  message : String
  deriving DecidableEq

def unguarded (ctx : RouteCtx) (backend : BackendPolicy) : RouteGuardDiagnostic where
  code := "ROUTE-GUARD-001"
  message := "view `" ++ ctx.view ++ "` gates backend `" ++ backend.label ++
    "` but resolves only to the built-in public route guard."

def laxer (ctx : RouteCtx) (backend : BackendPolicy) (missing : List String) :
    RouteGuardDiagnostic where
  code := "ROUTE-GUARD-002"
  message := "view `" ++ ctx.view ++ "` guard is laxer than backend `" ++ backend.label ++
    "`; missing atoms: " ++ ", ".intercalate missing ++ "."

def checkBackend (ctx : RouteCtx) (resolved : ResolvedGuard) (backend : BackendPolicy) :
    List RouteGuardDiagnostic :=
  if backend.isPublic then []
  else if resolved.source = .builtin then [unguarded ctx backend]
  else
    match missingAtoms resolved.atoms backend.atoms with
    | [] => []
    | missing => [laxer ctx backend missing]

/-- The guard of a route, from the innermost level outwards. -/
def guardOf (app : Option AppManifest) (route : AppRoute) (ctx : RouteCtx) : ResolvedGuard :=
  resolveGuard features ctx.feature
    [route.guard, ctx.platformView.guard, ctx.experienceView.guard, ctx.audience.guard] app

def backendsOf (ctx : RouteCtx) : List BackendPolicy :=
  backendPolicies features ctx.feature ctx.experienceView ctx.platformView

/-- What the check pushes for one route. -/
def checkRoute (m : ExperienceModule) (app : Option AppManifest) (route : AppRoute) :
    List RouteGuardDiagnostic :=
  match routeCtx m route with
  | none => []
  | some ctx =>
      (backendsOf features ctx).flatMap (checkBackend ctx (guardOf features app route ctx))

/-- `app_override` wins over the module's own app. -/
def check (m : ExperienceModule) (appOverride : Option AppManifest) : List RouteGuardDiagnostic :=
  m.routes.flatMap (checkRoute features m (appOverride.or m.app))

end Lazuli.Analyzer.RouteGuard
