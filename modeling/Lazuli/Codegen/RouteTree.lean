import Lazuli.General.Forest
import Lazuli.General.Text
import Mathlib

/-!
The route files of a frontend (`routes/mod.rs`, `routes/emit` in `lazuli_codegen_ts`).

Each audience has a file that declares a constant for each of its routes and puts the constants
into one tree. The constants and the parents are named by what the names of the routes turn into,
and both only after the routes of the other audiences, those of the other platform and those
without a path have been left out. So the tree is complete when nothing was lost on the way: every
route has a path, no two have one constant, and every declared parent is in the same file.
-/

namespace Lazuli.Codegen.Routes

open General

abbrev Text := List Char

inductive Platform where
  | web
  | mobile
  deriving DecidableEq

structure PlatformSurface where
  experience : Text
  platform : Platform

structure AppRoute where
  name : Text
  path : Option Text
  target : Option Text
  surface : Option Text
  audience : Option Text
  parent : Option Text
  deriving DecidableEq

inductive RoutesTarget where
  | web
  | mobile
  deriving DecidableEq

def RoutesTarget.platformLabel : RoutesTarget → Text
  | web => "web".toList
  | mobile => "mobile".toList

def RoutesTarget.platform : RoutesTarget → Platform
  | web => .web
  | mobile => .mobile

/-! ### The platform of a route -/

def nonEmpty (s : Text) : Option Text := if s = [] then none else some s

def isBreak (c : Char) : Bool := c = ' ' || c = '.'

def surfacePlatformLabel (surface : Text) : Option Text :=
  let tail := surface.rtakeWhile fun c => !isBreak c
  if tail = "web".toList ∨ tail = "mobile".toList then some tail else none

def surfaceFeature (surface : Text) : Option Text :=
  nonEmpty (surface.takeWhile fun c => !isBreak c)

/-- What stands in front of a mark (`split_once`). -/
def beforeMark (mark : Text) : Text → Option Text
  | [] => none
  | c :: rest =>
      if mark <+: c :: rest then some [] else (beforeMark mark rest).map fun front => c :: front

def routeTargetFeature (target : Option Text) : Option Text := do
  let target ← target
  let feature ← beforeMark ".view.".toList (Text.trim (target.takeWhile (· ≠ '(')))
  nonEmpty feature

def routeFeatureFromName (name : Text) : Text :=
  (nonEmpty (name.takeWhile (· ≠ '_'))).getD "app".toList

def surfaceMatches (surface : PlatformSurface) (label : Text) : Bool :=
  ["", " web", " mobile", ".web", ".mobile"].any fun ending =>
    label = surface.experience ++ ending.toList

section Group

variable (routes : List AppRoute) (surfaces : List PlatformSurface) (target : RoutesTarget)

def matchingSurface (route : AppRoute) : Option PlatformSurface :=
  let routeFeature := ((routeTargetFeature route.target).or
    (route.surface.bind surfaceFeature)).getD (routeFeatureFromName route.name)
  (surfaces.filter fun surface => surface.platform = target.platform).find? fun surface =>
    match route.surface with
    | some label => surfaceMatches surface label
    | none => surface.experience = routeFeature

def routeMatchesTarget (route : AppRoute) : Bool :=
  match route.surface.bind surfacePlatformLabel with
  | some platform => platform = target.platformLabel
  | none =>
      match matchingSurface surfaces target route with
      | none => target = .web
      | some surface => surface.platform = target.platform

def AppRoute.audienceName (route : AppRoute) : Text := route.audience.getD "default".toList

/-- The routes of an audience on the platform, whether they have a path or not. -/
def groupOf (audience : Text) : List AppRoute :=
  routes.filter fun route =>
    routeMatchesTarget surfaces target route && route.audienceName = audience

/-- The audiences that get a file, in the order of the map. -/
def audiences : List Text :=
  ((routes.filter fun route => route.path.isSome && routeMatchesTarget surfaces target route).map
    AppRoute.audienceName).dedup.insertionSort (· ≤ ·)

end Group

/-! ### The names of the constants -/

/-- `char::to_uppercase` and `char::to_lowercase`. -/
structure Casing where
  toUppercase : Char → Text
  toLowercase : Char → Text

section Names

variable (casing : Casing)

def pascalWord : Text → Text
  | [] => []
  | first :: rest => casing.toUppercase first ++ rest.map Char.toLower

def pascalCase (value : Text) : Text :=
  (value.splitOnP fun c => c = '_' || c = '-' || c = ' ').flatMap (pascalWord casing)

def lowerCamel (value : Text) : Text :=
  match pascalCase casing value with
  | [] => []
  | first :: rest => casing.toLowercase first ++ rest

def routeConstName (name : Text) : Text := lowerCamel casing name ++ "Route".toList

end Names

/-! ### The files -/

/-- What is emitted for a route; the path is still in the spelling of the declaration. -/
structure RouteSpec where
  name : Text
  path : Text
  routeConst : Text
  parentRouteConst : Option Text

/-- A constant of the file, what its `getParentRoute` returns, and its route. The root route has
neither. -/
structure Declaration where
  const : Text
  parent : Option Text
  route : Option RouteSpec

/-- The forest is what the root route's `addChildren` is given, with an `addChildren` in it for
each constant that has something below. -/
structure RoutesFile where
  audience : Text
  declarations : List Declaration
  children : Forest Text

def rootRoute : Text := "rootRoute".toList

def RouteSpec.declaration (spec : RouteSpec) : Declaration :=
  ⟨spec.routeConst, some (spec.parentRouteConst.getD rootRoute), some spec⟩

def childrenOf (specs : List RouteSpec) (const : Text) : List Text :=
  ((specs.filter fun spec => spec.parentRouteConst = some const).map
    RouteSpec.routeConst).insertionSort (· ≤ ·)

def topLevel (specs : List RouteSpec) : List Text :=
  (specs.filter fun spec => spec.parentRouteConst = none).map RouteSpec.routeConst

/-- `render` from each constant of the top level. It goes no deeper than there are constants
(`buildTreeExpr_eq`). -/
def buildTreeExpr (specs : List RouteSpec) : Forest Text :=
  Forest.grow (childrenOf specs) specs.length (topLevel specs)

def emitRoutesFile (audience : Text) (specs : List RouteSpec) : RoutesFile where
  audience := audience
  declarations := ⟨rootRoute, none, none⟩ :: specs.map RouteSpec.declaration
  children := buildTreeExpr specs

section Emit

variable (casing : Casing)

def routeSpec (route : AppRoute) (path : Text) : RouteSpec where
  name := route.name
  path := path
  routeConst := routeConstName casing route.name
  parentRouteConst := route.parent.map (routeConstName casing)

/-- The specs of a group, sorted by their constants (`sort_by` is stable), and of those with one
constant the first (`dedup_by`). -/
def routeSpecs (group : List AppRoute) : List RouteSpec :=
  ((group.filterMap fun route => route.path.map (routeSpec casing route)).insertionSort
    fun a b => a.routeConst ≤ b.routeConst).destutter fun a b => a.routeConst ≠ b.routeConst

def emitRoutesArtifacts (routes : List AppRoute) (surfaces : List PlatformSurface)
    (target : RoutesTarget) : List RoutesFile :=
  (audiences routes surfaces target).map fun audience =>
    emitRoutesFile audience (routeSpecs casing (groupOf routes surfaces target audience))

end Emit

/-! ### What a file is asked for -/

/-- One route is declared as the parent of another. -/
def ParentOf (routes : List AppRoute) (parent child : Text) : Prop :=
  ∃ route ∈ routes, route.name = child ∧ route.parent = some parent

def Acyclic (routes : List AppRoute) : Prop :=
  ∀ name, ¬ Relation.TransGen (ParentOf routes) name name

/-- The constants in the tree. -/
def RoutesFile.nodes (file : RoutesFile) : List Text := rootRoute :: file.children.labels

/-- Each constant in the tree with the one it is below. -/
def RoutesFile.edges (file : RoutesFile) : List (Text × Text) := file.children.edges rootRoute

/-- The constants that the file mentions, in `getParentRoute` and in the tree. -/
def RoutesFile.references (file : RoutesFile) : List Text :=
  file.declarations.filterMap Declaration.parent ++ file.nodes

/-- Whatever is declared under the constant is the route of this name. -/
def RoutesFile.StandsFor (file : RoutesFile) (const name : Text) : Prop :=
  ∀ declaration ∈ file.declarations, declaration.const = const →
    ∃ spec, declaration.route = some spec ∧ spec.name = name

/-- The route is below its declared parent, or below the root. -/
def RoutesFile.Below (casing : Casing) (file : RoutesFile) (route : AppRoute) : Prop :=
  match route.parent with
  | none => (rootRoute, routeConstName casing route.name) ∈ file.edges
  | some parent =>
      (routeConstName casing parent, routeConstName casing route.name) ∈ file.edges ∧
        file.StandsFor (routeConstName casing parent) parent

/-- The tree of the file is complete for these routes. -/
structure Complete (casing : Casing) (file : RoutesFile) (group : List AppRoute) : Prop where
  once : ∀ route ∈ group, file.nodes.count (routeConstName casing route.name) = 1
  own : ∀ route ∈ group, file.StandsFor (routeConstName casing route.name) route.name
  below : ∀ route ∈ group, file.Below casing route
  declared : ∀ const ∈ file.references, const ∈ file.declarations.map Declaration.const

/-- Nothing of the group is lost: every route has a path and a constant of its own, and its
parent is in the group. -/
structure Closed (casing : Casing) (group : List AppRoute) : Prop where
  path : ∀ route ∈ group, route.path.isSome
  consts : (rootRoute :: group.map fun route => routeConstName casing route.name).Nodup
  parent : ∀ route ∈ group, ∀ parent, route.parent = some parent →
    ∃ other ∈ group, other.name = parent

/-! ### The constants of a file -/

section Specs

variable {casing : Casing} {group : List AppRoute} {spec other : RouteSpec} {specs : List RouteSpec}

theorem mem_routeSpecs (h : spec ∈ routeSpecs casing group) :
    ∃ route ∈ group, ∃ path, route.path = some path ∧ spec = routeSpec casing route path := by
  have inside := (List.destutter_sublist _ _).subset h
  rw [(List.perm_insertionSort _ _).mem_iff, List.mem_filterMap] at inside
  obtain ⟨route, hroute, hspec⟩ := inside
  obtain ⟨path, hpath, rfl⟩ := Option.map_eq_some_iff.mp hspec
  exact ⟨route, hroute, path, hpath, rfl⟩

/-- No constant is declared twice. -/
theorem nodup_consts (casing : Casing) (group : List AppRoute) :
    ((routeSpecs casing group).map RouteSpec.routeConst).Nodup := by
  have total : Std.Total fun a b : RouteSpec => a.routeConst ≤ b.routeConst :=
    ⟨fun a b => le_total a.routeConst b.routeConst⟩
  have trans : IsTrans RouteSpec fun a b => a.routeConst ≤ b.routeConst :=
    ⟨fun _ _ _ => le_trans⟩
  have sorted : (routeSpecs casing group).Pairwise fun a b => a.routeConst ≤ b.routeConst :=
    (List.pairwise_insertionSort _ _).sublist (List.destutter_sublist _ _)
  have apart : (routeSpecs casing group).IsChain fun a b => a.routeConst ≠ b.routeConst :=
    List.isChain_destutter _ _
  have strict : ((routeSpecs casing group).map RouteSpec.routeConst).IsChain (· < ·) := by
    rw [List.isChain_map, List.isChain_iff_getElem]
    intro i hi
    exact lt_of_le_of_ne (List.pairwise_iff_getElem.mp sorted i (i + 1) _ hi (Nat.lt_succ_self i))
      (List.isChain_iff_getElem.mp apart i hi)
  exact (List.isChain_iff_pairwise.mp strict).imp fun h => h.ne

/-- A route whose constant no other route has is declared. -/
theorem routeSpec_mem {route : AppRoute} {path : Text} (hroute : route ∈ group)
    (hpath : route.path = some path)
    (hconsts : (group.map fun route => routeConstName casing route.name).Nodup) :
    routeSpec casing route path ∈ routeSpecs casing group := by
  have sub : ∀ routes : List AppRoute,
      ((routes.filterMap fun route => route.path.map (routeSpec casing route)).map
        RouteSpec.routeConst).Sublist
        (routes.map fun route => routeConstName casing route.name) := by
    intro routes
    induction routes with
    | nil => exact List.Sublist.refl _
    | cons first rest ih =>
        cases h : first.path with
        | none => simpa [h] using ih.cons _
        | some path => simpa [h, routeSpec] using ih.cons_cons (routeConstName casing first.name)
  have sorted := List.perm_insertionSort (fun a b : RouteSpec => a.routeConst ≤ b.routeConst)
    (group.filterMap fun route => route.path.map (routeSpec casing route))
  have apart := (sorted.map RouteSpec.routeConst).nodup_iff.mpr (hconsts.sublist (sub group))
  rw [routeSpecs, (List.destutter_eq_self_iff _ _).mpr (List.pairwise_map.mp apart).isChain,
    sorted.mem_iff, List.mem_filterMap]
  exact ⟨route, hroute, by rw [hpath, Option.map_some]⟩

theorem mem_childrenOf {const child : Text} :
    child ∈ childrenOf specs const ↔
      ∃ spec ∈ specs, spec.parentRouteConst = some const ∧ spec.routeConst = child := by
  rw [childrenOf, (List.perm_insertionSort _ _).mem_iff]
  simp [and_assoc]

theorem mem_topLevel {const : Text} :
    const ∈ topLevel specs ↔
      ∃ spec ∈ specs, spec.parentRouteConst = none ∧ spec.routeConst = const := by
  simp [topLevel, and_assoc]

theorem spec_unique (hnodup : (specs.map RouteSpec.routeConst).Nodup) (hspec : spec ∈ specs)
    (hother : other ∈ specs) (h : spec.routeConst = other.routeConst) : spec = other :=
  List.inj_on_of_nodup_map hnodup hspec hother h

theorem childrenOf_subset (const : Text) :
    childrenOf specs const ⊆ specs.map RouteSpec.routeConst := by
  intro child hchild
  obtain ⟨spec, hspec, -, rfl⟩ := mem_childrenOf.mp hchild
  exact List.mem_map_of_mem hspec

theorem topLevel_subset : topLevel specs ⊆ specs.map RouteSpec.routeConst := by
  intro const hconst
  obtain ⟨spec, hspec, -, rfl⟩ := mem_topLevel.mp hconst
  exact List.mem_map_of_mem hspec

/-- A constant that is declared once has one place. -/
theorem placed (hnodup : (specs.map RouteSpec.routeConst).Nodup) :
    Forest.Placed (childrenOf specs) (topLevel specs) where
  roots_nodup := hnodup.sublist (List.filter_sublist.map _)
  children_nodup const := by
    rw [childrenOf, (List.perm_insertionSort _ _).nodup_iff]
    exact hnodup.sublist (List.filter_sublist.map _)
  root_or_child := by
    intro const htop above hchild
    obtain ⟨spec, hspec, hnone, rfl⟩ := mem_topLevel.mp htop
    obtain ⟨other, hother, hparent, same⟩ := mem_childrenOf.mp hchild
    obtain rfl := spec_unique hnodup hother hspec same
    rw [hnone] at hparent
    cases hparent
  one_parent := by
    intro const above above' h h'
    obtain ⟨spec, hspec, hparent, rfl⟩ := mem_childrenOf.mp h
    obtain ⟨other, hother, hparent', same⟩ := mem_childrenOf.mp h'
    obtain rfl := spec_unique hnodup hother hspec same
    exact Option.some_inj.mp (hparent.symm.trans hparent')

/-- The tree is rendered to its end. -/
theorem buildTreeExpr_eq (hnodup : (specs.map RouteSpec.routeConst).Nodup) {height : Nat}
    (hle : specs.length ≤ height) :
    Forest.grow (childrenOf specs) height (topLevel specs) = buildTreeExpr specs := by
  have enough : (specs.map RouteSpec.routeConst).length ≤ height := by rwa [List.length_map]
  rw [Forest.grow_eq (placed hnodup) topLevel_subset childrenOf_subset enough, List.length_map,
    buildTreeExpr]

end Specs

/-! ### Complete files -/

section Complete

variable {casing : Casing} {routes group : List AppRoute} {audience const name : Text}

theorem mem_declarations {declaration : Declaration} {specs : List RouteSpec} :
    declaration ∈ (emitRoutesFile audience specs).declarations ↔
      declaration = ⟨rootRoute, none, none⟩ ∨
        ∃ spec ∈ specs, declaration = spec.declaration := by
  simp [emitRoutesFile, eq_comm]

/-- A declared constant that stands for a route of a name is the constant of such a route. -/
theorem exists_spec_of_standsFor
    (hown : (emitRoutesFile audience (routeSpecs casing group)).StandsFor const name)
    (hdeclared : const ∈ (emitRoutesFile audience (routeSpecs casing group)).declarations.map
      Declaration.const) :
    ∃ route ∈ group, ∃ path, route.path = some path ∧ route.name = name ∧
      routeSpec casing route path ∈ routeSpecs casing group := by
  obtain ⟨declaration, hmem, hconst⟩ := List.mem_map.mp hdeclared
  obtain ⟨spec, hroute, hname⟩ := hown declaration hmem hconst
  rcases mem_declarations.mp hmem with rfl | ⟨spec', hspec, rfl⟩
  · cases hroute
  · obtain rfl := Option.some_inj.mp hroute
    obtain ⟨route, hgroup, path, hpath, rfl⟩ := mem_routeSpecs hspec
    exact ⟨route, hgroup, path, hpath, hname, hspec⟩

/-- A complete file has lost nothing. -/
theorem Closed.of_complete (hnames : (group.map AppRoute.name).Nodup)
    (h : Complete casing (emitRoutesFile audience (routeSpecs casing group)) group) :
    Closed casing group := by
  have named : ∀ route ∈ group, ∀ other ∈ group, route.name = other.name → route = other :=
    fun route hroute other hother => List.inj_on_of_nodup_map hnames hroute hother
  have declared : ∀ route ∈ group, ∃ path, route.path = some path ∧
      routeSpec casing route path ∈ routeSpecs casing group := by
    intro route hroute
    have inTree : routeConstName casing route.name ∈
        (emitRoutesFile audience (routeSpecs casing group)).nodes :=
      List.count_pos_iff.mp (by rw [h.once route hroute]; exact Nat.one_pos)
    obtain ⟨other, hother, path, hpath, same, hspec⟩ := exists_spec_of_standsFor
      (h.own route hroute) (h.declared _ (List.mem_append_right _ inTree))
    obtain rfl := named other hother route hroute same
    exact ⟨path, hpath, hspec⟩
  refine ⟨fun route hroute => ?_, List.nodup_cons.mpr ⟨fun hroot => ?_, ?_⟩,
    fun route hroute parent hparent => ?_⟩
  · obtain ⟨path, hpath, -⟩ := declared route hroute
    rw [hpath, Option.isSome_some]
  · obtain ⟨route, hroute, same⟩ := List.mem_map.mp hroot
    obtain ⟨spec, none, -⟩ :=
      h.own route hroute ⟨rootRoute, none, none⟩ (mem_declarations.mpr (.inl rfl)) same.symm
    cases none
  · refine (List.Nodup.of_map _ hnames).map_on fun route hroute other hother same => ?_
    obtain ⟨path, -, hspec⟩ := declared route hroute
    obtain ⟨spec, hsome, hname⟩ := h.own other hother (routeSpec casing route path).declaration
      (mem_declarations.mpr (.inr ⟨_, hspec, rfl⟩)) same
    obtain rfl := Option.some_inj.mp hsome
    exact named route hroute other hother hname
  · obtain ⟨path, -, hspec⟩ := declared route hroute
    have hbelow := h.below route hroute
    rw [RoutesFile.Below, hparent] at hbelow
    have mentioned : routeConstName casing parent ∈
        (emitRoutesFile audience (routeSpecs casing group)).references := by
      refine List.mem_append_left _ (List.mem_filterMap.mpr ⟨_, mem_declarations.mpr
        (.inr ⟨routeSpec casing route path, hspec, rfl⟩), ?_⟩)
      simp [RouteSpec.declaration, routeSpec, hparent]
    obtain ⟨other, hother, -, -, hname, -⟩ :=
      exists_spec_of_standsFor hbelow.2 (h.declared _ mentioned)
    exact ⟨other, hother, hname⟩

theorem Closed.spec_mem (hclosed : Closed casing group) {route : AppRoute}
    (hroute : route ∈ group) :
    ∃ path, routeSpec casing route path ∈ routeSpecs casing group := by
  obtain ⟨path, hpath⟩ := Option.isSome_iff_exists.mp (hclosed.path route hroute)
  exact ⟨path, routeSpec_mem hroute hpath (List.nodup_cons.mp hclosed.consts).2⟩

/-- Every route of a closed group is somewhere below the top level. -/
theorem Closed.exists_depth (hclosed : Closed casing group) (hsub : group ⊆ routes)
    (hacyclic : Acyclic routes) {route : AppRoute} (hroute : route ∈ group) :
    ∃ depth, Forest.Depth (childrenOf (routeSpecs casing group))
      (topLevel (routeSpecs casing group)) depth (routeConstName casing route.name) := by
  have order : IsStrictOrder Text (Relation.TransGen (ParentOf routes)) :=
    { irrefl := hacyclic, trans := fun _ _ _ => Relation.TransGen.trans }
  have wf : {name | name ∈ group.map AppRoute.name}.WellFoundedOn
      (Relation.TransGen (ParentOf routes)) := (List.finite_toSet _).wellFoundedOn
  -- The parents come before the children.
  refine wf.induction (P := fun name => ∀ route ∈ group, route.name = name →
    ∃ depth, Forest.Depth (childrenOf (routeSpecs casing group))
      (topLevel (routeSpecs casing group)) depth (routeConstName casing route.name))
    (List.mem_map_of_mem hroute) ?_ route hroute rfl
  rintro - - ih route hroute rfl
  obtain ⟨path, hspec⟩ := hclosed.spec_mem hroute
  cases hparent : route.parent with
  | none =>
      exact ⟨0, .root (mem_topLevel.mpr ⟨_, hspec, by simp [routeSpec, hparent], rfl⟩)⟩
  | some parent =>
      obtain ⟨other, hother, rfl⟩ := hclosed.parent route hroute parent hparent
      obtain ⟨depth, hdepth⟩ := ih other.name (List.mem_map_of_mem hother)
        (.single ⟨route, hsub hroute, rfl, hparent⟩) other hother rfl
      exact ⟨depth + 1, .child hdepth
        (mem_childrenOf.mpr ⟨_, hspec, by simp [routeSpec, hparent], rfl⟩)⟩

/-- The constant of a route stands for that route alone. -/
theorem Closed.standsFor (hclosed : Closed casing group) {route : AppRoute}
    (hroute : route ∈ group) :
    (emitRoutesFile audience (routeSpecs casing group)).StandsFor
      (routeConstName casing route.name) route.name := by
  obtain ⟨noRoot, consts⟩ := List.nodup_cons.mp hclosed.consts
  intro declaration hmem hconst
  rcases mem_declarations.mp hmem with rfl | ⟨spec, hspec, rfl⟩
  · exact absurd (List.mem_map.mpr ⟨route, hroute, hconst.symm⟩) noRoot
  · obtain ⟨other, hother, path, -, rfl⟩ := mem_routeSpecs hspec
    obtain rfl := List.inj_on_of_nodup_map consts hother hroute hconst
    exact ⟨_, rfl, rfl⟩

theorem Closed.declared (hclosed : Closed casing group) {route : AppRoute}
    (hroute : route ∈ group) :
    routeConstName casing route.name ∈
      (emitRoutesFile audience (routeSpecs casing group)).declarations.map Declaration.const := by
  obtain ⟨path, hspec⟩ := hclosed.spec_mem hroute
  exact List.mem_map.mpr ⟨_, mem_declarations.mpr (.inr ⟨_, hspec, rfl⟩), rfl⟩

/-- What the tree of a file mentions is declared in it. -/
theorem nodes_declared {specs : List RouteSpec}
    (h : const ∈ (emitRoutesFile audience specs).nodes) :
    const ∈ (emitRoutesFile audience specs).declarations.map Declaration.const := by
  have declared : const ∈ specs.map RouteSpec.routeConst →
      const ∈ (emitRoutesFile audience specs).declarations.map Declaration.const := by
    rintro hmem
    obtain ⟨spec, hspec, rfl⟩ := List.mem_map.mp hmem
    exact List.mem_map.mpr ⟨_, mem_declarations.mpr (.inr ⟨_, hspec, rfl⟩), rfl⟩
  rcases List.mem_cons.mp h with rfl | hlabel
  · exact List.mem_cons_self
  · obtain ⟨-, -, (htop | ⟨-, hchild⟩)⟩ := Forest.mem_labels_grow_iff.mp hlabel
    · exact declared (topLevel_subset htop)
    · exact declared (childrenOf_subset _ hchild)

/-- A closed group has a complete file. -/
theorem Complete.of_closed (hclosed : Closed casing group) (hsub : group ⊆ routes)
    (hacyclic : Acyclic routes) :
    Complete casing (emitRoutesFile audience (routeSpecs casing group)) group := by
  have hplaced := placed (nodup_consts casing group)
  have low : ∀ {depth const}, Forest.Depth (childrenOf (routeSpecs casing group))
      (topLevel (routeSpecs casing group)) depth const →
      depth < (routeSpecs casing group).length := by
    intro depth const hdepth
    have := Forest.depth_lt hplaced topLevel_subset childrenOf_subset hdepth
    rwa [List.length_map] at this
  refine ⟨fun route hroute => ?_, fun route hroute => hclosed.standsFor hroute,
    fun route hroute => ?_, fun const hconst => ?_⟩
  · obtain ⟨depth, hdepth⟩ := hclosed.exists_depth hsub hacyclic hroute
    have noRoot : rootRoute ≠ routeConstName casing route.name := fun same =>
      (List.nodup_cons.mp hclosed.consts).1 (same ▸ List.mem_map_of_mem hroute)
    rw [RoutesFile.nodes, List.count_cons_of_ne noRoot]
    exact Forest.count_labels_grow hplaced hdepth (low hdepth).le
  · obtain ⟨path, hspec⟩ := hclosed.spec_mem hroute
    rw [RoutesFile.Below]
    split
    · next hparent =>
        exact Forest.root_mem_edges
          (mem_topLevel.mpr ⟨_, hspec, by simp [routeSpec, hparent], rfl⟩)
    · next parent hparent =>
        obtain ⟨other, hother, rfl⟩ := hclosed.parent route hroute parent hparent
        obtain ⟨depth, hdepth⟩ := hclosed.exists_depth hsub hacyclic hother
        exact ⟨Forest.child_mem_edges hdepth (low hdepth)
          (mem_childrenOf.mpr ⟨_, hspec, by simp [routeSpec, hparent], rfl⟩),
          hclosed.standsFor hother⟩
  · rcases List.mem_append.mp hconst with hparent | hnode
    · obtain ⟨declaration, hmem, hparent⟩ := List.mem_filterMap.mp hparent
      rcases mem_declarations.mp hmem with rfl | ⟨spec, hspec, rfl⟩
      · cases hparent
      · obtain ⟨route, hroute, path, -, rfl⟩ := mem_routeSpecs hspec
        obtain rfl := Option.some_inj.mp hparent
        cases h : route.parent with
        | none => simp [routeSpec, h, emitRoutesFile]
        | some parent =>
            obtain ⟨other, hother, rfl⟩ := hclosed.parent route hroute parent h
            simpa [routeSpec, h] using hclosed.declared hother
    · exact nodes_declared hnode

end Complete

/-- In a file whose routes have names of their own and parents without a cycle, every route of its
audience and platform is once in the tree, below its declared parent, and every constant is
declared, if and only if each of them has a path and a constant of its own and a parent among
them. -/
theorem route_tree_complete_iff (casing : Casing) (routes : List AppRoute)
    (surfaces : List PlatformSurface) (target : RoutesTarget)
    (hnames : (routes.map AppRoute.name).Nodup) (hacyclic : Acyclic routes) (file : RoutesFile)
    (hfile : file ∈ emitRoutesArtifacts casing routes surfaces target) :
    Complete casing file (groupOf routes surfaces target file.audience) ↔
      Closed casing (groupOf routes surfaces target file.audience) := by
  obtain ⟨audience, -, rfl⟩ := List.mem_map.mp hfile
  constructor
  · exact Closed.of_complete (hnames.sublist (List.filter_sublist.map _))
  · intro hclosed
    exact Complete.of_closed hclosed List.filter_sublist.subset hacyclic

/-- Parents that come before their children go in no cycle. -/
theorem acyclic_of_rank {routes : List AppRoute} (rank : Text → Nat)
    (h : ∀ route ∈ routes, ∀ parent ∈ route.parent, rank parent < rank route.name) :
    Acyclic routes := by
  have less : ∀ {parent child}, Relation.TransGen (ParentOf routes) parent child →
      rank parent < rank child := by
    intro parent child hpath
    induction hpath with
    | single hstep =>
        obtain ⟨route, hroute, rfl, hparent⟩ := hstep
        exact h route hroute _ hparent
    | tail _ hstep ih =>
        obtain ⟨route, hroute, rfl, hparent⟩ := hstep
        exact ih.trans (h route hroute _ hparent)
  exact fun name hcycle => Nat.lt_irrefl _ (less hcycle)

theorem mem_emitRoutesArtifacts {casing : Casing} {routes : List AppRoute}
    {surfaces : List PlatformSurface} {target : RoutesTarget} {audience : Text}
    (h : audience ∈ audiences routes surfaces target) :
    emitRoutesFile audience (routeSpecs casing (groupOf routes surfaces target audience)) ∈
      emitRoutesArtifacts casing routes surfaces target :=
  List.mem_map_of_mem h

/-- The casing of names that are ASCII. -/
def asciiCasing : Casing := ⟨fun c => [c.toUpper], fun c => [c.toLower]⟩

/-- A list of users, and a page below it for another audience or for the same. -/
def userRoutes (audience : Option Text) : List AppRoute :=
  [⟨"users".toList, some "/users".toList, none, none, none, none⟩,
    ⟨"user_page".toList, some "/users/:id".toList, none, none, audience, some "users".toList⟩]

theorem acyclic_userRoutes (audience : Option Text) : Acyclic (userRoutes audience) :=
  acyclic_of_rank List.length (by simp [userRoutes])

theorem route_tree_complete_users :
    Complete asciiCasing
      (emitRoutesFile "default".toList (routeSpecs asciiCasing (userRoutes none)))
      (userRoutes none) :=
  (route_tree_complete_iff asciiCasing (userRoutes none) [] .web (by decide)
    (acyclic_userRoutes none) _ (mem_emitRoutesArtifacts (by decide))).mpr
    ⟨by decide, by decide, by decide⟩

/-- The parent of a page for the staff is in the file for everybody. -/
theorem parent_elsewhere :
    ¬ ∀ (casing : Casing) (routes : List AppRoute) (surfaces : List PlatformSurface)
        (target : RoutesTarget), (routes.map AppRoute.name).Nodup → Acyclic routes →
        ∀ file ∈ emitRoutesArtifacts casing routes surfaces target,
          Complete casing file (groupOf routes surfaces target file.audience) := by
  intro h
  have complete := h asciiCasing (userRoutes (some "staff".toList)) [] .web (by decide)
    (acyclic_userRoutes _) _ (mem_emitRoutesArtifacts (show "staff".toList ∈ _ by decide))
  have declared := complete.declared "usersRoute".toList (by decide)
  revert declared
  decide

end Lazuli.Codegen.Routes
