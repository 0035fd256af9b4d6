import Mathlib.Order.BoundedOrder.Basic
import Mathlib.Order.Lattice
import Lazuli.Codegen.Schema
import Lazuli.General.Lookup

/-!
The scopes of referential guards (`resource_p1.rs`, `lib.rs`).

A guard names the relation that it probes. Two passes give it the predicates of that relation,
one from the resources of its own feature and one from all of the module. Both read the tenancy
that a resource declares itself, while its table and its `Resource` value take the default of
the feature when it declares none.
-/

namespace Lazuli.Analyzer

open General Ir

/-! ### Names -/

def snakeChars (prev : Option Char) : List Char → List Char
  | [] => []
  | ch :: rest =>
      if ch.isUpper then
        let nextIsLower := rest.head?.any Char.isLower
        let needsSep := prev.any fun p => p.isLower || p.isDigit || (p.isUpper && nextIsLower)
        (if needsSep then ['_', ch.toLower] else [ch.toLower]) ++ snakeChars (some ch) rest
      else ch :: snakeChars (some ch) rest

def pascalToSnake (s : String) : String := String.ofList (snakeChars none s.toList)

/-! ### The passes -/

def hasAxis : Tenancy → Bool
  | .org | .team | .custom _ => true
  | .none => false

/-- The name of a relation, whether it is tenant scoped and whether it is soft-deleted. -/
def restrictOnDeleteScopeEntry (r : Resource) : String × Bool × Bool :=
  (pascalToSnake r.name, r.tenancy.any hasAxis, r.softDelete)

abbrev ScopeIndex := String → Option (Bool × Bool)

def scopeIndex (resources : List Resource) : ScopeIndex := fun key =>
  (lastWhere (fun e => e.1 = key) (resources.map restrictOnDeleteScopeEntry)).map Prod.snd

/-- A guard on a relation that is not found keeps its flags. -/
def applyScope (scopes : ScopeIndex) (guard : RestrictOnDelete) : RestrictOnDelete :=
  match scopes (pascalToSnake guard.relation) with
  | some (tenantScoped, softDelete) =>
      { guard with tenantScoped := tenantScoped, softDelete := softDelete }
  | none => guard

def mapGuards (f : RestrictOnDelete → RestrictOnDelete) (resources : List Resource) :
    List Resource :=
  resources.map fun r => { r with restrictOnDelete := r.restrictOnDelete.map f }

def applyRestrictOnDeleteScopes (resources : List Resource) (scopes : ScopeIndex) :
    List Resource :=
  mapGuards (applyScope scopes) resources

def resolveRestrictOnDeleteScopes (resources : List Resource) : List Resource :=
  applyRestrictOnDeleteScopes resources (scopeIndex resources)

def moduleResources (m : Module) : List Resource := m.features.flatMap (·.resources)

def resolveRestrictOnDeleteScopesModule (m : Module) : Module where
  features := m.features.map fun f =>
    { f with resources := applyRestrictOnDeleteScopes f.resources (scopeIndex (moduleResources m)) }

/-- The pass over one feature, on each feature. -/
def resolveFeatures (m : Module) : Module where
  features := m.features.map fun f =>
    { f with resources := resolveRestrictOnDeleteScopes f.resources }

/-! ### Junctions -/

/-- The fields that hold the keys of both ends, and the payload. -/
def synthesizeJunctionResource (declaring : String) (mt : ManyThrough) : Resource where
  name := mt.junction
  fields :=
    [{ name := pascalToSnake declaring ++ "_id", typeRef := .userDefined ⟨none, declaring⟩,
        required := true },
      { name := pascalToSnake mt.partner ++ "_id", typeRef := .userDefined ⟨none, mt.partner⟩,
        required := true }] ++
      mt.payload

/-- The resources of a feature with the junctions that they declare. -/
def withJunctions (resources : List Resource) : List Resource :=
  resources ++ resources.flatMap fun r => r.manyThrough.map (synthesizeJunctionResource r.name)

/-! ### Equations -/

theorem mapGuards_comp (f g : RestrictOnDelete → RestrictOnDelete) (resources : List Resource) :
    mapGuards f (mapGuards g resources) = mapGuards (f ∘ g) resources := by
  simp [mapGuards, Function.comp_def]

theorem mapGuards_congr_iff (f g : RestrictOnDelete → RestrictOnDelete)
    (resources : List Resource) :
    mapGuards f resources = mapGuards g resources ↔
      ∀ r ∈ resources, ∀ guard ∈ r.restrictOnDelete, f guard = g guard := by
  simp [mapGuards]

/-- Flags of guards are no part of a scope. -/
theorem entries_mapGuards (f : RestrictOnDelete → RestrictOnDelete) (resources : List Resource) :
    (mapGuards f resources).map restrictOnDeleteScopeEntry =
      resources.map restrictOnDeleteScopeEntry := by
  rw [mapGuards, List.map_map]
  rfl

theorem scopeIndex_congr {resources resources' : List Resource}
    (h : resources.map restrictOnDeleteScopeEntry = resources'.map restrictOnDeleteScopeEntry) :
    scopeIndex resources = scopeIndex resources' := by
  unfold scopeIndex
  rw [h]

theorem scopeIndex_mapGuards (f : RestrictOnDelete → RestrictOnDelete)
    (resources : List Resource) : scopeIndex (mapGuards f resources) = scopeIndex resources :=
  scopeIndex_congr (entries_mapGuards f resources)

@[simp] theorem relation_applyScope (scopes : ScopeIndex) (guard : RestrictOnDelete) :
    (applyScope scopes guard).relation = guard.relation := by
  unfold applyScope
  split <;> rfl

theorem applyScope_none {scopes : ScopeIndex} {guard : RestrictOnDelete}
    (h : scopes (pascalToSnake guard.relation) = none) : applyScope scopes guard = guard := by
  unfold applyScope
  rw [h]

theorem applyScope_some {scopes : ScopeIndex} {guard : RestrictOnDelete} {s : Bool × Bool}
    (h : scopes (pascalToSnake guard.relation) = some s) :
    applyScope scopes guard = { guard with tenantScoped := s.1, softDelete := s.2 } := by
  unfold applyScope
  rw [h]

/-! ### Declarations of a relation -/

section Relation

variable (m : Module) (f : Feature) (relation : String)

def declares (r : Resource) : Bool := pascalToSnake r.name = pascalToSnake relation

def ownDeclarations : List (Feature × Resource) :=
  (f.resources.filter (declares relation)).map fun r => (f, r)

/-- The resources of the module whose names are the relation's, up to case. -/
def declarations : List (Feature × Resource) := m.features.flatMap (ownDeclarations · relation)

def declaring : List Feature := m.features.filter fun f => f.resources.any (declares relation)

/-- What a guard of the feature means: the relation of the feature itself, and else any other. -/
def meant : List (Feature × Resource) :=
  if ownDeclarations f relation = [] then declarations m relation else ownDeclarations f relation

end Relation

/-- The predicates that a relation needs. -/
def required (d : Feature × Resource) : Bool × Bool :=
  (hasAxis (effectiveTenancy d.1 d.2), d.2.softDelete)

/-- The predicates that the scope of a relation records. -/
def recorded (d : Feature × Resource) : Bool × Bool := (restrictOnDeleteScopeEntry d.2).2

def flags (guard : RestrictOnDelete) : Bool × Bool := (guard.tenantScoped, guard.softDelete)

/-- A relation of one resource is probed as it must be, and of several features at least so. -/
structure GuardScoped (m : Module) (f : Feature) (guard : RestrictOnDelete) : Prop where
  single : ∀ d, declarations m guard.relation = [d] → flags guard = required d
  several : 2 ≤ (declaring m guard.relation).length →
    ∀ d ∈ meant m f guard.relation, required d ≤ flags guard

def GuardsScoped (m : Module) : Prop :=
  ∀ f ∈ m.features, ∀ r ∈ f.resources, ∀ guard ∈ r.restrictOnDelete, GuardScoped m f guard

inductive Pass where
  | feature
  | module

def Pass.run : Pass → Module → Module
  | .feature => resolveFeatures
  | .module => resolveRestrictOnDeleteScopesModule

/-- Running the passes again, in any order, changes nothing. -/
def Stable (m : Module) : Prop := ∀ passes : List Pass, passes.foldl (fun m p => p.run m) m = m

/-- The module as it is generated from. -/
def resolved (m : Module) : Module := resolveRestrictOnDeleteScopesModule (resolveFeatures m)

/-- The last declaration of the relation records what the meant ones need, and what the last one
of the feature itself records. -/
structure Covered (m : Module) (f : Feature) (relation : String) : Prop where
  needs : (declarations m relation).length = 1 ∨ 2 ≤ (declaring m relation).length →
    ∀ d ∈ meant m f relation, ∀ last, (declarations m relation).getLast? = some last →
      required d ≤ recorded last
  agrees : ∀ own last, (ownDeclarations f relation).getLast? = some own →
    (declarations m relation).getLast? = some last → recorded own = recorded last

/-! ### Indexes -/

theorem scopeIndex_own (f : Feature) (relation : String) :
    scopeIndex f.resources (pascalToSnake relation) =
      (ownDeclarations f relation).getLast?.map recorded := by
  unfold scopeIndex ownDeclarations
  rw [lastWhere_map, lastWhere_eq_getLast?, List.getLast?_map, Option.map_map, Option.map_map]
  rfl

theorem scopeIndex_module (m : Module) (relation : String) :
    scopeIndex (moduleResources m) (pascalToSnake relation) =
      (declarations m relation).getLast?.map recorded := by
  have all : (declarations m relation).map Prod.snd =
      (moduleResources m).filter (declares relation) := by
    unfold declarations ownDeclarations moduleResources
    rw [List.map_flatMap, List.filter_flatMap]
    simp [Function.comp_def]
  unfold scopeIndex
  rw [lastWhere_map, lastWhere_eq_getLast?, Option.map_map]
  change Option.map _ ((moduleResources m).filter (declares relation)).getLast? = _
  rw [← all, List.getLast?_map, Option.map_map]
  rfl

theorem mem_declarations {m : Module} {f : Feature} {relation : String} {d : Feature × Resource}
    (hf : f ∈ m.features) (h : d ∈ ownDeclarations f relation) : d ∈ declarations m relation :=
  List.mem_flatMap.mpr ⟨f, hf, h⟩

theorem mem_declarations_of_meant {m : Module} {f : Feature} {relation : String}
    {d : Feature × Resource} (hf : f ∈ m.features) (h : d ∈ meant m f relation) :
    d ∈ declarations m relation := by
  unfold meant at h
  split at h
  · exact h
  · exact mem_declarations hf h

/-- What is recorded is needed. -/
theorem recorded_le_required (d : Feature × Resource) : recorded d ≤ required d := by
  obtain ⟨f, r⟩ := d
  constructor
  · unfold recorded required restrictOnDeleteScopeEntry effectiveTenancy
    cases r.tenancy with
    | none => exact Bool.false_le _
    | some t => exact le_rfl
  · exact le_rfl

/-! ### What the passes leave -/

/-- The guards of a feature under a map. -/
def onGuards (h : RestrictOnDelete → RestrictOnDelete) (f : Feature) : Feature :=
  { f with resources := mapGuards h f.resources }

section OnGuards

variable (h : RestrictOnDelete → RestrictOnDelete) (m : Module) (f : Feature) (relation : String)

/-- A declaration after its guards were mapped. -/
def onDeclaration (d : Feature × Resource) : Feature × Resource :=
  (onGuards h d.1, { d.2 with restrictOnDelete := d.2.restrictOnDelete.map h })

theorem ownDeclarations_onGuards :
    ownDeclarations (onGuards h f) relation =
      (ownDeclarations f relation).map (onDeclaration h) := by
  unfold ownDeclarations onGuards mapGuards
  rw [List.filter_map, List.map_map, List.map_map]
  rfl

theorem declarations_onGuards :
    declarations ⟨m.features.map (onGuards h)⟩ relation =
      (declarations m relation).map (onDeclaration h) := by
  unfold declarations
  rw [List.flatMap_map, List.map_flatMap]
  simp only [ownDeclarations_onGuards]

theorem meant_onGuards :
    meant ⟨m.features.map (onGuards h)⟩ (onGuards h f) relation =
      (meant m f relation).map (onDeclaration h) := by
  unfold meant
  simp only [ownDeclarations_onGuards, declarations_onGuards, List.map_eq_nil_iff]
  split <;> rfl

theorem length_declaring_onGuards :
    (declaring ⟨m.features.map (onGuards h)⟩ relation).length = (declaring m relation).length := by
  unfold declaring
  rw [List.filter_map, List.length_map]
  congr 1
  apply List.filter_congr
  intro f _
  rw [Function.comp_apply, onGuards, mapGuards, List.any_map]
  rfl

theorem moduleResources_onGuards :
    moduleResources ⟨m.features.map (onGuards h)⟩ = mapGuards h (moduleResources m) := by
  unfold moduleResources mapGuards
  rw [List.flatMap_map, List.map_flatMap]
  rfl

end OnGuards

/-- What a feature knows, the module knows. -/
theorem scopeIndex_isSome {m : Module} {f : Feature} (hf : f ∈ m.features) {relation : String}
    {s : Bool × Bool} (h : scopeIndex f.resources (pascalToSnake relation) = some s) :
    ∃ s', scopeIndex (moduleResources m) (pascalToSnake relation) = some s' := by
  rw [scopeIndex_own, Option.map_eq_some_iff] at h
  obtain ⟨d, hd, -⟩ := h
  have mem := mem_declarations hf (List.mem_of_getLast? hd)
  rw [scopeIndex_module, List.getLast?_eq_some_getLast (List.ne_nil_of_mem mem)]
  exact ⟨_, rfl⟩

/-- The scope of the module overrides that of a feature. -/
theorem applyScope_module_own {m : Module} {f : Feature} (hf : f ∈ m.features)
    (guard : RestrictOnDelete) :
    applyScope (scopeIndex (moduleResources m)) (applyScope (scopeIndex f.resources) guard) =
      applyScope (scopeIndex (moduleResources m)) guard := by
  cases hown : scopeIndex f.resources (pascalToSnake guard.relation) with
  | none => rw [applyScope_none hown]
  | some s =>
      obtain ⟨s', hs'⟩ := scopeIndex_isSome hf hown
      have outer : (applyScope (scopeIndex f.resources) guard).relation = guard.relation :=
        relation_applyScope _ _
      rw [← outer] at hs'
      rw [applyScope_some hs']
      rw [outer] at hs'
      rw [applyScope_some hs', applyScope_some hown]

/-- The pass over the module is the one that counts. -/
theorem resolved_eq (m : Module) :
    resolved m = ⟨m.features.map (onGuards (applyScope (scopeIndex (moduleResources m))))⟩ := by
  have kept : scopeIndex (moduleResources (resolveFeatures m)) =
      scopeIndex (moduleResources m) := by
    apply scopeIndex_congr
    unfold moduleResources resolveFeatures
    rw [List.flatMap_map, List.map_flatMap, List.map_flatMap]
    simp only [resolveRestrictOnDeleteScopes, applyRestrictOnDeleteScopes, entries_mapGuards]
  unfold resolved resolveRestrictOnDeleteScopesModule
  rw [kept]
  unfold resolveFeatures
  rw [List.map_map]
  congr 1
  apply List.map_congr_left
  intro f hf
  rw [Function.comp_apply]
  dsimp only [onGuards, applyRestrictOnDeleteScopes, resolveRestrictOnDeleteScopes]
  rw [mapGuards_comp, (mapGuards_congr_iff _ _ _).mpr]
  exact fun r _ guard _ => applyScope_module_own hf guard

/-! ### One guard -/

section Guard

variable {m : Module} {guard : RestrictOnDelete} {last : Feature × Resource}

/-- The flags of a guard whose relation is declared are those of the last declaration. -/
theorem applyScope_module (hlast : (declarations m guard.relation).getLast? = some last) :
    applyScope (scopeIndex (moduleResources m)) guard =
      { guard with tenantScoped := (recorded last).1, softDelete := (recorded last).2 } := by
  apply applyScope_some
  rw [scopeIndex_module, hlast, Option.map_some]

theorem flags_applyScope (hlast : (declarations m guard.relation).getLast? = some last) :
    flags (applyScope (scopeIndex (moduleResources m)) guard) = recorded last := by
  rw [applyScope_module hlast]
  rfl

variable {f : Feature} (hf : f ∈ m.features)

include hf

/-- The only declaration is the one that is meant. -/
theorem meant_of_single {relation : String} {d : Feature × Resource}
    (h : declarations m relation = [d]) : d ∈ meant m f relation := by
  unfold meant
  split
  · rw [h]
    exact .head _
  next own =>
    obtain ⟨d', hd'⟩ := List.exists_mem_of_ne_nil _ own
    have mem := mem_declarations hf hd'
    rw [h, List.mem_singleton] at mem
    exact mem ▸ hd'

theorem guardScoped_iff :
    GuardScoped m f (applyScope (scopeIndex (moduleResources m)) guard) ↔
      ((declarations m guard.relation).length = 1 ∨ 2 ≤ (declaring m guard.relation).length →
        ∀ d ∈ meant m f guard.relation, ∀ last,
          (declarations m guard.relation).getLast? = some last → required d ≤ recorded last) := by
  constructor
  · rintro ⟨single, several⟩ counted d hd last hlast
    rw [relation_applyScope, flags_applyScope hlast] at single several
    rcases counted with one | two
    · obtain ⟨x, hx⟩ := List.length_eq_one_iff.mp one
      have mem := mem_declarations_of_meant hf hd
      rw [hx, List.mem_singleton] at mem
      exact (single d (mem ▸ hx)).ge
    · exact several two d hd
  · intro needs
    constructor
    · intro d hd
      rw [relation_applyScope] at hd
      have hlast : (declarations m guard.relation).getLast? = some d := by
        rw [hd]
        rfl
      rw [flags_applyScope hlast]
      apply le_antisymm (recorded_le_required d)
      apply needs (.inl _) d (meant_of_single hf hd) d hlast
      rw [hd]
      rfl
    · intro two d hd
      rw [relation_applyScope] at two hd
      have some := List.getLast?_eq_some_getLast
        (List.ne_nil_of_mem (mem_declarations_of_meant hf hd))
      rw [flags_applyScope some]
      exact needs (.inr two) d hd _ some

/-- The pass over the feature leaves a resolved guard alone when it finds the same. -/
theorem own_noop_iff :
    applyScope (scopeIndex f.resources) (applyScope (scopeIndex (moduleResources m)) guard) =
        applyScope (scopeIndex (moduleResources m)) guard ↔
      ∀ own last, (ownDeclarations f guard.relation).getLast? = some own →
        (declarations m guard.relation).getLast? = some last → recorded own = recorded last := by
  cases hown : (ownDeclarations f guard.relation).getLast? with
  | none =>
      have unknown : scopeIndex f.resources (pascalToSnake guard.relation) = none := by
        rw [scopeIndex_own, hown, Option.map_none]
      rw [applyScope_none (by rw [relation_applyScope, unknown])]
      simp
  | some own =>
      have mem := mem_declarations hf (List.mem_of_getLast? hown)
      have hlast := List.getLast?_eq_some_getLast (List.ne_nil_of_mem mem)
      have known : scopeIndex f.resources (pascalToSnake guard.relation) =
          some (recorded own) := by
        rw [scopeIndex_own, hown, Option.map_some]
      rw [applyScope_some (by rw [relation_applyScope, known]), applyScope_module hlast, hlast]
      constructor
      · rintro same own' last' ⟨⟩ ⟨⟩
        exact Prod.ext (congrArg (·.tenantScoped) same) (congrArg (·.softDelete) same)
      · intro same
        rw [same own _ rfl rfl]

end Guard

theorem guardScoped_onGuards (h : RestrictOnDelete → RestrictOnDelete) (m : Module) (f : Feature)
    (guard : RestrictOnDelete) :
    GuardScoped ⟨m.features.map (onGuards h)⟩ (onGuards h f) guard ↔ GuardScoped m f guard := by
  have needs (d : Feature × Resource) : required (onDeclaration h d) = required d := rfl
  constructor
  · rintro ⟨single, several⟩
    rw [declarations_onGuards] at single
    rw [length_declaring_onGuards, meant_onGuards, List.forall_mem_map] at several
    constructor
    · intro d hd
      apply single (onDeclaration h d)
      rw [hd]
      rfl
    · exact several
  · rintro ⟨single, several⟩
    constructor
    · intro d' hd'
      rw [declarations_onGuards] at hd'
      obtain ⟨d, hd, rfl⟩ := List.map_eq_singleton_iff.mp hd'
      exact single d hd
    · rw [length_declaring_onGuards, meant_onGuards, List.forall_mem_map]
      exact several

/-! ### All guards -/

theorem resolveModule_resolved (m : Module) :
    resolveRestrictOnDeleteScopesModule (resolved m) = resolved m := by
  rw [resolved_eq]
  unfold resolveRestrictOnDeleteScopesModule
  rw [moduleResources_onGuards, scopeIndex_mapGuards, List.map_map]
  congr 1
  apply List.map_congr_left
  intro f _
  rw [Function.comp_apply]
  dsimp only [onGuards, applyRestrictOnDeleteScopes]
  rw [mapGuards_comp, (mapGuards_congr_iff _ _ _).mpr]
  intro r _ guard _
  rw [Function.comp_apply]
  cases hs : scopeIndex (moduleResources m) (pascalToSnake guard.relation) with
  | none =>
      have plain : applyScope (scopeIndex (moduleResources m)) guard = guard := applyScope_none hs
      rw [plain, plain]
  | some s =>
      rw [applyScope_some (by rw [relation_applyScope, hs]), applyScope_some hs]

theorem resolveFeatures_resolved_iff (m : Module) :
    resolveFeatures (resolved m) = resolved m ↔
      ∀ f ∈ m.features, ∀ r ∈ f.resources, ∀ guard ∈ r.restrictOnDelete,
        ∀ own last, (ownDeclarations f guard.relation).getLast? = some own →
          (declarations m guard.relation).getLast? = some last → recorded own = recorded last := by
  rw [resolved_eq]
  unfold resolveFeatures
  rw [List.map_map, Module.mk.injEq, List.map_inj_left]
  apply forall₂_congr
  intro f hf
  rw [Function.comp_apply]
  dsimp only [onGuards, resolveRestrictOnDeleteScopes, applyRestrictOnDeleteScopes]
  rw [scopeIndex_mapGuards, mapGuards_comp]
  simp only [Feature.mk.injEq, true_and, and_true]
  rw [mapGuards_congr_iff]
  apply forall₂_congr
  intro r _
  apply forall₂_congr
  intro guard _
  exact own_noop_iff hf

theorem stable_iff (m : Module) :
    Stable (resolved m) ↔ resolveFeatures (resolved m) = resolved m := by
  constructor
  · exact fun stable => stable [.feature]
  · intro same passes
    induction passes with
    | nil => rfl
    | cons p passes ih =>
        cases p with
        | feature =>
            rw [List.foldl_cons, Pass.run, same]
            exact ih
        | module =>
            rw [List.foldl_cons, Pass.run, resolveModule_resolved]
            exact ih

/-- Guards are scoped as their relations are, and the passes are idempotent, exactly when the
last declaration of every guarded relation covers the ones that its guards mean. -/
theorem guardsScoped_iff (m : Module) :
    GuardsScoped (resolved m) ∧ Stable (resolved m) ↔
      ∀ f ∈ m.features, ∀ r ∈ f.resources, ∀ guard ∈ r.restrictOnDelete,
        Covered m f guard.relation := by
  have probed : GuardsScoped (resolved m) ↔
      ∀ f ∈ m.features, ∀ r ∈ f.resources, ∀ guard ∈ r.restrictOnDelete,
        GuardScoped m f (applyScope (scopeIndex (moduleResources m)) guard) := by
    rw [resolved_eq]
    unfold GuardsScoped
    rw [List.forall_mem_map]
    simp only [guardScoped_onGuards]
    simp only [onGuards, mapGuards, List.forall_mem_map]
  rw [probed, stable_iff, resolveFeatures_resolved_iff]
  constructor
  · rintro ⟨each, agrees⟩ f hf r hr guard hguard
    constructor
    · exact (guardScoped_iff hf).mp (each f hf r hr guard hguard)
    · exact agrees f hf r hr guard hguard
  · intro covered
    constructor
    · intro f hf r hr guard hguard
      exact (guardScoped_iff hf).mpr (covered f hf r hr guard hguard).needs
    · intro f hf r hr guard hguard
      exact (covered f hf r hr guard hguard).agrees

/-! ### Declared tenancy and defaults -/

/-- Resources that say themselves what they need, and agree where they share a name. -/
theorem covered_of_explicit {m : Module} {f : Feature} (hf : f ∈ m.features) {relation : String}
    (explicit : ∀ d ∈ declarations m relation, recorded d = required d)
    (agree : ∀ d ∈ declarations m relation, ∀ d' ∈ declarations m relation,
      recorded d = recorded d') : Covered m f relation := by
  constructor
  · intro _ d hd last hlast
    have mem := mem_declarations_of_meant hf hd
    rw [← explicit d mem, agree d mem last (List.mem_of_getLast? hlast)]
  · intro own last hown hlast
    exact agree own (mem_declarations hf (List.mem_of_getLast? hown)) last
      (List.mem_of_getLast? hlast)

/-- A junction has no tenancy of its own: in a feature with a tenant default it is never
covered. -/
theorem junction_not_covered {m : Module} {f g : Feature} (hf : f ∈ m.features)
    {relation declaring : String} {mt : ManyThrough}
    (single : declarations m relation = [(g, synthesizeJunctionResource declaring mt)])
    (axis : g.defaults.tenancy.any hasAxis) : ¬ Covered m f relation := by
  intro covered
  have needs := covered.needs (.inl (by rw [single]; rfl)) _
    (meant_of_single hf single)
    (g, synthesizeJunctionResource declaring mt) (by rw [single]; rfl)
  have tenant := needs.1
  cases htenancy : g.defaults.tenancy with
  | none =>
      rw [htenancy] at axis
      cases axis
  | some t =>
      rw [htenancy, Option.any_some] at axis
      simp only [required, effectiveTenancy, synthesizeJunctionResource, htenancy, recorded,
        restrictOnDeleteScopeEntry, Option.none_or, Option.getD_some, axis] at tenant
      exact absurd tenant (by decide)

/-! ### A feature with tenancy by default -/

def customer : Resource where
  name := "Customer"

/-- `restrict on_delete references customer via plan_id`. -/
def plan : Resource where
  name := "Plan"
  restrictOnDelete := [{ relation := "customer", fk := "plan_id" }]

def crm : Feature where
  name := "crm"
  defaults := { tenancy := some .org }
  resources := [customer, plan]

/-- The customers are tenant scoped by default, and the guard of the plans probes all of them. -/
theorem default_tenancy_ignored :
    effectiveTenancy crm customer = .org ∧
      declarations ⟨[crm]⟩ "customer" = [(crm, customer)] ∧
      ((moduleResources (resolved ⟨[crm]⟩)).flatMap (·.restrictOnDelete)).map flags =
        [(false, false)] ∧
      ¬ GuardsScoped (resolved ⟨[crm]⟩) := by
  have last : (declarations ⟨[crm]⟩ "customer").getLast? = some (crm, customer) := rfl
  refine ⟨rfl, rfl, rfl, ?_⟩
  intro each
  rw [resolved_eq] at each
  have one := each _ (.head _) _ (.tail _ (.head _)) _ (.head _)
  rw [guardScoped_onGuards] at one
  have flagged := one.single (crm, customer) rfl
  let guard : RestrictOnDelete := { relation := "customer", fk := "plan_id" }
  have recorded : flags (applyScope (scopeIndex (moduleResources ⟨[crm]⟩)) guard) =
      recorded (crm, customer) := flags_applyScope last
  rw [recorded] at flagged
  cases flagged

end Lazuli.Analyzer

/-!
The queries of the conventions (`conventions/mod.rs`, `crud.rs`, `me_mode.rs`).

A resource that asks for `crud` is given a lookup and a list, one that asks for `me` a lookup of
the caller's own row if it has an actor. Nothing but its name ties a query to the resource. What
the author has written under such a name stays.
-/

namespace Lazuli.Analyzer

open Ir

/-! ### Names -/

def lookupName (r : Resource) : String := "lookup_" ++ pascalToSnake r.name

def listName (r : Resource) : String := "list_" ++ pascalToSnake r.name ++ "s"

def lookupMyName (r : Resource) : String := "lookup_my_" ++ pascalToSnake r.name

/-! ### The actor of a resource -/

inductive MeMode where
  | userKeyed
  | userKeyedNoOrg
  | orgKeyed
  | selfKeyed
  deriving DecidableEq

def isNamedType (name : String) : TypeRef → Bool
  | .userDefined q => q.name = name
  | _ => false

def classifyMeMode (r : Resource) : Option MeMode :=
  let hasUserRequired := r.fields.any fun f =>
    f.name = "user" && f.required && isNamedType "User" f.typeRef
  let hasOrgField := r.fields.any fun f => f.name = "org" && isNamedType "Org" f.typeRef
  let hasOrgRequired := r.fields.any fun f =>
    f.name = "org" && f.required && isNamedType "Org" f.typeRef
  if r.name = "User" then some .selfKeyed
  else if hasUserRequired then some (if hasOrgField then .userKeyed else .userKeyedNoOrg)
  else if hasOrgRequired then some .orgKeyed
  else none

/-! ### The pass -/

/-- The queries of the bundles of a resource. -/
def conventionQueries (r : Resource) : List Query :=
  (if .crud ∈ r.conventions then [⟨.lookup, lookupName r⟩, ⟨.list, listName r⟩] else []) ++
    if .me ∈ r.conventions ∧ (classifyMeMode r).isSome then [⟨.lookup, lookupMyName r⟩] else []

/-- Those that the author has not written are added. -/
def synthesizeConventions (f : FeatureDecl) : FeatureDecl :=
  let existing := f.queries.map (·.name)
  { f with
    queries := f.queries ++ (f.resources.flatMap conventionQueries).filter fun q =>
      q.name ∉ existing }

end Lazuli.Analyzer
