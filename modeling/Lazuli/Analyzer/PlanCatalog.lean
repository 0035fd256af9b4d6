import Mathlib
import Lazuli.General.Lookup

/-!
The catalog of plans (`crates/lazuli_analyzer/src/plan_gate/mod.rs`).

A plan has features and limits of its own, and may name other plans whose features or limits it
has too. The catalog is built in two passes. The first collects what every plan declares, the
second adds what the plans that it names declare themselves, so that a reference is followed one
step and no further.
-/

namespace Lazuli.Analyzer.Plans

open General

/-! ### Blocks -/

inductive PlanFeatureRef where
  | ident (name : String)
  | crossPlan (other : String)
  deriving DecidableEq

inductive PlanLimitValue where
  | integer (value : Nat)
  | unlimited
  deriving DecidableEq

inductive PlanLimitRef where
  | integer (name : String) (value : Nat)
  | unlimited (name : String)
  | crossPlan (other : String)
  deriving DecidableEq

structure TrialPolicy where
  duration : String
  thenPlan : String
  deriving DecidableEq

structure PlanBlock where
  name : String
  features : List PlanFeatureRef := []
  limits : List PlanLimitRef := []
  trial : Option TrialPolicy := none
  span : Nat × Nat := (0, 0)
  deriving DecidableEq

def PlanFeatureRef.direct : PlanFeatureRef → Option String
  | .ident name => some name
  | .crossPlan _ => none

def PlanFeatureRef.reference : PlanFeatureRef → Option String
  | .ident _ => none
  | .crossPlan other => some other

def PlanLimitRef.direct : PlanLimitRef → Option (String × PlanLimitValue)
  | .integer name value => some (name, .integer value)
  | .unlimited name => some (name, .unlimited)
  | .crossPlan _ => none

def PlanLimitRef.reference : PlanLimitRef → Option String
  | .crossPlan other => some other
  | _ => none

/-! ### The catalog -/

structure Plan where
  name : String
  features : List String
  limits : List (String × PlanLimitValue)
  trial : Option TrialPolicy
  spanRef : Nat × Nat
  deriving DecidableEq

structure PlanCatalog where
  plans : List Plan
  featureCatalog : List String
  limitCatalog : List String
  deriving DecidableEq

/-- The elements of an ordered set that is filled from a list. -/
def sortedSet (names : List String) : List String := names.toFinset.sort

/-- What the first pass keeps of a plan. Of the limits under one name the first is the one that
counts, which is the last that is declared. -/
structure Staging where
  directFeatures : List String
  featureRefs : List String
  directLimits : List (String × PlanLimitValue)
  limitRefs : List String
  trial : Option TrialPolicy
  spanRef : Nat × Nat

def stage (plan : PlanBlock) : Staging where
  directFeatures := plan.features.filterMap (·.direct)
  featureRefs := plan.features.filterMap (·.reference)
  directLimits := (plan.limits.filterMap (·.direct)).reverse
  limitRefs := plan.limits.filterMap (·.reference)
  trial := plan.trial
  spanRef := plan.span

/-- The entry of a plan; a later block replaces one before it. -/
def staging (blocks : List PlanBlock) (name : String) : Option Staging :=
  (lastWhere (·.name = name) blocks).map stage

def expandFeatures (blocks : List PlanBlock) (s : Staging) : List String :=
  sortedSet (s.directFeatures ++ s.featureRefs.flatMap fun other =>
    ((staging blocks other).map (·.directFeatures)).getD [])

/-- A limit that is there already is not replaced. -/
def expandLimits (blocks : List PlanBlock) (s : Staging) : List (String × PlanLimitValue) :=
  let limitMap := s.directLimits ++ s.limitRefs.flatMap fun other =>
    ((staging blocks other).map (·.directLimits)).getD []
  (sortedSet (limitMap.map (·.1))).filterMap fun name =>
    (limitMap.lookup name).map fun value => (name, value)

def expandPlan (blocks : List PlanBlock) (name : String) (s : Staging) : Plan where
  name := name
  features := expandFeatures blocks s
  limits := expandLimits blocks s
  trial := s.trial
  spanRef := s.spanRef

def buildPlanCatalog (blocks : List PlanBlock) : PlanCatalog :=
  let plans := (sortedSet (blocks.map (·.name))).filterMap fun name =>
    (staging blocks name).map (expandPlan blocks name)
  { plans := plans
    featureCatalog := sortedSet (plans.flatMap (·.features))
    limitCatalog := sortedSet (plans.flatMap fun plan => plan.limits.map (·.1)) }

/-! ### What a plan has -/

/-- The last block of a name. -/
def Declared (blocks : List PlanBlock) (name : String) (block : PlanBlock) : Prop :=
  ∃ pre post, blocks = pre ++ block :: post ∧ block.name = name ∧ ∀ later ∈ post, later.name ≠ name

/-- The feature is the block's own, or of a plan that it names. -/
def HasFeature (blocks : List PlanBlock) (block : PlanBlock) (feature : String) : Prop :=
  .ident feature ∈ block.features ∨ ∃ other, .crossPlan other ∈ block.features ∧
    ∃ named, Declared blocks other named ∧ .ident feature ∈ named.features

/-- The value that the block itself has for a limit, the last one of several. -/
def OwnLimit (block : PlanBlock) (limit : String) (value : PlanLimitValue) : Prop :=
  ∃ pre post, block.limits.filterMap (·.direct) = pre ++ (limit, value) :: post ∧
    ∀ later ∈ post, later.1 ≠ limit

/-- A value of the block itself goes before that of a plan that it names, and of these the first
that has one. -/
def HasLimit (blocks : List PlanBlock) (block : PlanBlock) (limit : String)
    (value : PlanLimitValue) : Prop :=
  OwnLimit block limit value ∨ (∀ own, ¬ OwnLimit block limit own) ∧
    ∃ pre other post, block.limits.filterMap (·.reference) = pre ++ other :: post ∧
      (∃ named, Declared blocks other named ∧ OwnLimit named limit value) ∧
      ∀ earlier ∈ pre, ∀ named, Declared blocks earlier named → ∀ own, ¬ OwnLimit named limit own

/-- There is a chain of references from one plan to the other. -/
def Reaches (blocks : List PlanBlock) : String → String → Prop :=
  Relation.ReflTransGen fun name other =>
    ∃ block, Declared blocks name block ∧ .crossPlan other ∈ block.features

/-- A plan of the catalog is what the last block of its name says. -/
structure Expands (blocks : List PlanBlock) (plan : Plan) (block : PlanBlock) : Prop where
  declared : Declared blocks plan.name block
  features : ∀ feature, feature ∈ plan.features ↔ HasFeature blocks block feature
  limits : ∀ limit value, (limit, value) ∈ plan.limits ↔ HasLimit blocks block limit value
  trial : plan.trial = block.trial

section Expansion

variable {blocks : List PlanBlock} {block : PlanBlock} {name limit : String}
  {value : PlanLimitValue} {s : Staging}

theorem mem_sortedSet {names : List String} : name ∈ sortedSet names ↔ name ∈ names := by
  rw [sortedSet, Finset.mem_sort, List.mem_toFinset]

/-- Which names there are is all that matters. -/
theorem sortedSet_congr {names others : List String} (h : ∀ name, name ∈ names ↔ name ∈ others) :
    sortedSet names = sortedSet others := by
  unfold sortedSet
  congr 1
  ext name
  rw [List.mem_toFinset, List.mem_toFinset, h]

theorem staging_eq_some : staging blocks name = some s ↔
    ∃ block, Declared blocks name block ∧ stage block = s := by
  simp only [staging, Option.map_eq_some_iff, Declared, lastWhere_eq_some_iff, decide_eq_true_eq]

theorem lookup_directLimits : (stage block).directLimits.lookup limit = some value ↔
    OwnLimit block limit value := lookup_reverse_eq_some_iff

/-- What is found of a plan that is named. -/
theorem mem_getD_staging {α : Type} {f : Staging → List α} {a : α} :
    a ∈ ((staging blocks name).map f).getD [] ↔
      ∃ block, Declared blocks name block ∧ a ∈ f (stage block) := by
  cases hs : staging blocks name with
  | none =>
      refine iff_of_false List.not_mem_nil ?_
      rintro ⟨block, hblock, -⟩
      cases hs.symm.trans (staging_eq_some.mpr ⟨block, hblock, rfl⟩)
  | some s =>
      obtain ⟨block, hblock, rfl⟩ := staging_eq_some.mp hs
      refine ⟨fun ha => ⟨block, hblock, ha⟩, ?_⟩
      rintro ⟨other, hother, ha⟩
      have heq := hs.symm.trans (staging_eq_some.mpr ⟨other, hother, rfl⟩)
      exact (Option.some_inj.mp heq).symm ▸ ha

theorem mem_direct {refs : List PlanFeatureRef} :
    name ∈ refs.filterMap (·.direct) ↔ .ident name ∈ refs := by
  rw [List.mem_filterMap]
  constructor
  · rintro ⟨ref, hmem, href⟩
    cases ref with
    | ident => exact Option.some_inj.mp href ▸ hmem
    | crossPlan => cases href
  · exact fun h => ⟨_, h, rfl⟩

theorem mem_reference {refs : List PlanFeatureRef} :
    name ∈ refs.filterMap (·.reference) ↔ .crossPlan name ∈ refs := by
  rw [List.mem_filterMap]
  constructor
  · rintro ⟨ref, hmem, href⟩
    cases ref with
    | ident => cases href
    | crossPlan => exact Option.some_inj.mp href ▸ hmem
  · exact fun h => ⟨_, h, rfl⟩

theorem mem_expandFeatures : name ∈ expandFeatures blocks (stage block) ↔
    HasFeature blocks block name := by
  rw [expandFeatures, mem_sortedSet, List.mem_append, List.mem_flatMap, HasFeature]
  refine or_congr mem_direct (exists_congr fun other => and_congr mem_reference ?_)
  exact mem_getD_staging.trans (exists_congr fun named => and_congr_right fun _ => mem_direct)

/-- The limit that a plan gives to those that name it. -/
theorem lookup_getD_staging :
    (((staging blocks name).map (·.directLimits)).getD []).lookup limit = some value ↔
      ∃ block, Declared blocks name block ∧ OwnLimit block limit value := by
  cases hs : staging blocks name with
  | none =>
      refine iff_of_false (by simp) ?_
      rintro ⟨block, hblock, -⟩
      cases hs.symm.trans (staging_eq_some.mpr ⟨block, hblock, rfl⟩)
  | some s =>
      obtain ⟨block, hblock, rfl⟩ := staging_eq_some.mp hs
      refine ⟨fun h => ⟨block, hblock, lookup_directLimits.mp h⟩, ?_⟩
      rintro ⟨other, hother, h⟩
      have heq := hs.symm.trans (staging_eq_some.mpr ⟨other, hother, rfl⟩)
      exact (Option.some_inj.mp heq).symm ▸ lookup_directLimits.mpr h

theorem mem_expandLimits : (limit, value) ∈ expandLimits blocks (stage block) ↔
    HasLimit blocks block limit value := by
  have hnone (name : String) :
      (((staging blocks name).map (·.directLimits)).getD []).lookup limit = none ↔
        ∀ named, Declared blocks name named → ∀ own, ¬ OwnLimit named limit own := by
    rw [Option.eq_none_iff_forall_ne_some]
    simp only [ne_eq, lookup_getD_staging, not_exists, not_and]
    exact ⟨fun h named hnamed own => h own named hnamed, fun h own named hnamed => h named hnamed own⟩
  have hlookup :
      ((stage block).directLimits ++ (stage block).limitRefs.flatMap fun other =>
        ((staging blocks other).map (·.directLimits)).getD []).lookup limit = some value ↔
      HasLimit blocks block limit value := by
    rw [List.lookup_append, lookup_flatMap, Option.or_eq_some_iff, List.findSome?_eq_some_iff,
      Option.eq_none_iff_forall_ne_some]
    simp only [ne_eq, lookup_directLimits, lookup_getD_staging, hnone]
    rfl
  rw [← hlookup, expandLimits, List.mem_filterMap]
  constructor
  · rintro ⟨name, -, h⟩
    obtain ⟨own, hown, heq⟩ := Option.map_eq_some_iff.mp h
    obtain ⟨rfl, rfl⟩ := Prod.mk.inj heq
    exact hown
  · intro h
    exact ⟨limit, mem_sortedSet.mpr (mem_map_fst_iff.mpr ⟨value, h⟩), by rw [h]; rfl⟩

theorem mem_plans {plan : Plan} : plan ∈ (buildPlanCatalog blocks).plans ↔
    ∃ block, Declared blocks plan.name block ∧ plan = expandPlan blocks plan.name (stage block) := by
  rw [buildPlanCatalog, List.mem_filterMap]
  simp only [Option.map_eq_some_iff, staging_eq_some, mem_sortedSet]
  constructor
  · rintro ⟨name, -, s, ⟨block, hblock, rfl⟩, rfl⟩
    exact ⟨block, hblock, rfl⟩
  · rintro ⟨block, hblock, hplan⟩
    have hmem : block ∈ blocks := by
      obtain ⟨pre, post, rfl, -⟩ := hblock
      exact List.mem_append_right _ List.mem_cons_self
    have hname : block.name = plan.name := by
      obtain ⟨pre, post, -, hname, -⟩ := hblock
      exact hname
    exact ⟨plan.name, List.mem_map.mpr ⟨block, hmem, hname⟩, _, ⟨block, hblock, rfl⟩, hplan.symm⟩

theorem expands_of_mem {plan : Plan} (h : plan ∈ (buildPlanCatalog blocks).plans) :
    ∃ block, Expands blocks plan block := by
  obtain ⟨block, hblock, hplan⟩ := mem_plans.mp h
  refine ⟨block, hblock, fun feature => ?_, fun limit value => ?_, ?_⟩
  · rw [hplan]
    exact mem_expandFeatures
  · rw [hplan]
    exact mem_expandLimits
  · rw [hplan]
    rfl

/-- Where every name has one block the order of the blocks does not matter. -/
theorem staging_perm {others : List PlanBlock} (hperm : blocks.Perm others)
    (hnodup : (blocks.map (·.name)).Nodup) : staging blocks = staging others := by
  funext name
  unfold staging
  congr 1
  have unique (block other : PlanBlock) (hblock : block ∈ blocks) (hother : other ∈ blocks)
      (hname : block.name = name) (hsame : other.name = name) : other = block :=
    List.inj_on_of_nodup_map hnodup hother hblock (hsame.trans hname.symm)
  cases hlast : lastWhere (fun b : PlanBlock => decide (b.name = name)) blocks with
  | none =>
      rw [lastWhere, List.find?_eq_none] at hlast
      refine (List.find?_eq_none.mpr fun block hblock => ?_).symm
      exact hlast block (List.mem_reverse.mpr (hperm.mem_iff.mpr (List.mem_reverse.mp hblock)))
  | some block =>
      obtain ⟨hblock, hname⟩ := lastWhere_some hlast
      refine (lastWhere_of_unique (hperm.mem_iff.mp hblock) hname fun other hother hsame => ?_).symm
      exact unique block other hblock (hperm.mem_iff.mpr hother) (of_decide_eq_true hname)
        (of_decide_eq_true hsame)

theorem buildPlanCatalog_perm {others : List PlanBlock} (hperm : blocks.Perm others)
    (hnodup : (blocks.map (·.name)).Nodup) : buildPlanCatalog blocks = buildPlanCatalog others := by
  have hstaging := staging_perm hperm hnodup
  have hexpand : expandPlan blocks = expandPlan others := by
    funext name s
    simp only [expandPlan, expandFeatures, expandLimits, hstaging]
  have hnames : sortedSet (blocks.map (·.name)) = sortedSet (others.map (·.name)) :=
    sortedSet_congr fun name => (hperm.map _).mem_iff
  simp only [buildPlanCatalog, hstaging, hexpand, hnames]

theorem declared_of_mem (h : block ∈ blocks) :
    ∃ last, Declared blocks block.name last := by
  cases hlast : lastWhere (fun b : PlanBlock => decide (b.name = block.name)) blocks with
  | none =>
      rw [lastWhere, List.find?_eq_none] at hlast
      exact absurd (decide_eq_true rfl) (hlast block (List.mem_reverse.mpr h))
  | some last =>
      obtain ⟨s, hs⟩ : ∃ s, staging blocks block.name = some s :=
        ⟨stage last, by rw [staging, hlast, Option.map_some]⟩
      obtain ⟨last, hlast, -⟩ := staging_eq_some.mp hs
      exact ⟨last, hlast⟩

/-- The catalog has every plan once, in the order of the names. -/
theorem plans_names (blocks : List PlanBlock) :
    (buildPlanCatalog blocks).plans.map (·.name) = sortedSet (blocks.map (·.name)) := by
  rw [buildPlanCatalog, List.map_filterMap]
  refine (List.filterMap_congr fun name hname => ?_).trans List.filterMap_some
  obtain ⟨block, hblock, rfl⟩ := List.mem_map.mp (mem_sortedSet.mp hname)
  obtain ⟨last, hlast⟩ := declared_of_mem hblock
  rw [staging_eq_some.mpr ⟨last, hlast, rfl⟩]
  rfl

/-- **Every declared plan is in the catalog once. It has its own features and those that the plans
it names declare, and of a limit its own value or else that of the first plan it names which
declares one. While no name has two blocks, their order does not matter.** -/
theorem plan_catalog_expands (blocks : List PlanBlock) :
    (buildPlanCatalog blocks).plans.map (·.name) = sortedSet (blocks.map (·.name)) ∧
      (∀ plan ∈ (buildPlanCatalog blocks).plans, ∃ block, Expands blocks plan block) ∧
      ∀ others, blocks.Perm others → (blocks.map (·.name)).Nodup →
        buildPlanCatalog blocks = buildPlanCatalog others :=
  ⟨plans_names blocks, fun _ hplan => expands_of_mem hplan,
    fun _ hperm hnodup => buildPlanCatalog_perm hperm hnodup⟩

end Expansion

/-! ### Three plans -/

def bronze : PlanBlock := { name := "bronze", features := [.ident "login"] }

def silver : PlanBlock := { name := "silver", features := [.ident "search", .crossPlan "bronze"] }

def gold : PlanBlock := { name := "gold", features := [.ident "export", .crossPlan "silver"] }

def tiers : List PlanBlock := [gold, silver, bronze]

theorem plan_catalog_expands_tiers :
    tiers.Perm tiers.reverse ∧ (tiers.map (·.name)).Nodup ∧
      buildPlanCatalog tiers = buildPlanCatalog tiers.reverse :=
  have hperm : tiers.Perm tiers.reverse := tiers.reverse_perm.symm
  ⟨hperm, by decide, (plan_catalog_expands tiers).2.2 tiers.reverse hperm (by decide)⟩

/-- `gold` names `silver`, which names `bronze`, whose feature it does not have. -/
theorem references_followed_once :
    ¬ ∀ (blocks : List PlanBlock), ∀ plan ∈ (buildPlanCatalog blocks).plans, ∀ feature,
      feature ∈ plan.features ↔ ∃ other block, Reaches blocks plan.name other ∧
        Declared blocks other block ∧ .ident feature ∈ block.features := by
  intro claimed
  have hgold : Declared tiers "gold" gold := ⟨[], [silver, bronze], rfl, rfl, by decide⟩
  have hsilver : Declared tiers "silver" silver := ⟨[gold], [bronze], rfl, rfl, by decide⟩
  have hbronze : Declared tiers "bronze" bronze := ⟨[gold, silver], [], rfl, rfl, by decide⟩
  have hreaches : Reaches tiers "gold" "bronze" :=
    .head ⟨gold, hgold, by decide⟩ (.single ⟨silver, hsilver, by decide⟩)
  have hplan : expandPlan tiers "gold" (stage gold) ∈ (buildPlanCatalog tiers).plans :=
    mem_plans.mpr ⟨gold, hgold, rfl⟩
  have hlogin := (claimed tiers _ hplan "login").mpr ⟨"bronze", bronze, hreaches, hbronze, by decide⟩
  rcases mem_expandFeatures.mp hlogin with own | ⟨other, hother, named, hnamed, hlogin⟩
  · exact absurd own (by decide)
  · obtain rfl : other = "silver" := by simpa [gold] using hother
    have heq := (staging_eq_some.mpr ⟨named, hnamed, rfl⟩).symm.trans
      (staging_eq_some.mpr ⟨silver, hsilver, rfl⟩)
    have hdirect := congrArg Staging.directFeatures (Option.some_inj.mp heq)
    have hmem : "login" ∈ (stage named).directFeatures := mem_direct.mpr hlogin
    rw [hdirect] at hmem
    exact absurd hmem (by decide)

end Lazuli.Analyzer.Plans
