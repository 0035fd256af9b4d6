import Mathlib.Data.Prod.Lex
import Mathlib.Data.String.Basic
import Lazuli.General.Kahn
import Lazuli.Migration.Indexes

/-!
The order of the migrations (`emitter/migration_ddl/topo.rs`, `emit_migrations` in `mod.rs`).

Each resource waits for those that its foreign keys refer to. Kahn's algorithm goes through the
pairs of a feature and a resource, by their names.
-/

namespace Lazuli.Migration

open General Ir

abbrev Pair := Feature × Resource

/-- The names of a pair, the feature first. -/
abbrev Key := String ×ₗ String

def keyOf (p : Pair) : Key := toLex (p.1.name, p.2.name)

def tableOf (p : Pair) : String := lowerSnake p.2.name

/-- All pairs, in the order of the module. -/
def rawResources (m : Module) : List Pair :=
  m.features.flatMap fun feature => feature.resources.map fun resource => (feature, resource)

/-- The last pair under a key. -/
def byKey (resources : List Pair) (k : Key) : Option Pair :=
  resources.reverse.find? fun p => keyOf p = k

/-- The pair that a field refers to. -/
def fkTarget (m : Module) (field : Field) : Option Key :=
  match field.typeRef with
  | .userDefined qname => (foreignKeyOwner m qname).map fun owner => toLex (owner, qname.name)
  | _ => none

/-- A reference of a resource to itself is no edge. -/
def edgesOf (m : Module) (p : Pair) : List (Kahn.Edge Key) :=
  ((p.2.fields.filterMap (fkTarget m)).filter (· ≠ keyOf p)).map fun target => ⟨keyOf p, target⟩

def edges (m : Module) : List (Kahn.Edge Key) := (rawResources m).flatMap (edgesOf m)

def nodes (m : Module) : List Key := Kahn.sortedOf ((rawResources m).map keyOf)

/-- With a cycle, what could not be placed comes last in the order of the keys. -/
def topoSortResources (m : Module) : List Pair :=
  let resources := rawResources m
  let ordered := (Kahn.place (nodes m) (edges m)).filterMap (byKey resources)
  if ordered.length ≠ resources.length then
    ordered ++ (Kahn.unplaced (nodes m) (edges m)).filterMap (byKey resources)
  else ordered

structure GeneratedFile where
  path : String
  contents : String

/-- A number of three digits or more. -/
def paddedIndex (n : Nat) : String :=
  String.ofList (List.replicate (3 - (toString n).length) '0') ++ toString n

def upMigration (m : Module) (sourceLabel : String) (idx : Nat) (p : Pair) : GeneratedFile where
  path := "migrations/" ++ paddedIndex (idx + 1) ++ "_" ++ p.1.name ++ "_" ++ tableOf p ++ ".sql"
  contents := emitResourceMigration m p.1 p.2 sourceLabel

/-- The files that create the tables, in their order. -/
def emitUpMigrations (m : Module) (sourceLabel : String) : List GeneratedFile :=
  (topoSortResources m).mapIdx (upMigration m sourceLabel)

/-! ### Keys and pairs -/

section Keys

variable {m : Module} {p : Pair} {k : Key} {resources : List Pair}

theorem mem_rawResources : p ∈ rawResources m ↔ p.1 ∈ m.features ∧ p.2 ∈ p.1.resources := by
  obtain ⟨feature, resource⟩ := p
  simp [rawResources]

theorem keyOf_of_byKey (h : byKey resources k = some p) : keyOf p = k := by
  simpa using List.find?_some h

theorem mem_of_byKey (h : byKey resources k = some p) : p ∈ resources :=
  List.mem_reverse.mp (List.mem_of_find?_eq_some h)

theorem exists_byKey (h : k ∈ resources.map keyOf) : ∃ p, byKey resources k = some p := by
  obtain ⟨p, hp, rfl⟩ := List.mem_map.mp h
  exact Option.isSome_iff_exists.mp
    (List.find?_isSome.mpr ⟨p, List.mem_reverse.mpr hp, decide_eq_true rfl⟩)

/-- Where the keys are distinct every pair is the one under its key. -/
theorem byKey_keyOf (distinct : (resources.map keyOf).Nodup) (hp : p ∈ resources) :
    byKey resources (keyOf p) = some p := by
  obtain ⟨q, hq⟩ := exists_byKey (List.mem_map_of_mem hp)
  rw [hq, List.inj_on_of_nodup_map distinct (mem_of_byKey hq) hp (keyOf_of_byKey hq)]

theorem mem_nodes : k ∈ nodes m ↔ k ∈ (rawResources m).map keyOf := Kahn.mem_sortedOf

theorem featureDeclaresResource_iff {feature resource : String} :
    featureDeclaresResource m feature resource = true ↔ toLex (feature, resource) ∈ nodes m := by
  simp only [featureDeclaresResource, List.any_eq_true, Bool.and_eq_true, decide_eq_true_eq,
    mem_nodes, List.mem_map, keyOf, EmbeddingLike.apply_eq_iff_eq, Prod.mk.injEq, Prod.exists,
    mem_rawResources]
  constructor
  · rintro ⟨f, hf, rfl, r, hr, rfl⟩
    exact ⟨f, r, ⟨hf, hr⟩, rfl, rfl⟩
  · rintro ⟨f, r, ⟨hf, hr⟩, rfl, rfl⟩
    exact ⟨f, hf, rfl, r, hr, rfl⟩

theorem foreignKeyOwner_declares {qname : QualifiedName} {owner : String}
    (h : foreignKeyOwner m qname = some owner) :
    featureDeclaresResource m owner qname.name = true :=
  (Option.filter_eq_some_iff.mp h).2

theorem fkTarget_mem {field : Field} (h : fkTarget m field = some k) : k ∈ nodes m := by
  unfold fkTarget at h
  split at h
  · obtain ⟨owner, howner, rfl⟩ := Option.map_eq_some_iff.mp h
    exact featureDeclaresResource_iff.mp (foreignKeyOwner_declares howner)
  · cases h

theorem mem_edges {e : Kahn.Edge Key} : e ∈ edges m ↔
    ∃ p ∈ rawResources m, ∃ field ∈ p.2.fields, fkTarget m field = some e.target ∧
      e.target ≠ keyOf p ∧ e.dependent = keyOf p := by
  obtain ⟨dependent, target⟩ := e
  simp only [edges, edgesOf, List.mem_flatMap, List.mem_map, List.mem_filter, List.mem_filterMap,
    decide_eq_true_eq, Kahn.Edge.mk.injEq]
  constructor
  · rintro ⟨p, hp, t, ⟨⟨field, hfield, ht⟩, hne⟩, rfl, rfl⟩
    exact ⟨p, hp, field, hfield, ht, hne, rfl⟩
  · rintro ⟨p, hp, field, hfield, ht, hne, rfl⟩
    exact ⟨p, hp, target, ⟨⟨field, hfield, ht⟩, hne⟩, rfl, rfl⟩

end Keys

/-- The reference graph. -/
def graph (m : Module) : Kahn.Graph Key where
  nodes := nodes m
  edges := edges m
  dependent_mem := by
    intro e he
    obtain ⟨p, hp, -, -, -, -, hk⟩ := mem_edges.mp he
    exact hk ▸ mem_nodes.mpr (List.mem_map_of_mem hp)
  target_mem := by
    intro e he
    obtain ⟨-, -, field, -, ht, -, -⟩ := mem_edges.mp he
    exact fkTarget_mem ht
  irrefl := by
    intro e he
    obtain ⟨p, -, -, -, -, hne, hk⟩ := mem_edges.mp he
    exact hk ▸ hne

/-! ### The order -/

section Order

variable {m : Module}

/-- The order of the keys, cycles or not. -/
def orderedKeys (m : Module) : List Key := Kahn.order (nodes m) (edges m)

theorem increasing_nodes (m : Module) : Kahn.Increasing (graph m).nodes :=
  Kahn.increasing_sortedOf _

theorem orderedKeys_perm (m : Module) : (orderedKeys m).Perm (nodes m) :=
  Kahn.order_perm (g := graph m) (increasing_nodes m)

theorem orderedKeys_greedy (acyclic : (graph m).Acyclic) : (graph m).Greedy (orderedKeys m) :=
  Kahn.order_greedy (increasing_nodes m) acyclic

/-- A node has a pair under it. -/
theorem map_keyOf_filterMap {keys : List Key} (h : keys ⊆ nodes m) :
    (keys.filterMap (byKey (rawResources m))).map keyOf = keys := by
  induction keys with
  | nil => rfl
  | cons k keys ih =>
      obtain ⟨hk, hkeys⟩ := List.cons_subset.mp h
      obtain ⟨p, hp⟩ := exists_byKey (mem_nodes.mp hk)
      rw [List.filterMap_cons, hp, List.map_cons, keyOf_of_byKey hp, ih hkeys]

theorem place_subset (m : Module) : Kahn.place (nodes m) (edges m) ⊆ nodes m :=
  (Kahn.place_spec (g := graph m) (increasing_nodes m)).1.subset

theorem nodes_nodup (m : Module) : (nodes m).Nodup := (increasing_nodes m).imp ne_of_lt

/-- The fallback appends nothing when everything has been placed. -/
theorem topoSortResources_eq (m : Module) :
    topoSortResources m = (orderedKeys m).filterMap (byKey (rawResources m)) := by
  have hsplit : (orderedKeys m).filterMap (byKey (rawResources m)) =
      (Kahn.place (nodes m) (edges m)).filterMap (byKey (rawResources m)) ++
        (Kahn.unplaced (nodes m) (edges m)).filterMap (byKey (rawResources m)) := by
    rw [orderedKeys, Kahn.order, List.filterMap_append]
  rw [hsplit]
  unfold topoSortResources
  dsimp only
  split
  · rfl
  next hlength =>
    have hkeys := congrArg List.length (map_keyOf_filterMap (place_subset m))
    rw [List.length_map, not_ne_iff.mp hlength] at hkeys
    have hle : (nodes m).length ≤ (rawResources m).length := by
      have hsub : nodes m ⊆ (rawResources m).map keyOf := fun k hk => mem_nodes.mp hk
      simpa using ((nodes_nodup m).subperm hsub).length_le
    have hall : (Kahn.place (nodes m) (edges m)).Perm (nodes m) :=
      ((Kahn.place_spec (g := graph m) (increasing_nodes m)).1.nodup.subperm
        (place_subset m)).perm_of_length_le (hle.trans hkeys.le)
    have hrest : Kahn.unplaced (nodes m) (edges m) = [] := by
      rw [Kahn.unplaced, List.filter_eq_nil_iff]
      intro k hk
      simp [hall.mem_iff.mpr hk]
    rw [hrest, List.filterMap_nil, List.append_nil]

theorem map_keyOf_topoSortResources (m : Module) :
    (topoSortResources m).map keyOf = orderedKeys m := by
  rw [topoSortResources_eq]
  exact map_keyOf_filterMap (orderedKeys_perm m).subset

theorem topoSortResources_subset (m : Module) : topoSortResources m ⊆ rawResources m := by
  intro p hp
  rw [topoSortResources_eq] at hp
  obtain ⟨k, -, hk⟩ := List.mem_filterMap.mp hp
  exact mem_of_byKey hk

theorem topoSortResources_perm (distinct : ((rawResources m).map keyOf).Nodup) :
    (topoSortResources m).Perm (rawResources m) := by
  have hnodup : ((topoSortResources m).map keyOf).Nodup := by
    rw [map_keyOf_topoSortResources]
    exact (orderedKeys_perm m).nodup_iff.mpr (nodes_nodup m)
  have hcover : rawResources m ⊆ topoSortResources m := by
    intro p hp
    rw [topoSortResources_eq]
    refine List.mem_filterMap.mpr ⟨keyOf p, ?_, byKey_keyOf distinct hp⟩
    exact (orderedKeys_perm m).mem_iff.mpr (mem_nodes.mpr (List.mem_map_of_mem hp))
  exact (List.perm_ext_iff_of_nodup hnodup.of_map distinct.of_map).mpr fun p =>
    ⟨(topoSortResources_subset m ·), (hcover ·)⟩

end Order

end Lazuli.Migration
