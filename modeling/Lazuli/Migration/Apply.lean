import Lazuli.Migration.Topo

/-!
Executing the migrations in the order in which they are emitted.

A database knows of each table whether it has an `id` and whether that is unique. `CREATE TABLE
IF NOT EXISTS` leaves a table of the same name as it is, so the first resource of a table name
decides; an index of a later file may still make its `id` unique. Kahn's order sees to it that
the target of a foreign key is there, but not that it has kept its `id`.
-/

namespace Lazuli.Migration

open General Ir

/-! ### The database -/

structure TableState where
  id : Bool
  unique : Bool
  deriving DecidableEq

abbrev Tables := String → Option TableState

/-- A key of the statement on the `id` alone. -/
def SqlColumn.keysId : SqlColumn → Bool
  | .unique _ columns | .primaryKey columns => columns = ["id"]
  | column => column = implicitId

def declaresId (m : Module) (p : Pair) : Bool :=
  (resourceColumns m p.1 p.2).any fun column => column.column = some "id"

def declaresUniqueId (m : Module) (p : Pair) : Bool :=
  (resourceColumns m p.1 p.2).any SqlColumn.keysId

/-- A unique index of the file on the `id` alone, without a condition. -/
def indexesId (m : Module) (p : Pair) : Bool :=
  (resourceIndexes m p.1 p.2).any fun index =>
    index.unique && index.condition.isNone && index.columns = ["id"]

def foreignTables (m : Module) (p : Pair) : List String :=
  (resourceColumns m p.1 p.2).filterMap SqlColumn.target

section Execute

variable (m : Module)

def createTable (s : Tables) (p : Pair) : Tables :=
  if (s (tableOf p)).isSome then s
  else Function.update s (tableOf p) (some ⟨declaresId m p, declaresUniqueId m p⟩)

def createIndexes (s : Tables) (p : Pair) : Tables :=
  if indexesId m p then
    Function.update s (tableOf p) ((s (tableOf p)).map fun state => { state with unique := true })
  else s

def execute (s : Tables) (p : Pair) : Tables := createIndexes m (createTable m s p) p

def executeAll (files : List Pair) : Tables := files.foldl (execute m) fun _ => none

/-- The foreign keys of the statement find a unique `id`, in its own table at the latest. -/
def Accepts (s : Tables) (p : Pair) : Prop :=
  s (tableOf p) = none → ∀ t ∈ foreignTables m p,
    ∃ state, createTable m s p t = some state ∧ state.id = true ∧ state.unique = true

def Applies (files : List Pair) : Prop :=
  ∀ before p after, files = before ++ p :: after → Accepts m (executeAll m before) p

/-! ### The property -/

/-- The order of the migrations is what it is for. -/
structure InOrder : Prop where
  distinct : ((topoSortResources m).map keyOf).Nodup
  covers : ∀ k, k ∈ (topoSortResources m).map keyOf ↔ k ∈ (rawResources m).map keyOf
  perm : ((rawResources m).map keyOf).Nodup → (topoSortResources m).Perm (rawResources m)
  applies : (graph m).Acyclic → Applies m (topoSortResources m)
  smallest : (graph m).Acyclic → (graph m).Greedy ((topoSortResources m).map keyOf)

/-- When `p` is executed, the resource that has created the table `t` has declared an `id` with
a key of its own, or an index has made it unique. -/
def KeepsId (before : List Pair) (p : Pair) (t : String) : Prop :=
  ∀ creator, (before ++ [p]).find? (fun q => tableOf q = t) = some creator →
    declaresId m creator = true ∧
      (declaresUniqueId m creator = true ∨ ∃ q ∈ before, tableOf q = t ∧ indexesId m q = true)

/-- In the order that takes the smallest name first, no foreign key of a table points at one
that has not kept its `id`. -/
def KeyedTargets : Prop :=
  ∀ keys, (graph m).Greedy keys → keys.Perm (nodes m) →
    ∀ before p after, keys.filterMap (byKey (rawResources m)) = before ++ p :: after →
      (∀ q ∈ before, tableOf q ≠ tableOf p) → ∀ t ∈ foreignTables m p, KeepsId m before p t

end Execute

/-! ### What has been executed -/

section State

variable {m : Module} {before : List Pair} {p : Pair} {t : String}

/-- A table as its creator among `created` leaves it, with the indexes of `indexed`. -/
def stateOf (m : Module) (created indexed : List Pair) (t : String) : Option TableState :=
  (created.find? fun q => tableOf q = t).map fun creator =>
    ⟨declaresId m creator,
      declaresUniqueId m creator || indexed.any fun q => tableOf q = t && indexesId m q⟩

theorem stateOf_isSome {created indexed : List Pair} :
    (stateOf m created indexed t).isSome = true ↔ ∃ q ∈ created, tableOf q = t := by
  simp [stateOf]

theorem createTable_stateOf :
    createTable m (stateOf m before before) p t = stateOf m (before ++ [p]) before t := by
  unfold createTable
  have hfind : (before ++ [p]).find? (fun q => tableOf q = t) =
      (before.find? fun q => tableOf q = t).or ([p].find? fun q => tableOf q = t) :=
    List.find?_append
  split
  next known =>
    obtain ⟨q, hq, hqp⟩ := stateOf_isSome.mp known
    cases hcreator : before.find? fun q => tableOf q = t with
    | some creator => simp [stateOf, hcreator]
    | none =>
        have hne : tableOf p ≠ t := by
          intro h
          have := List.find?_eq_none.mp hcreator q hq
          simp [hqp, h] at this
        simp [stateOf, hcreator, hne]
  next unknown =>
    have hnew : ∀ q ∈ before, tableOf q ≠ tableOf p := by
      intro q hq h
      exact unknown (stateOf_isSome.mpr ⟨q, hq, h⟩)
    by_cases ht : t = tableOf p
    · subst ht
      have hcreator : before.find? (fun q => tableOf q = tableOf p) = none := by
        simpa [List.find?_eq_none] using hnew
      have hindexed : (before.any fun q => tableOf q = tableOf p && indexesId m q) = false := by
        simp only [List.any_eq_false, Bool.and_eq_true, decide_eq_true_eq, not_and]
        exact fun q hq h => absurd h (hnew q hq)
      simp [stateOf, hcreator, hindexed]
    · simp [stateOf, Function.update_of_ne ht, Ne.symm ht]

theorem createIndexes_stateOf (created indexed : List Pair) :
    createIndexes m (stateOf m created indexed) p t = stateOf m created (indexed ++ [p]) t := by
  unfold createIndexes
  split
  next hindex =>
    by_cases ht : t = tableOf p
    · subst ht
      simp [stateOf, hindex, Function.comp_def]
    · simp [stateOf, Function.update_of_ne ht, Ne.symm ht]
  next hindex =>
    simp [stateOf, hindex]

theorem executeAll_eq (m : Module) (files : List Pair) :
    executeAll m files = stateOf m files files := by
  induction files using List.reverseRecOn with
  | nil => rfl
  | append_singleton before p ih =>
      have hcreate : createTable m (stateOf m before before) p = stateOf m (before ++ [p]) before :=
        funext fun _ => createTable_stateOf
      rw [executeAll, List.foldl_append]
      show execute m (executeAll m before) p = _
      rw [ih, execute, hcreate]
      exact funext fun _ => createIndexes_stateOf _ _

/-- A file is accepted when the targets of its foreign keys have been created and have kept
their `id`. -/
theorem accepts_iff : Accepts m (executeAll m before) p ↔
    ((∀ q ∈ before, tableOf q ≠ tableOf p) → ∀ t ∈ foreignTables m p,
      (∃ q ∈ before ++ [p], tableOf q = t) ∧ KeepsId m before p t) := by
  have hnone : executeAll m before (tableOf p) = none ↔ ∀ q ∈ before, tableOf q ≠ tableOf p := by
    rw [executeAll_eq, ← Option.not_isSome_iff_eq_none, stateOf_isSome]
    push Not
    rfl
  unfold Accepts
  rw [hnone]
  refine forall_congr' fun _ => forall₂_congr fun t _ => ?_
  have hcreated : (∃ q ∈ before ++ [p], tableOf q = t) ↔
      (stateOf m (before ++ [p]) before t).isSome = true := stateOf_isSome.symm
  rw [executeAll_eq, createTable_stateOf, hcreated]
  unfold KeepsId
  cases hcreator : (before ++ [p]).find? fun q => tableOf q = t with
  | none => simp [stateOf, hcreator]
  | some creator =>
      simp [stateOf, hcreator]

end State

/-! ### Foreign keys -/

section Targets

variable {m : Module} {p : Pair} {t : String}

theorem uniqueFieldsSql_target {fields : List String} {per name : Option String} {c : SqlColumn}
    (h : uniqueFieldsSql fields per name = some c) : c.target = none := by
  unfold uniqueFieldsSql at h
  split at h
  · cases h
  · cases h
    rfl

theorem tableConstraints_target {c : SqlColumn} (hc : c ∈ tableConstraints m p.1 p.2)
    (ht : c.target = some t) :
    ∃ field ∈ p.2.fields, foreignKeyConstraint m field = some (.foreignKey field.name t) := by
  simp only [tableConstraints, List.mem_append] at hc
  rcases hc with ((hc | hc) | hc) | hc
  · obtain ⟨field, -, h⟩ := List.mem_filterMap.mp hc
    rw [uniqueFieldsSql_target h] at ht
    cases ht
  · obtain ⟨constraint, -, h⟩ := List.mem_filterMap.mp hc
    unfold uniqueConstraintSql at h
    split at h
    · split at h
      · cases h
      · rw [uniqueFieldsSql_target h] at ht
        cases ht
    · cases h
  · rw [Option.mem_toList, compositeKeySql, Option.bind_eq_some_iff] at hc
    obtain ⟨ck, -, h⟩ := hc
    split at h
    · cases h
    · cases h
      split at ht
      · cases ht
      · cases ht
  · obtain ⟨field, hfield, h⟩ := List.mem_filterMap.mp hc
    refine ⟨field, hfield, ?_⟩
    rw [h]
    unfold foreignKeyConstraint at h
    split at h
    · obtain ⟨owner, -, rfl⟩ := Option.map_eq_some_iff.mp h
      cases ht
      rfl
    · cases h

theorem fieldColumns_target {resource : Resource} {field : Field} {c : SqlColumn}
    (hc : c ∈ fieldColumns m resource field) : c.target = none := by
  rcases List.mem_cons.mp hc with rfl | hc
  · rfl
  · split at hc
    · rw [List.mem_singleton.mp hc]
      rfl
    · cases hc

theorem missingRotation_target {c : SqlColumn} (hc : c ∈ missingRotation m p.1 p.2)
    (ht : c.target = some t) : t = tableOf p := by
  unfold missingRotation at hc
  split at hc
  · have hmem := (List.mem_filter.mp hc).1
    simp only [rotationColumns, List.mem_cons, List.not_mem_nil, or_false] at hmem
    rcases hmem with rfl | rfl | rfl | rfl
    · cases ht
    · cases ht
    · exact (Option.some.inj ht).symm
    · cases ht
  · cases hc

theorem softDeleteColumns_target {resource : Resource} {c : SqlColumn}
    (hc : c ∈ softDeleteColumns resource) : c.target = none := by
  unfold softDeleteColumns at hc
  split at hc
  · rcases List.mem_cons.mp hc with rfl | hc
    · rfl
    · split at hc
      · rw [List.mem_singleton.mp hc]
        rfl
      · cases hc
  · cases hc

theorem polymorphicRefColumns_target {resource : Resource} {c : SqlColumn}
    (hc : c ∈ polymorphicRefColumns resource) : c.target = none := by
  obtain ⟨pref, -, hc⟩ := List.mem_flatMap.mp hc
  rcases List.mem_cons.mp hc with h | hc
  · rw [h]
    rfl
  · rw [List.mem_singleton.mp hc]
    rfl

/-- The columns that settings bring in refer to nothing. -/
theorem implicit_target {c : SqlColumn}
    (hc : c = implicitId ∨ c = .typed "org_id" "BIGINT" true ∨ c ∈ timestampColumns) :
    c.target = none := by
  rcases hc with rfl | rfl | hc
  · rfl
  · rfl
  · rcases List.mem_cons.mp hc with rfl | hc
    · rfl
    · rw [List.mem_singleton.mp hc]
      rfl

theorem fkTarget_of_constraint {field : Field} {column : String}
    (h : foreignKeyConstraint m field = some (.foreignKey column t)) :
    ∃ k, fkTarget m field = some k ∧ t = lowerSnake (ofLex k).2 := by
  unfold foreignKeyConstraint at h
  split at h
  next qname hqname =>
    obtain ⟨owner, howner, h⟩ := Option.map_eq_some_iff.mp h
    obtain ⟨-, htable⟩ := SqlColumn.foreignKey.inj h
    refine ⟨toLex (owner, qname.name), ?_, htable.symm⟩
    rw [fkTarget, hqname]
    exact congrArg (Option.map fun owner => toLex (owner, qname.name)) howner
  · cases h

/-- A foreign key refers to the table itself, or to that of the pair that a field names. -/
theorem mem_foreignTables (ht : t ∈ foreignTables m p) :
    t = tableOf p ∨ ∃ field ∈ p.2.fields, ∃ k, fkTarget m field = some k ∧
      t = lowerSnake (ofLex k).2 := by
  obtain ⟨c, hc, hct⟩ := List.mem_filterMap.mp ht
  have hsome : c.target ≠ none := by
    rw [hct]
    exact Option.some_ne_none t
  simp only [resourceColumns, List.mem_append] at hc
  rcases hc with ((((((hc | hc) | hc) | hc) | hc) | hc) | hc) | hc
  · split at hc
    · cases hc
    · exact absurd (implicit_target (.inl (List.mem_singleton.mp hc))) hsome
  · split at hc
    · exact absurd (implicit_target (.inr (.inl (List.mem_singleton.mp hc)))) hsome
    · cases hc
  · obtain ⟨field, -, hc⟩ := List.mem_flatMap.mp hc
    exact absurd (fieldColumns_target hc) hsome
  · exact .inl (missingRotation_target hc hct)
  · split at hc
    · exact absurd (implicit_target (.inr (.inr hc))) hsome
    · cases hc
  · exact absurd (softDeleteColumns_target hc) hsome
  · obtain ⟨field, hfield, h⟩ := tableConstraints_target hc hct
    exact .inr ⟨field, hfield, fkTarget_of_constraint h⟩
  · exact absurd (polymorphicRefColumns_target hc) hsome

/-- In a greedy order the target of a foreign key has been created. -/
theorem target_created {keys : List Key} (greedy : (graph m).Greedy keys)
    {before after : List Pair}
    (hfiles : keys.filterMap (byKey (rawResources m)) = before ++ p :: after)
    (ht : t ∈ foreignTables m p) : ∃ q ∈ before ++ [p], tableOf q = t := by
  have hkeys : keys = before.map keyOf ++ keyOf p :: after.map keyOf := by
    have hall := map_keyOf_filterMap greedy.subset
    rw [hfiles] at hall
    simpa using hall.symm
  have hp : p ∈ rawResources m := by
    have hmem : p ∈ keys.filterMap (byKey (rawResources m)) := by
      rw [hfiles]
      exact List.mem_append_right _ List.mem_cons_self
    obtain ⟨k, -, hk⟩ := List.mem_filterMap.mp hmem
    exact mem_of_byKey hk
  rcases mem_foreignTables ht with rfl | ⟨field, hfield, k, hk, rfl⟩
  · exact ⟨p, by simp, rfl⟩
  by_cases hself : k = keyOf p
  · exact ⟨p, by simp, by rw [hself]; rfl⟩
  · have hneeds : k ∈ (graph m).needs (keyOf p) :=
      Kahn.Graph.mem_needs.mpr (mem_edges.mpr ⟨p, hp, field, hfield, hk, hself, rfl⟩)
    rw [hkeys] at greedy
    obtain ⟨q, hq, rfl⟩ := List.mem_map.mp (greedy.needs_before k hneeds)
    exact ⟨q, List.mem_append_left _ hq, rfl⟩

end Targets

/-! ### The order -/

section Order

variable {m : Module}

/-- The files of a greedy order are executed when the targets keep their `id`. -/
theorem applies_of_greedy {keys : List Key} (greedy : (graph m).Greedy keys) :
    Applies m (keys.filterMap (byKey (rawResources m))) ↔
      ∀ before p after, keys.filterMap (byKey (rawResources m)) = before ++ p :: after →
        (∀ q ∈ before, tableOf q ≠ tableOf p) → ∀ t ∈ foreignTables m p, KeepsId m before p t := by
  unfold Applies
  refine forall₃_congr fun before p after => forall_congr' fun hfiles => ?_
  rw [accepts_iff]
  refine forall_congr' fun _ => forall₂_congr fun t ht => ?_
  rw [and_iff_right (target_created greedy hfiles ht)]

theorem applies_iff (acyclic : (graph m).Acyclic) :
    Applies m (topoSortResources m) ↔ KeyedTargets m := by
  have greedy := orderedKeys_greedy acyclic
  rw [topoSortResources_eq, applies_of_greedy greedy]
  constructor
  · intro h keys hkeys hperm
    obtain rfl : keys = orderedKeys m :=
      hkeys.unique greedy (hperm.trans (orderedKeys_perm m).symm).length_eq
    exact h
  · intro h
    exact h (orderedKeys m) greedy (orderedKeys_perm m)

end Order

/-- The migrations are in an order in which they can be executed exactly when the references
have a cycle or their targets keep a unique `id`; the rest holds of every module. -/
theorem inOrder_iff (m : Module) : InOrder m ↔ ((graph m).Acyclic → KeyedTargets m) := by
  constructor
  · intro h acyclic
    exact (applies_iff acyclic).mp (h.applies acyclic)
  · intro h
    refine ⟨?_, fun k => ?_, topoSortResources_perm, fun acyclic => ?_, fun acyclic => ?_⟩
    · rw [map_keyOf_topoSortResources]
      exact (orderedKeys_perm m).nodup_iff.mpr (nodes_nodup m)
    · rw [map_keyOf_topoSortResources, (orderedKeys_perm m).mem_iff, mem_nodes]
    · exact (applies_iff acyclic).mpr (h acyclic)
    · rw [map_keyOf_topoSortResources]
      exact orderedKeys_greedy acyclic

/-! ### Grades of an enrollment -/

/-- The key of an enrollment is a student and a course. -/
def enrollment : Resource where
  name := "Enrollment"
  fields := [{ name := "student", typeRef := .builtin .id, required := true },
    { name := "course", typeRef := .builtin .id, required := true }]
  compositeKey := some ⟨["student", "course"], true⟩

def grade : Resource where
  name := "Grade"
  fields :=
    [{ name := "enrollment", typeRef := .userDefined ⟨none, "Enrollment"⟩, required := true }]

def school : Feature := { name := "school", resources := [grade, enrollment] }

def schoolModule : Module := ⟨[school]⟩

/-- The table of the enrollments comes first, without the `id` that the grades refer to. -/
theorem composite_key_breaks_reference :
    (graph schoolModule).Acyclic ∧
      topoSortResources schoolModule = [(school, enrollment), (school, grade)] ∧
      ¬ InOrder schoolModule := by
  have acyclic : (graph schoolModule).Acyclic :=
    Kahn.Graph.Acyclic.of_lt (g := graph schoolModule)
      (show ∀ e ∈ edges schoolModule, e.target < e.dependent by decide +kernel)
  have hkeys : orderedKeys schoolModule = [keyOf (school, enrollment), keyOf (school, grade)] := by
    decide +kernel
  have hfiles : topoSortResources schoolModule = [(school, enrollment), (school, grade)] := by
    rw [topoSortResources_eq, hkeys]
    rfl
  refine ⟨acyclic, hfiles, fun h => ?_⟩
  have accepted := h.applies acyclic [(school, enrollment)] (school, grade) [] hfiles
  rw [accepts_iff] at accepted
  have kept := (accepted (by decide +kernel) "enrollment" (by decide +kernel)).2
    (school, enrollment) (by rfl)
  have hid : declaresId schoolModule (school, enrollment) = false := by decide +kernel
  rw [hid] at kept
  exact Bool.false_ne_true kept.1

end Lazuli.Migration
