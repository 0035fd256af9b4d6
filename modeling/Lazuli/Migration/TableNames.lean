import Lazuli.Auth.Session
import Lazuli.Codegen.Filters
import Lazuli.Codegen.Scope
import Lazuli.General.CamelCase
import Lazuli.Migration.Topo
import Lazuli.Runtime.Statement

/-!
The name of a table, in every layer that writes it.

The migrations, the queries and the commands of the runtime, its sessions and the owner checks of
the emitter each have their own way from the name of a resource to the name of its table
(`TableText`). On names of letters and digits all but one write snake case; they differ in the
capitals that have an underscore before them. The relation to an owner takes the name as it is.
-/

namespace Lazuli.Migration

open Ir Codegen
open General.SnakeCase

/-! ### Five ways to snake case -/

section Casing

variable {c prev : Char} {s out : List Char}

theorem isSeparator_eq_false (h : c.isAlphanum = true) : isSeparator c = false := by
  rw [isSeparator, decide_eq_false_iff_not]
  intro hmem
  simp only [List.mem_cons, List.not_mem_nil, or_false] at hmem
  rcases hmem with rfl | rfl | rfl | rfl | rfl | rfl <;> cases h

/-- One character of `lower_snake`. -/
theorem lowerSnakeFrom_cons (h : c.isAlphanum = true) (prevSmall : Bool) :
    lowerSnakeFrom out prevSmall false (c :: s) =
      lowerSnakeFrom (out ++ ((if c.isUpper && prevSmall then ['_'] else []) ++ [c.toLower]))
        (small c) false s := by
  have hsmall := small_or_upper h
  rw [lowerSnakeFrom, if_neg (by simp [isSeparator_eq_false h])]
  cases hupper : c.isUpper with
  | true => cases prevSmall <;> simp [hsmall, hupper]
  | false => simp [h, small]

theorem lowerSnakeFrom_eq (hs : ∀ a ∈ s, a.isAlphanum = true) :
    lowerSnakeFrom out (small prev) false s = out ++ snakeAfter small prev s := by
  induction s generalizing out prev with
  | nil => simp [lowerSnakeFrom, snakeAfter]
  | cons c s ih =>
      rw [lowerSnakeFrom_cons (hs c List.mem_cons_self),
        ih fun a ha => hs a (List.mem_cons_of_mem _ ha), snakeAfter]
      simp

theorem rdropWhile_snake (marks : Char → Bool) (hs : ∀ a ∈ s, a.isAlphanum = true) :
    (snake marks s).rdropWhile (· = '_') = snake marks s := by
  rw [List.rdropWhile_eq_self_iff]
  intro hne
  simpa using getLast_snake hs _ (List.getLast_mem_getLast? hne)

theorem lowerSnake_eq {name : String} (hs : ∀ a ∈ name.toList, a.isAlphanum = true) :
    lowerSnake name = String.ofList (snake small name.toList) := by
  rw [lowerSnake]
  congr 1
  rw [← rdropWhile_snake small hs]
  congr 1
  cases hname : name.toList with
  | nil => rfl
  | cons c s =>
      rw [hname] at hs
      rw [lowerSnakeFrom_cons (hs c List.mem_cons_self),
        lowerSnakeFrom_eq fun a ha => hs a (List.mem_cons_of_mem _ ha), snake]
      simp

theorem snakeFrom_cons (h : c.isAlphanum = true) (hprev : prev ≠ '_') (i : Nat) :
    Runtime.snakeFrom i prev out (c :: s) =
      Runtime.snakeFrom (i + 1) c
        (out ++ ((if c.isUpper && 0 < i then ['_'] else []) ++ [c.toLower])) s := by
  have hsep : ¬ (c = '-' ∨ c = ' ' ∨ c = '.' ∨ c = '_') := by
    rintro (rfl | rfl | rfl | rfl) <;> cases h
  rw [Runtime.snakeFrom, if_neg hsep, Runtime.isUpper_eq]
  cases c.isUpper with
  | true => by_cases hi : 0 < i <;> simp [hi, hprev]
  | false => simp

theorem ne_underscore (h : c.isAlphanum = true) : c ≠ '_' := by
  rintro rfl
  cases h

theorem snakeFrom_eq (hs : ∀ a ∈ prev :: s, a.isAlphanum = true) (i : Nat) :
    Runtime.snakeFrom (i + 1) prev out s = out ++ snakeAfter (fun _ => true) prev s := by
  induction s generalizing i out prev with
  | nil => simp [Runtime.snakeFrom, snakeAfter]
  | cons c s ih =>
      have hrest : ∀ a ∈ c :: s, a.isAlphanum = true :=
        fun a ha => hs a (List.mem_cons_of_mem _ ha)
      rw [snakeFrom_cons (hrest c List.mem_cons_self) (ne_underscore (hs prev List.mem_cons_self)),
        ih hrest, snakeAfter]
      simp

theorem snakeCase_eq {name : String} (hs : ∀ a ∈ name.toList, a.isAlphanum = true) :
    Runtime.snakeCase name = String.ofList (snake (fun _ => true) name.toList) := by
  have hfrom : Runtime.snakeFrom 0 '\x00' [] name.toList =
      snake (fun _ => true) name.toList := by
    cases hname : name.toList with
    | nil => rfl
    | cons c s =>
        rw [hname] at hs
        rw [snakeFrom_cons (hs c List.mem_cons_self) (by decide), snakeFrom_eq hs]
        simp [snake]
  have hhead : (snake (fun _ => true) name.toList).dropWhile (· = '_') =
      snake (fun _ => true) name.toList := by
    rw [List.dropWhile_eq_self_iff]
    intro hpos
    have hne := List.ne_nil_of_length_pos hpos
    simpa [List.head_eq_getElem] using head_snake hs _ (List.head?_eq_some_head hne)
  rw [Runtime.snakeCase, hfrom, hhead, rdropWhile_snake _ hs]

/-- A capital that has something before it. -/
theorem place_eq (c : Char) (i : Nat) :
    (if c.isUpper then (if i > 0 then ['_'] else []) ++ [c.toLower] else [c]) =
      (if c.isUpper && 0 < i then ['_'] else []) ++ [c.toLower] := by
  cases hupper : c.isUpper with
  | true => by_cases hi : 0 < i <;> simp [hi]
  | false => simp [Char.toLower_eq_of_not_isUpper, hupper]

theorem flatMap_zipIdx_eq (prev : Char) (i : Nat) :
    (s.zipIdx (i + 1)).flatMap (fun (ch, i) =>
        if ch.isUpper then (if i > 0 then ['_'] else []) ++ [ch.toLower] else [ch]) =
      snakeAfter (fun _ => true) prev s := by
  induction s generalizing i prev with
  | nil => rfl
  | cons c s ih =>
      rw [List.zipIdx_cons, List.flatMap_cons, ih c, snakeAfter]
      dsimp only
      rw [place_eq]
      simp

theorem commandPascalToSnake_eq (name : String) :
    commandPascalToSnake name = String.ofList (snake (fun _ => true) name.toList) := by
  rw [commandPascalToSnake]
  congr 1
  cases name.toList with
  | nil => rfl
  | cons c s =>
      rw [List.zipIdx_cons, List.flatMap_cons, flatMap_zipIdx_eq c, snake]
      dsimp only
      rw [place_eq]
      simp

theorem sessionResourceTable_eq (name : String) :
    Auth.sessionResourceTable name = String.ofList (snake (fun _ => true) name.toList) := by
  rw [← commandPascalToSnake_eq, commandPascalToSnake, Auth.sessionResourceTable]
  congr 2
  funext ⟨ch, i⟩
  have hupper : ('A' ≤ ch ∧ ch ≤ 'Z') ↔ ch.isUpper = true := by
    simp [Char.isUpper, Char.le_def]
  simp only [hupper]
  split
  next h => rw [Char.toLower_eq_of_isUpper h]
  · rfl

end Casing

/-! ### The layers -/

/-- The table that a source looks for an owner in. -/
def relatedTable : SourceCall → Option String
  | .fromCtxOwnedVia table _ _ => some table
  | _ => none

/-- What the layers of a module write for the table of the resource `name`: its migration, the
foreign keys of fields and of rotated sessions, the statements of the runtime, those of its
sessions, the owner checks of commands and queries, a filter by the user, and the relation to an
owner. -/
inductive TableText (m : Module) (name : String) : String → Prop
  | created {p : Pair} : p ∈ rawResources m → p.2.name = name → TableText m name (tableOf p)
  | referenced {p : Pair} {field : Field} {qname : QualifiedName} {column table : String} :
      p ∈ rawResources m → field ∈ p.2.fields → field.typeRef = .userDefined qname →
      qname.name = name → foreignKeyConstraint m field = some (.foreignKey column table) →
      TableText m name table
  | parent {p : Pair} {column : SqlColumn} {table : String} :
      p ∈ rawResources m → p.2.name = name → column ∈ missingRotation m p.1 p.2 →
      column.target = some table → TableText m name table
  | queried {p : Pair} :
      p ∈ rawResources m → p.2.name = name → TableText m name (Runtime.snakeCase p.2.name)
  | sessions {f : Feature} {s : AuthSessions} :
      f ∈ m.features → f.sessions = some s → s.resource.name = name →
      TableText m name (Auth.sessionResourceTable s.resource.name)
  | ownerScope {f : Feature} {command : Command} {scope : OwnerScopeSql} {table column : String} :
      f ∈ m.features → command ∈ f.commands → command.ownerScopeSql = some scope →
      scope.fkTarget = name → (ownerScopeBinding scope).via = some (table, column) →
      TableText m name table
  | ownerCheck {f : Feature} {command : Command} {scope : OwnerScopeSql} {spec : OwnerCheckSpec} :
      f ∈ m.features → command ∈ f.commands → command.ownerScopeSql = some scope →
      scope.fkTarget = name → ownerCheckSpec command = some spec →
      TableText m name spec.relatedTable
  | queryScope {scope : OwnerScopeSql} {table : String} :
      scope.fkTarget = name → relatedTable (ownerScopeFilterEntry scope).when = some table →
      TableText m name table
  | filter {p : Pair} {filter : Filter} {rule : FilterRule} {field : Field}
      {qname : QualifiedName} {table : String} :
      p ∈ rawResources m → filterRule filter p.1 (some p.2) = .ok rule →
      (p.2.fields.find? fun f => f.name = rule.column) = some field →
      field.typeRef = .userDefined qname → qname.name = name →
      relatedTable rule.when = some table → TableText m name table
  | relation {f : Feature} {command : Command} {resource related : Resource} {field : Field}
      {owner table column : String} {b : ScopeBinding} :
      f ∈ m.features → command ∈ f.commands → targetResource command f = some resource →
      ownerRelation resource f = some (field, related, owner) → related.name = name →
      b ∈ resolveScopeBindings command f → b.via = some (table, column) →
      TableText m name table

/-- A command that is scoped to the owner writes to a resource without an owner column, and
`name` is the first resource it refers to that has one. -/
def OwnedThrough (m : Module) (name : String) : Prop :=
  ∃ f ∈ m.features, ∃ command ∈ f.commands, ∃ resource related field owner,
    targetResource command f = some resource ∧
    "@scope.owner" ∈ commandPolicyAtoms command f.policies ∧
    findScopeColumn resource ownerColumns = none ∧
    ownerRelation resource f = some (field, related, owner) ∧ related.name = name

/-- A capital, and letters and digits behind it. -/
def IsPascal (name : String) : Prop :=
  name.toList.head?.any Char.isUpper = true ∧ name.toList.all Char.isAlphanum = true

/-! ### Agreement -/

section Agreement

variable {m : Module} {name table : String}

/-- Only the atom of the owner goes through a relation. -/
theorem atomBinding_via {resource : Resource} {f : Feature} {atom column : String}
    {b : ScopeBinding} (h : atomBinding resource f atom = some b)
    (via : b.via = some (table, column)) :
    atom = "@scope.owner" ∧ findScopeColumn resource ownerColumns = none ∧
      ∃ field related, ownerRelation resource f = some (field, related, column) ∧
        related.name = table := by
  unfold atomBinding at h
  split at h
  · split at h
    · cases h
      cases via
    next hnone =>
      obtain ⟨rel, hrel, rfl⟩ := Option.map_eq_some_iff.mp h
      obtain ⟨⟨field, related, owner⟩, howner, rfl⟩ := Option.map_eq_some_iff.mp hrel
      cases via
      exact ⟨rfl, hnone, field, related, howner, rfl⟩
  · obtain ⟨_, -, rfl⟩ := Option.map_eq_some_iff.mp h
    cases via
  · cases h
    cases via
  · cases h

theorem formatSourceExpr_relatedTable (e : Expr) : relatedTable (formatSourceExpr e) = none := by
  cases e with
  | path p =>
      rw [formatSourceExpr]
      unfold formatPathSource
      split <;> rfl
  | _ => rw [formatSourceExpr]; rfl

/-- A filter that looks for an owner does so through the field of its column. -/
theorem filterRule_relatedTable {filter : Filter} {f : Feature} {resource : Resource}
    {rule : FilterRule} (ok : filterRule filter f (some resource) = .ok rule)
    (via : relatedTable rule.when = some table) :
    ∃ field qname, (resource.fields.find? fun f => f.name = rule.column) = some field ∧
      field.typeRef = .userDefined qname ∧ table = pascalToSnake qname.name := by
  have hsource : ∃ value, rule.when = filterSource filter rule.column value (some resource) := by
    unfold filterRule at ok
    split at ok
    · split at ok
      · cases ok
        exact ⟨_, rfl⟩
      · cases ok
        exact ⟨_, rfl⟩
      · cases ok
    · cases ok
    · cases ok
  obtain ⟨value, hsource⟩ := hsource
  rw [hsource, filterSource] at via
  split at via
  · cases via
  · cases howned : ownedViaSource rule.column value (some resource) with
    | none =>
        rw [howned, Option.getD_none, formatSourceExpr_relatedTable] at via
        cases via
    | some source =>
        rw [howned, Option.getD_some] at via
        obtain ⟨field, hfield, hmatch⟩ := Option.bind_eq_some_iff.mp howned
        split at hmatch
        next qname p htype =>
          split at hmatch
          · cases hmatch
          · cases hmatch
            cases via
            exact ⟨field, qname, hfield, htype, rfl⟩
        · cases hmatch

theorem target_of_mem_missingRotation {p : Pair} {column : SqlColumn}
    (h : column ∈ missingRotation m p.1 p.2) (target : column.target = some table) :
    table = tableOf p := by
  unfold missingRotation at h
  split at h
  · have hmem := (List.mem_filter.mp h).1
    simp only [rotationColumns, List.mem_cons, List.not_mem_nil, or_false] at hmem
    rcases hmem with rfl | rfl | rfl | rfl <;> cases target
    rfl
  · exact absurd h List.not_mem_nil

/-- Every layer but the relation to an owner writes one of two texts. -/
theorem TableText.cases (h : TableText m name table) :
    table = lowerSnake name ∨ table = commandPascalToSnake name ∨
      table = Runtime.snakeCase name ∨ table = Auth.sessionResourceTable name ∨
      OwnedThrough m name := by
  cases h with
  | created hp hname => exact .inl (hname ▸ rfl)
  | referenced hp hfield htype hname hfk =>
      rw [foreignKeyConstraint, htype] at hfk
      obtain ⟨_, -, same⟩ := Option.map_eq_some_iff.mp hfk
      cases same
      exact .inl (hname ▸ rfl)
  | parent hp hname hmem htarget =>
      exact .inl (hname ▸ target_of_mem_missingRotation hmem htarget)
  | queried hp hname => exact .inr (.inr (.inl (hname ▸ rfl)))
  | sessions hf hs hname => exact .inr (.inr (.inr (.inl (hname ▸ rfl))))
  | ownerScope hf hc hscope hname hvia =>
      cases hvia
      exact .inr (.inl (hname ▸ rfl))
  | ownerCheck hf hc hscope hname hspec =>
      rw [ownerCheckSpec, hscope] at hspec
      obtain ⟨scope, hfilter, rfl⟩ := Option.map_eq_some_iff.mp hspec
      obtain ⟨same, -⟩ := Option.filter_eq_some_iff.mp hfilter
      cases same
      exact .inr (.inl (hname ▸ rfl))
  | queryScope hname hvia =>
      cases hvia
      exact .inr (.inl (hname ▸ rfl))
  | filter hp hrule hfield htype hname hvia =>
      obtain ⟨field, qname, hfield', htype', rfl⟩ := filterRule_relatedTable hrule hvia
      rw [hfield] at hfield'
      cases hfield'
      rw [htype] at htype'
      cases htype'
      exact .inr (.inl (hname ▸ rfl))
  | relation hf hc htarget howner hname hb hvia =>
      rw [resolveScopeBindings, htarget] at hb
      obtain ⟨atom, hatom, hbinding⟩ := List.mem_filterMap.mp hb
      obtain ⟨rfl, hnone, -⟩ := atomBinding_via hbinding hvia
      have owned : OwnedThrough m name :=
        ⟨_, hf, _, hc, _, _, _, _, htarget, hatom, hnone, howner, hname⟩
      exact .inr (.inr (.inr (.inr owned)))

/-- The relation writes the name as it is. -/
theorem OwnedThrough.tableText (h : OwnedThrough m name) : TableText m name name := by
  obtain ⟨f, hf, command, hc, resource, related, field, owner, htarget, hatom, hnone, howner,
    rfl⟩ := h
  have hbinding : atomBinding resource f "@scope.owner" =
      some ⟨"@scope.owner", field.name, "user.id", some (related.name, owner)⟩ := by
    simp [atomBinding, hnone, findOwnerViaRelation, howner]
  have hmem : ⟨"@scope.owner", field.name, "user.id", some (related.name, owner)⟩ ∈
      resolveScopeBindings command f := by
    rw [resolveScopeBindings, htarget]
    exact List.mem_filterMap.mpr ⟨_, hatom, hbinding⟩
  exact .relation hf hc htarget howner rfl hmem rfl

end Agreement

/-- Every layer writes the same table for a resource exactly when no two capitals of its name are
next to each other and no command reaches an owner through it. -/
theorem tableTexts_agree_iff (m : Module) (p : Pair) (hp : p ∈ rawResources m)
    (hname : IsPascal p.2.name) :
    (∀ t t', TableText m p.2.name t → TableText m p.2.name t' → t = t') ↔
      Spaced p.2.name.toList ∧ ¬ OwnedThrough m p.2.name := by
  obtain ⟨hhead, hall⟩ := hname
  have hs := List.all_eq_true.mp hall
  have hlower := lowerSnake_eq hs
  have hcreated : TableText m p.2.name (lowerSnake p.2.name) := .created hp rfl
  constructor
  · intro agree
    constructor
    · have hsame := agree _ _ hcreated (.queried hp rfl)
      rw [hlower, snakeCase_eq hs, String.ofList_inj] at hsame
      exact (snake_eq_iff_spaced hs).mp hsame
    · intro owned
      have hsame := agree _ _ hcreated owned.tableText
      have hsnake : snake small p.2.name.toList = p.2.name.toList := by
        rw [← String.toList_ofList (l := snake small p.2.name.toList), ← hlower, hsame]
      exact snake_ne_of_head_isUpper hhead hsnake
  · rintro ⟨spaced, unowned⟩
    have hspaced := (snake_eq_iff_spaced hs).mpr spaced
    have heq : ∀ t, TableText m p.2.name t → t = lowerSnake p.2.name := by
      intro t ht
      rcases ht.cases with rfl | rfl | rfl | rfl | owned
      · rfl
      · rw [commandPascalToSnake_eq, hlower, hspaced]
      · rw [snakeCase_eq hs, hlower, hspaced]
      · rw [sessionResourceTable_eq, hlower, hspaced]
      · exact absurd owned unowned
    intro t t' ht ht'
    rw [heq t ht, heq t' ht']

/-! ### Three resources -/

def userField : Field where
  name := "user_id"
  typeRef := .userDefined ⟨none, "User"⟩
  required := true

def host : Resource where
  name := "Host"
  fields := [userField]

/-- `host: Host required`. -/
def property : Resource where
  name := "Property"
  fields := [{ name := "host", typeRef := .userDefined ⟨none, "Host"⟩, required := true }]

def htmlPage : Resource where
  name := "HTMLPage"

/-- `policy @scope.owner`. -/
def removeProperty : Command where
  name := "remove_property"
  effect := .deletes ⟨⟨none, "Property"⟩, []⟩
  triggers := []
  span := none
  policy := .atom "scope.owner"

def rentals : Feature where
  name := "rentals"
  resources := [host, property, htmlPage]
  commands := [removeProperty]

def rentalsModule : Module := ⟨[rentals]⟩

theorem tableTexts_agree_iff_property :
    (∀ t t', TableText rentalsModule "Property" t → TableText rentalsModule "Property" t' →
        t = t') ↔
      Spaced "Property".toList ∧ ¬ OwnedThrough rentalsModule "Property" :=
  tableTexts_agree_iff rentalsModule (rentals, property)
    (List.mem_flatMap.mpr ⟨rentals, List.mem_cons_self, List.mem_map.mpr
      ⟨property, List.mem_cons_of_mem _ List.mem_cons_self, rfl⟩⟩)
    ⟨by decide +kernel, by decide +kernel⟩

theorem owned_through_host : OwnedThrough rentalsModule "Host" :=
  ⟨rentals, List.mem_cons_self, removeProperty, List.mem_cons_self, property, host, _, "user_id",
    rfl, by decide +kernel, rfl, rfl, rfl⟩

/-- The queries of `HTMLPage` read a table that no migration creates, and the owner of a
`Property` is looked for in the table `Host`. -/
theorem tables_disagree :
    (¬ ∀ (m : Module) (p : Pair), p ∈ rawResources m → IsPascal p.2.name →
      ∀ t t', TableText m p.2.name t → TableText m p.2.name t' → t = t') ∧
    TableText rentalsModule "HTMLPage" "htmlpage" ∧
    TableText rentalsModule "HTMLPage" "h_t_m_l_page" ∧
    TableText rentalsModule "Host" "host" ∧ TableText rentalsModule "Host" "Host" := by
  have hpage : (rentals, htmlPage) ∈ rawResources rentalsModule :=
    List.mem_flatMap.mpr ⟨rentals, List.mem_cons_self, List.mem_map.mpr
      ⟨htmlPage, List.mem_cons_of_mem _ (List.mem_cons_of_mem _ List.mem_cons_self), rfl⟩⟩
  have hhost : (rentals, host) ∈ rawResources rentalsModule :=
    List.mem_flatMap.mpr ⟨rentals, List.mem_cons_self, List.mem_map.mpr
      ⟨host, List.mem_cons_self, rfl⟩⟩
  have hcreated : tableOf (rentals, htmlPage) = "htmlpage" := by decide +kernel
  have hqueried : Runtime.snakeCase htmlPage.name = "h_t_m_l_page" := by decide +kernel
  have hmigrated : tableOf (rentals, host) = "host" := by decide +kernel
  have created : TableText rentalsModule htmlPage.name (tableOf (rentals, htmlPage)) :=
    .created hpage rfl
  have queried : TableText rentalsModule htmlPage.name (Runtime.snakeCase htmlPage.name) :=
    .queried (p := (rentals, htmlPage)) hpage rfl
  have migrated : TableText rentalsModule host.name (tableOf (rentals, host)) :=
    .created hhost rfl
  rw [hcreated] at created
  rw [hqueried] at queried
  rw [hmigrated] at migrated
  refine ⟨fun claimed => ?_, created, queried, migrated, owned_through_host.tableText⟩
  have pascal : IsPascal "HTMLPage" := ⟨by decide +kernel, by decide +kernel⟩
  exact absurd (claimed rentalsModule (rentals, htmlPage) hpage pascal _ _ created queried)
    (by decide)

end Lazuli.Migration
