import Lazuli.General.Lookup
import Lazuli.Analyzer.Rbac
import Lazuli.Codegen.CasingLaws

/-!
The generated catalogue of roles (`crates/lazuli_codegen_go/src/emitter/rbac.rs`).

`emitRbacFile` is the file as its declarations, with the identifiers that they declare and
refer to. `compile` is what Go makes of it: nothing when an identifier is declared twice or
unknown, else the roles with the permissions that their grants name. `hasPermission` searches
these; `hasRole` only compares two names.

`agrees_iff` says for which packages the file agrees with the graph of the roles.
-/

namespace Lazuli.Codegen.Rbac

open Lazuli.General Lazuli.General.CamelCase Lazuli.Analyzer.Rbac

/-! ### The file -/

def permissionIdent (name : String) : String :=
  "Perm" ++ String.join ((name.toList.splitOn ':').map fun seg =>
    Casing.pascalCase (String.ofList seg))

def roleIdent (name : String) : String := "Role" ++ Casing.pascalCase name

/-- `var <ident> = Role{Name: …, Grants: …}`. -/
structure RoleVar where
  ident : String
  name : String
  grants : List String
  deriving DecidableEq

/-- The constants, the variables of the roles, and the two slices. -/
structure RbacFile where
  consts : List (String × String)
  allPermissions : List String
  roleVars : List RoleVar
  allRoles : List String
  deriving DecidableEq

def emitRoleVar (role : RoleEntry) : RoleVar :=
  ⟨roleIdent role.name, role.name, role.closure.map permissionIdent⟩

def fileOf (catalog : RbacCatalog) : RbacFile where
  consts := catalog.permissions.map fun p => (permissionIdent p, p)
  allPermissions := catalog.permissions.map permissionIdent
  roleVars := catalog.roles.map emitRoleVar
  allRoles := catalog.roles.map fun r => roleIdent r.name

def emitRbacFile (catalog : Option RbacCatalog) : Option RbacFile :=
  match catalog with
  | none => none
  | some catalog =>
      if catalog.permissions.isEmpty && catalog.roles.isEmpty then none else some (fileOf catalog)

/-! ### What it means -/

/-- What the package declares besides constants and roles. -/
def fixedIdents : List String :=
  ["Permission", "Role", "AllPermissions", "AllRoles", "HasPermission", "HasRole"]

def RbacFile.idents (f : RbacFile) : List String :=
  f.consts.map (·.1) ++ f.roleVars.map (·.ident) ++ fixedIdents

/-- `AllRoles` at run time: names and granted permissions. -/
structure Program where
  allRoles : List (String × List String)
  deriving DecidableEq

def RbacFile.resolve (f : RbacFile) (ident : String) : Option (String × List String) :=
  (f.roleVars.find? fun r => r.ident = ident).bind fun r =>
    (r.grants.mapM fun g => f.consts.lookup g).map fun grants => (r.name, grants)

def RbacFile.compile (f : RbacFile) : Option Program :=
  if f.idents.Nodup ∧ ∀ ident ∈ f.allPermissions, ident ∈ f.consts.map (·.1) then
    (f.allRoles.mapM f.resolve).map fun roles => ⟨roles⟩
  else none

/-- The first role of that name decides. -/
def Program.hasPermission (p : Program) (roleName perm : String) : Bool :=
  match p.allRoles.find? fun r => r.1 = roleName with
  | none => false
  | some r => r.2.any fun g => g = perm

def hasRole (roleName name : String) : Bool := roleName = name

/-! ### Agreement -/

variable (pkg : PackageSkeleton)

/-- The role inherits from itself, perhaps through others. -/
def OnCycle (name : String) : Prop :=
  Relation.TransGen (fun a b => parentOf pkg a = some b) name name

/-- The issue reports a cycle with this role: the cycle is the chain from the repeated name on. -/
def reports (x : String) : Issue → Bool
  | .cycle chain name => decide (x ∈ chain.dropWhile (· ≠ name))
  | _ => false

/-- The catalogue and the generated checks say of roles and permissions what the graph says. -/
structure Agrees (catalog : RbacCatalog) (issues : List Issue) : Prop where
  closure : ∀ r ∈ catalog.roles, ∀ p,
    p ∈ r.closure ↔ p ∈ catalog.permissions ∧ ∃ q, Reaches pkg r.name q ∧ Grants pkg q p
  cycles : ∀ x, OnCycle pkg x → issues.countP (reports x) = 1
  cyclic : ∀ chain x, .cycle chain x ∈ issues → OnCycle pkg x
  idents : ∀ p ∈ catalog.permissions, ∀ q ∈ catalog.permissions,
    permissionIdent p = permissionIdent q → p = q
  checks : ∃ program, (emitRbacFile (some catalog)).bind (·.compile) = some program ∧
    ∀ role perm, program.hasPermission role perm = true ↔
      ∃ r ∈ catalog.roles, r.name = role ∧ perm ∈ r.closure
  roles : ∀ role name, hasRole role name = true ↔ Reaches pkg role name

/-! ### Identifiers and words -/

/-- The words of a permission, over all of its segments. -/
def permissionWords (name : String) : List Word :=
  fuse ((name.toList.splitOn ':').flatMap fun seg => nameWords (String.ofList seg))

def roleWords (name : String) : List Word := fuse (nameWords name)

section Words

variable {s : List Char} {name other : String}

theorem isName_of_isSegment (h : isSegment s = true) : isName (String.ofList s) = true := by
  obtain ⟨head, chars⟩ := Bool.and_eq_true_iff.mp h
  rw [isName_iff, String.toList_ofList]
  refine ⟨?_, ?_⟩
  · cases s with
    | nil => cases head
    | cons c s =>
        have lower : c.isLower = true := head
        show c.isAlpha = true
        rw [Char.isAlpha, lower, Bool.or_true]
  · rw [List.all_eq_true] at chars ⊢
    intro c hc
    have kind := chars c hc
    rw [Bool.or_eq_true, Bool.or_eq_true] at kind
    rw [Bool.or_eq_true, Char.isAlphanum, Char.isAlpha]
    rcases kind with (lower | digit) | bar
    · exact .inl (by rw [lower, Bool.or_true, Bool.true_or])
    · exact .inl (by rw [digit, Bool.or_true])
    · exact .inr bar

theorem toList_roleIdent (name : String) :
    (roleIdent name).toList = "Role".toList ++ upperCamel (nameWords name) := by
  unfold roleIdent
  rw [String.toList_append, Casing.pascalCase_eq_runtime, toList_pascalCase]

theorem toList_join_pascalCase (segs : List (List Char)) :
    (String.join (segs.map fun seg => Casing.pascalCase (String.ofList seg))).toList =
      upperCamel (segs.flatMap fun seg => nameWords (String.ofList seg)) := by
  rw [String.toList_join, List.flatMap_map]
  induction segs with
  | nil => simp only [List.flatMap_nil, upperCamel]
  | cons seg segs ih =>
      rw [List.flatMap_cons, List.flatMap_cons, upperCamel_append, ih,
        Casing.pascalCase_eq_runtime, toList_pascalCase]

theorem toList_permissionIdent (name : String) : (permissionIdent name).toList =
    "Perm".toList ++ upperCamel ((name.toList.splitOn ':').flatMap fun seg =>
      nameWords (String.ofList seg)) := by
  unfold permissionIdent
  rw [String.toList_append, toList_join_pascalCase]

theorem speakable_flatMap {segs : List (List Char)} (h : ∀ seg ∈ segs, isSegment seg = true) :
    Speakable (segs.flatMap fun seg => nameWords (String.ofList seg)) := by
  induction segs with
  | nil => exact ⟨by simp, by simp⟩
  | cons seg segs ih =>
      have here := isName_of_isSegment (h seg List.mem_cons_self)
      have rest := ih fun t mem => h t (List.mem_cons_of_mem _ mem)
      rw [List.flatMap_cons]
      exact (speakable_nameWords here).append rest.spoken (nameWords_ne_nil here)

theorem segments_of_wellFormed (h : isPermissionName name = true) :
    ∀ seg ∈ name.toList.splitOn ':', isSegment seg = true := by
  obtain ⟨-, all⟩ := Bool.and_eq_true_iff.mp h
  exact List.all_eq_true.mp all

theorem permissionIdent_eq_iff (h : isPermissionName name = true)
    (h' : isPermissionName other = true) :
    permissionIdent name = permissionIdent other ↔
      permissionWords name = permissionWords other := by
  rw [← String.toList_inj, toList_permissionIdent, toList_permissionIdent,
    List.append_cancel_left_eq]
  exact upperCamel_eq_iff (speakable_flatMap (segments_of_wellFormed h))
    (speakable_flatMap (segments_of_wellFormed h'))

theorem isName_of_role (h : isSegment name.toList = true) : isName name = true := by
  have named := isName_of_isSegment h
  rwa [String.ofList_toList] at named

theorem roleIdent_eq_iff (h : isSegment name.toList = true) (h' : isSegment other.toList = true) :
    roleIdent name = roleIdent other ↔ roleWords name = roleWords other := by
  rw [← String.toList_inj, toList_roleIdent, toList_roleIdent, List.append_cancel_left_eq]
  exact upperCamel_eq_iff (speakable_nameWords (isName_of_role h))
    (speakable_nameWords (isName_of_role h'))

/-- No identifier of a constant is one of a role, or a fixed one. -/
theorem permissionIdent_ne_role : permissionIdent name ≠ roleIdent other := by
  intro same
  have chars := congrArg String.toList same
  rw [toList_permissionIdent, toList_roleIdent] at chars
  cases chars

/-- None of the fixed identifiers is a capitalised word after one of the two prefixes. -/
theorem ne_fixed {head : String} {tail : List Char} (known : head = "Perm" ∨ head = "Role")
    (upper : ∀ c ∈ tail.head?, c.isUpper = true) (nonempty : head = "Role" → tail ≠ []) :
    ∀ ident ∈ fixedIdents, head.toList ++ tail ≠ ident.toList := by
  intro ident mem same
  simp only [fixedIdents, List.mem_cons, List.not_mem_nil, or_false] at mem
  rcases known with rfl | rfl
  · rcases mem with rfl | rfl | rfl | rfl | rfl | rfl
    · have split : "Perm".toList ++ tail = "Perm".toList ++ "ission".toList := same
      rw [List.append_cancel_left split] at upper
      exact absurd (upper 'i' rfl) (by decide)
    all_goals cases same
  · rcases mem with rfl | rfl | rfl | rfl | rfl | rfl
    · cases same
    · have split : "Role".toList ++ tail = "Role".toList ++ [] := same
      exact nonempty rfl (List.append_cancel_left split)
    all_goals cases same

theorem permissionIdent_notMem_fixed (h : isPermissionName name = true) :
    permissionIdent name ∉ fixedIdents := by
  have upper := isUpper_head_upperCamel (speakable_flatMap (segments_of_wellFormed h)).first
  intro mem
  exact ne_fixed (.inl rfl) upper nofun _ mem (toList_permissionIdent name).symm

theorem roleIdent_notMem_fixed (h : isSegment name.toList = true) :
    roleIdent name ∉ fixedIdents := by
  have named := isName_of_role h
  have upper := isUpper_head_upperCamel (speakable_nameWords named).first
  intro mem
  refine ne_fixed (.inr rfl) upper (fun _ empty => ?_) _ mem (toList_roleIdent name).symm
  cases words : nameWords name with
  | nil => exact nameWords_ne_nil named words
  | cons w ws =>
      rw [words, upperCamel_cons, List.append_eq_nil_iff] at empty
      have spoken := (speakable_nameWords named).spoken w (by rw [words]; exact List.mem_cons_self)
      cases w with
      | nil => exact spoken.1 rfl
      | cons c w => cases empty.1

end Words

/-! ### The catalogue of an analysis -/

/-- What the analysis says of its catalogue. -/
structure Analyzed (catalog : RbacCatalog) : Prop where
  permissions : catalog.permissions = declared pkg
  entries : (roles pkg).mapM (roleEntry pkg) = some catalog.roles
  nonempty : pkg.permissions ≠ [] ∨ pkg.roles ≠ []

variable {pkg}

theorem analyzed_of_analyze {catalog : RbacCatalog} {issues : List Issue}
    (h : analyzeRbacCatalog pkg = some (some catalog, issues)) : Analyzed pkg catalog ∧
      ∃ cycles, cycleIssues pkg [] (roles pkg) = some cycles ∧
        issues = (firstsFrom (·.name) [] pkg.permissions).2.map .permDuplicate ++
          roleIssues pkg [] pkg.roles ++ inheritIssues pkg ++ cycles ++
            unusedIssues pkg catalog.roles := by
  unfold analyzeRbacCatalog at h
  split at h
  · cases h
  · rename_i nonempty
    obtain ⟨cycles, hcycles, h⟩ := Option.bind_eq_some_iff.mp h
    obtain ⟨entries, hentries, h⟩ := Option.bind_eq_some_iff.mp h
    cases h
    refine ⟨⟨rfl, hentries, ?_⟩, cycles, hcycles, rfl⟩
    by_contra none
    rw [not_or, not_not, not_not] at none
    exact nonempty (by rw [none.1, none.2]; rfl)

theorem empty_of_analyze {issues : List Issue} (h : analyzeRbacCatalog pkg = some (none, issues)) :
    pkg.permissions = [] ∧ pkg.roles = [] := by
  unfold analyzeRbacCatalog at h
  split at h
  · rename_i empty
    rwa [Bool.and_eq_true, List.isEmpty_iff, List.isEmpty_iff] at empty
  · obtain ⟨cycles, -, h⟩ := Option.bind_eq_some_iff.mp h
    obtain ⟨entries, -, h⟩ := Option.bind_eq_some_iff.mp h
    cases h

section Entries

variable {catalog : RbacCatalog}

theorem entry_of_roleEntry {r : RoleDecl} {e : RoleEntry} (h : roleEntry pkg r = some e) :
    e.name = r.name ∧ closureOf pkg r.name = some e.closure := by
  obtain ⟨closure, hclosure, h⟩ := Option.bind_eq_some_iff.mp h
  cases h
  exact ⟨rfl, hclosure⟩

theorem mem_entries (analyzed : Analyzed pkg catalog) {e : RoleEntry} (h : e ∈ catalog.roles) :
    ∃ r ∈ roles pkg, e.name = r.name ∧ closureOf pkg e.name = some e.closure := by
  rw [← (mapM_eq_some_iff.mp analyzed.entries).2] at h
  obtain ⟨r, hr, entry⟩ := List.mem_filterMap.mp h
  obtain ⟨same, closure⟩ := entry_of_roleEntry entry
  exact ⟨r, hr, same, by rwa [same]⟩

theorem names_eq (analyzed : Analyzed pkg catalog) :
    catalog.roles.map (·.name) = (roles pkg).map (·.name) := by
  obtain ⟨all, made⟩ := mapM_eq_some_iff.mp analyzed.entries
  have pairs := forall₂_filterMap all
  rw [made] at pairs
  exact (map_eq_of_forall₂ pairs fun r e entry => (entry_of_roleEntry entry).1.symm).symm

theorem mem_closure (analyzed : Analyzed pkg catalog) {e : RoleEntry} (h : e ∈ catalog.roles)
    (p : String) : p ∈ e.closure ↔
      p ∈ catalog.permissions ∧ ∃ q, Reaches pkg e.name q ∧ Grants pkg q p := by
  obtain ⟨-, -, -, closure⟩ := mem_entries analyzed h
  rw [analyzed.permissions, mem_closure_iff closure]

theorem emit_of_analyzed (analyzed : Analyzed pkg catalog) :
    emitRbacFile (some catalog) = some (fileOf catalog) := by
  have nonempty : ¬(catalog.permissions.isEmpty && catalog.roles.isEmpty) = true := by
    intro empty
    obtain ⟨noPermissions, noRoles⟩ := Bool.and_eq_true_iff.mp empty
    rw [List.isEmpty_iff] at noPermissions noRoles
    have names := names_eq analyzed
    rw [noRoles, List.map_nil] at names
    rcases analyzed.nonempty with permissions | roles
    · have none : declared pkg = [] := analyzed.permissions.symm.trans noPermissions
      exact permissions (firstsFrom_nil_eq_nil (List.map_eq_nil_iff.mp none))
    · exact roles (firstsFrom_nil_eq_nil (List.map_eq_nil_iff.mp names.symm))
  exact if_neg nonempty

end Entries

/-! ### When the file compiles -/

section Compile

variable {catalog : RbacCatalog}

theorem isPermissionName_of_mem {p : String} (h : p ∈ declared pkg) :
    isPermissionName p = true := by
  obtain ⟨d, -, rfl⟩ := List.mem_map.mp h
  exact d.wellFormed

variable (pkg) in
/-- No two names are written alike, and only a role itself is its parent. -/
structure Plain : Prop where
  parents : ∀ r ∈ roles pkg, r.inherits = none ∨ r.inherits = some r.name
  permissions : ∀ p ∈ declared pkg, ∀ q ∈ declared pkg,
    permissionWords p = permissionWords q → p = q
  roles : ∀ r ∈ roles pkg, ∀ s ∈ roles pkg, roleWords r.name = roleWords s.name → r = s

theorem permissionIdents_iff (analyzed : Analyzed pkg catalog) :
    (∀ p ∈ catalog.permissions, ∀ q ∈ catalog.permissions,
      permissionIdent p = permissionIdent q → p = q) ↔
    ∀ p ∈ declared pkg, ∀ q ∈ declared pkg, permissionWords p = permissionWords q → p = q := by
  rw [analyzed.permissions]
  constructor
  · intro distinct p hp q hq same
    exact distinct p hp q hq ((permissionIdent_eq_iff (isPermissionName_of_mem hp)
      (isPermissionName_of_mem hq)).mpr same)
  · intro distinct p hp q hq same
    exact distinct p hp q hq ((permissionIdent_eq_iff (isPermissionName_of_mem hp)
      (isPermissionName_of_mem hq)).mp same)

theorem nodup_roleIdents_iff (analyzed : Analyzed pkg catalog) :
    (catalog.roles.map fun r => roleIdent r.name).Nodup ↔
      ∀ r ∈ roles pkg, ∀ s ∈ roles pkg, roleWords r.name = roleWords s.name → r = s := by
  have idents : (catalog.roles.map fun r => roleIdent r.name) =
      (roles pkg).map fun r => roleIdent r.name := by
    have names := congrArg (List.map roleIdent) (names_eq analyzed)
    rwa [List.map_map, List.map_map] at names
  rw [idents, List.nodup_map_iff_inj_on (nodup_roles pkg).of_map]
  constructor
  · intro distinct r hr s hs same
    exact distinct r hr s hs ((roleIdent_eq_iff r.wellFormed s.wellFormed).mpr same)
  · intro distinct r hr s hs same
    exact distinct r hr s hs ((roleIdent_eq_iff r.wellFormed s.wellFormed).mp same)

/-- Identifiers clash among the permissions or among the roles, not otherwise. -/
theorem nodup_idents_iff (analyzed : Analyzed pkg catalog) : (fileOf catalog).idents.Nodup ↔
    (∀ p ∈ catalog.permissions, ∀ q ∈ catalog.permissions,
      permissionIdent p = permissionIdent q → p = q) ∧
    (catalog.roles.map fun r => roleIdent r.name).Nodup := by
  have idents : (fileOf catalog).idents = catalog.permissions.map permissionIdent ++
      catalog.roles.map (fun r => roleIdent r.name) ++ fixedIdents := by
    unfold RbacFile.idents fileOf
    rw [List.map_map, List.map_map]
    rfl
  have nodup : catalog.permissions.Nodup := by
    rw [analyzed.permissions]
    exact nodup_declared pkg
  rw [idents, List.nodup_append, List.nodup_append, List.nodup_map_iff_inj_on nodup]
  constructor
  · rintro ⟨⟨permissions, roles, -⟩, -, -⟩
    exact ⟨permissions, roles⟩
  · rintro ⟨permissions, roles⟩
    refine ⟨⟨permissions, roles, ?_⟩, by decide, ?_⟩
    · rintro a ha b hb rfl
      obtain ⟨p, -, rfl⟩ := List.mem_map.mp ha
      obtain ⟨r, -, same⟩ := List.mem_map.mp hb
      exact permissionIdent_ne_role same.symm
    · rintro a ha b hb rfl
      rcases List.mem_append.mp ha with permission | role
      · obtain ⟨p, hp, rfl⟩ := List.mem_map.mp permission
        rw [analyzed.permissions] at hp
        exact permissionIdent_notMem_fixed (isPermissionName_of_mem hp) hb
      · obtain ⟨e, he, rfl⟩ := List.mem_map.mp role
        obtain ⟨r, -, same, -⟩ := mem_entries analyzed he
        exact roleIdent_notMem_fixed (by rw [same]; exact r.wellFormed) hb

theorem lookup_const {permissions : List String} {p : String} (hp : p ∈ permissions)
    (distinct : ∀ p ∈ permissions, ∀ q ∈ permissions,
      permissionIdent p = permissionIdent q → p = q) :
    (permissions.map fun p => (permissionIdent p, p)).lookup (permissionIdent p) = some p := by
  induction permissions with
  | nil => cases hp
  | cons q permissions ih =>
      rw [List.map_cons, List.lookup_cons]
      by_cases same : permissionIdent p = permissionIdent q
      · rw [beq_iff_eq.mpr same, distinct p hp q List.mem_cons_self same]
      · have later : p ∈ permissions := by
          rcases List.mem_cons.mp hp with rfl | later
          · exact absurd rfl same
          · exact later
        rw [beq_eq_false_iff_ne.mpr same]
        exact ih later fun a ha b hb =>
          distinct a (List.mem_cons_of_mem _ ha) b (List.mem_cons_of_mem _ hb)

theorem resolve_role (analyzed : Analyzed pkg catalog) (nodup : (fileOf catalog).idents.Nodup)
    {e : RoleEntry} (he : e ∈ catalog.roles) :
    (fileOf catalog).resolve (roleIdent e.name) = some (e.name, e.closure) := by
  obtain ⟨permissions, roles⟩ := (nodup_idents_iff analyzed).mp nodup
  have found : (fileOf catalog).roleVars.find? (fun r => r.ident = roleIdent e.name) =
      some (emitRoleVar e) := by
    refine find?_of_unique (List.mem_map_of_mem he) (decide_eq_true rfl) ?_
    intro v hv same
    obtain ⟨e', he', rfl⟩ := List.mem_map.mp hv
    rw [List.inj_on_of_nodup_map roles he' he (of_decide_eq_true same)]
  have grants : (emitRoleVar e).grants.mapM (fun g => (fileOf catalog).consts.lookup g) =
      some e.closure := by
    have known : ∀ p ∈ e.closure, p ∈ catalog.permissions :=
      fun p hp => ((mem_closure analyzed he p).mp hp).1
    generalize he' : e.closure = closure at known
    show (List.map permissionIdent e.closure).mapM _ = _
    rw [he']
    clear he'
    induction closure with
    | nil => rfl
    | cons p closure ih =>
        have here := lookup_const (known p List.mem_cons_self) permissions
        have rest := ih fun q hq => known q (List.mem_cons_of_mem _ hq)
        rw [List.map_cons, List.mapM_cons, rest]
        show ((catalog.permissions.map _).lookup _).bind _ = _
        rw [here]
        rfl
  unfold RbacFile.resolve
  rw [found, Option.bind_some, grants]
  rfl

/-- The program that the file of an analysed catalogue compiles to. -/
def programOf (catalog : RbacCatalog) : Program := ⟨catalog.roles.map fun e => (e.name, e.closure)⟩

theorem compile_eq (analyzed : Analyzed pkg catalog) (nodup : (fileOf catalog).idents.Nodup) :
    (fileOf catalog).compile = some (programOf catalog) := by
  have known : ∀ ident ∈ (fileOf catalog).allPermissions,
      ident ∈ (fileOf catalog).consts.map (·.1) := by
    intro ident mem
    obtain ⟨p, hp, rfl⟩ := List.mem_map.mp mem
    exact List.mem_map.mpr ⟨(permissionIdent p, p), List.mem_map_of_mem hp, rfl⟩
  have each : ∀ ident ∈ (fileOf catalog).allRoles, ((fileOf catalog).resolve ident).isSome := by
    intro ident mem
    obtain ⟨e, he, rfl⟩ := List.mem_map.mp mem
    rw [resolve_role analyzed nodup he]
    rfl
  have all : (fileOf catalog).allRoles.mapM (fileOf catalog).resolve =
      some (programOf catalog).allRoles := by
    refine mapM_eq_some_iff.mpr ⟨each, ?_⟩
    show (catalog.roles.map fun r => roleIdent r.name).filterMap _ = catalog.roles.map _
    rw [List.filterMap_map, ← List.filterMap_eq_map]
    exact List.filterMap_congr fun e he => resolve_role analyzed nodup he
  unfold RbacFile.compile
  rw [if_pos ⟨nodup, known⟩, all]
  rfl

theorem hasPermission_iff (analyzed : Analyzed pkg catalog) (role perm : String) :
    (programOf catalog).hasPermission role perm = true ↔
      ∃ e ∈ catalog.roles, e.name = role ∧ perm ∈ e.closure := by
  have nodup : (catalog.roles.map (·.name)).Nodup := by
    rw [names_eq analyzed]
    exact nodup_roles pkg
  unfold Program.hasPermission programOf
  rw [List.find?_map]
  cases found : catalog.roles.find? ((fun r : String × List String => decide (r.1 = role)) ∘
      fun e => (e.name, e.closure)) with
  | none =>
      refine ⟨nofun, ?_⟩
      rintro ⟨e, he, same, -⟩
      exact absurd (decide_eq_true same) (List.find?_eq_none.mp found e he)
  | some e =>
      have he := List.mem_of_find?_eq_some found
      have here := List.find?_some found
      have named : e.name = role := of_decide_eq_true here
      show (e.closure.any fun g => g = perm) = true ↔ _
      rw [List.any_eq_true]
      constructor
      · rintro ⟨g, hg, same⟩
        rw [of_decide_eq_true same] at hg
        exact ⟨e, he, named, hg⟩
      · rintro ⟨e', he', named', mem⟩
        rw [List.inj_on_of_nodup_map nodup he' he (named'.trans named.symm)] at mem
        exact ⟨perm, mem, decide_eq_true rfl⟩

end Compile

/-! ### Cycles of a plain package -/

section Cycles

variable {rs : List RoleDecl} {reported : List String}

/-- The key of a role that is its own parent. -/
theorem cycleKey_self (name : String) : cycleKey [name] name = name ++ "," ++ name := by
  have sorted : [name, name].insertionSort (· ≤ ·) = [name, name] := by
    rw [List.insertionSort_cons, List.insertionSort_cons, List.insertionSort_nil,
      List.orderedInsert_nil, List.orderedInsert_cons, if_pos le_rfl]
  show ",".intercalate ([name, name].insertionSort (· ≤ ·)) = _
  rw [sorted]
  rfl

theorem cycleKey_self_inj {name other : String}
    (h : cycleKey [name] name = cycleKey [other] other) : name = other := by
  rw [cycleKey_self, cycleKey_self, ← String.toList_inj] at h
  simp only [String.toList_append] at h
  have lengths := congrArg List.length h
  simp only [List.length_append] at lengths
  have same := List.append_inj_right h (by simp only [List.length_append]; omega)
  exact String.toList_inj.mp same

theorem chain_of_none {r : RoleDecl} (hr : r ∈ roles pkg) (h : r.inherits = none) :
    chainFrom pkg (fuel pkg) [] (some r.name) = some none := by
  unfold fuel chainFrom
  rw [if_neg List.not_mem_nil, parentOf_eq hr, h]
  unfold chainFrom
  rfl

theorem chain_of_self {r : RoleDecl} (hr : r ∈ roles pkg) (h : r.inherits = some r.name) :
    chainFrom pkg (fuel pkg) [] (some r.name) = some (some ([r.name], r.name)) := by
  have more : fuel pkg = (2 * (roles pkg).length + 1) + 1 + 1 := by
    unfold fuel
    omega
  rw [more, chainFrom, if_neg List.not_mem_nil, parentOf_eq hr, h, List.nil_append, chainFrom,
    if_pos (List.mem_singleton_self _)]

/-- When roles have no parents but themselves, these are the cycles, each found once. -/
theorem cycleIssues_eq (within : ∀ r ∈ rs, r ∈ roles pkg)
    (parents : ∀ r ∈ rs, r.inherits = none ∨ r.inherits = some r.name)
    (nodup : (rs.map (·.name)).Nodup)
    (fresh : ∀ r ∈ rs, cycleKey [r.name] r.name ∉ reported) : cycleIssues pkg reported rs =
      some ((rs.filter fun r => r.inherits = some r.name).map fun r => .cycle [r.name] r.name) := by
  induction rs generalizing reported with
  | nil => rfl
  | cons r rs ih =>
      have inside : ∀ s ∈ rs, s ∈ roles pkg := fun s hs => within s (List.mem_cons_of_mem _ hs)
      have plain : ∀ s ∈ rs, s.inherits = none ∨ s.inherits = some s.name :=
        fun s hs => parents s (List.mem_cons_of_mem _ hs)
      obtain ⟨new, rest⟩ := List.nodup_cons.mp nodup
      have unseen : ∀ s ∈ rs, cycleKey [s.name] s.name ∉ reported :=
        fun s hs => fresh s (List.mem_cons_of_mem _ hs)
      unfold cycleIssues
      rcases parents r List.mem_cons_self with none | self
      · rw [chain_of_none (within r List.mem_cons_self) none,
          List.filter_cons_of_neg (by simp [none])]
        exact ih inside plain rest unseen
      · rw [chain_of_self (within r List.mem_cons_self) self,
          List.filter_cons_of_pos (by simp [self])]
        simp only [Option.bind_eq_bind, Option.bind_some]
        rw [if_neg (fresh r List.mem_cons_self), ih inside plain rest, Option.bind_some,
          List.map_cons]
        intro s hs old
        rcases List.mem_cons.mp old with same | before
        · exact new (List.mem_map.mpr ⟨s, hs, cycleKey_self_inj same⟩)
        · exact unseen s hs before

theorem onCycle_iff (plain : Plain pkg) (x : String) :
    OnCycle pkg x ↔ ∃ r ∈ roles pkg, r.inherits = some r.name ∧ r.name = x := by
  constructor
  · intro path
    obtain ⟨y, step, -⟩ := Relation.TransGen.head'_iff.mp path
    obtain ⟨r, hr, named, inherits⟩ := parentOf_eq_some step
    rcases plain.parents r hr with none | self
    · rw [none] at inherits
      cases inherits
    · exact ⟨r, hr, self, named⟩
  · rintro ⟨r, hr, self, rfl⟩
    exact .single ((parentOf_eq hr).trans self)

end Cycles

/-- An issue that is no cycle. -/
def Acyclic (issue : Issue) : Prop := ∀ chain name, issue ≠ .cycle chain name

theorem acyclic_roleIssues {seen : List String} {rs : List RoleDecl} :
    ∀ issue ∈ roleIssues pkg seen rs, Acyclic issue := by
  induction rs generalizing seen with
  | nil => exact fun issue mem => absurd mem List.not_mem_nil
  | cons r rs ih =>
      intro issue mem
      unfold roleIssues at mem
      split at mem
      · rcases List.mem_cons.mp mem with rfl | later
        · exact nofun
        · exact ih issue later
      · rcases List.mem_append.mp mem with unknown | later
        · unfold unknownGrants at unknown
          split at unknown
          · obtain ⟨g, -, rfl⟩ := List.mem_map.mp unknown
            exact nofun
          · exact absurd unknown List.not_mem_nil
        · exact ih issue later

theorem acyclic_inheritIssues : ∀ issue ∈ inheritIssues pkg, Acyclic issue := by
  intro issue mem
  obtain ⟨r, -, found⟩ := List.mem_filterMap.mp mem
  split at found
  · cases found
  · split at found
    · cases found
    · cases found
      exact nofun

theorem acyclic_unusedIssues {entries : List RoleEntry} :
    ∀ issue ∈ unusedIssues pkg entries, Acyclic issue := by
  intro issue mem
  unfold unusedIssues at mem
  split at mem
  · exact absurd mem List.not_mem_nil
  · obtain ⟨p, -, rfl⟩ := List.mem_map.mp mem
    exact nofun

theorem countP_reports_acyclic {issues : List Issue} (x : String)
    (h : ∀ issue ∈ issues, Acyclic issue) : issues.countP (reports x) = 0 := by
  rw [List.countP_eq_zero]
  intro issue mem
  cases issue with
  | cycle chain name => exact absurd rfl (h _ mem chain name)
  | _ => exact Bool.false_ne_true

/-! ### When the checks agree -/

section Agreement

variable {catalog : RbacCatalog} {issues : List Issue}

theorem plain_of_agrees (analyzed : Analyzed pkg catalog) (agrees : Agrees pkg catalog issues) :
    Plain pkg where
  parents r hr := by
    cases inherits : r.inherits with
    | none => exact .inl rfl
    | some parent =>
        have reach : Reaches pkg r.name parent := .single ((parentOf_eq hr).trans inherits)
        have same : r.name = parent := of_decide_eq_true ((agrees.roles r.name parent).mpr reach)
        exact .inr (by rw [same])
  permissions := (permissionIdents_iff analyzed).mp agrees.idents
  roles := by
    obtain ⟨program, compiles, -⟩ := agrees.checks
    rw [emit_of_analyzed analyzed, Option.bind_some] at compiles
    have nodup : (fileOf catalog).idents.Nodup := by
      unfold RbacFile.compile at compiles
      split at compiles
      · rename_i h
        exact h.1
      · cases compiles
    exact (nodup_roleIdents_iff analyzed).mp ((nodup_idents_iff analyzed).mp nodup).2

theorem reaches_plain (plain : Plain pkg) {role name : String} (h : Reaches pkg role name) :
    role = name := by
  induction h with
  | refl => rfl
  | tail _ step ih =>
      obtain ⟨r, hr, rfl, inherits⟩ := parentOf_eq_some step
      rcases plain.parents r hr with none | self
      · rw [none] at inherits
        cases inherits
      · exact ih.trans (Option.some.inj (self.symm.trans inherits))

/-- In a plain package every cycle is a role that is its own parent, and is reported once. -/
theorem countP_cycles (plain : Plain pkg) {x : String} (cyclic : OnCycle pkg x) :
    (((roles pkg).filter fun r => r.inherits = some r.name).map
      fun r => Issue.cycle [r.name] r.name).countP (reports x) = 1 := by
  obtain ⟨r, hr, self, rfl⟩ := (onCycle_iff plain x).mp cyclic
  have named : reports r.name ∘ (fun s : RoleDecl => Issue.cycle [s.name] s.name) =
      (· == r.name) ∘ fun s : RoleDecl => s.name := by
    funext s
    show decide (r.name ∈ [s.name].dropWhile (· ≠ s.name)) = (s.name == r.name)
    rw [List.dropWhile_cons_of_neg (by simp), Bool.eq_iff_iff, decide_eq_true_iff,
      List.mem_singleton, beq_iff_eq, eq_comm]
  rw [List.countP_map, named, ← List.countP_map]
  refine List.count_eq_one_of_mem ?_ ?_
  · exact (List.filter_sublist.map _).nodup (nodup_roles pkg)
  · exact List.mem_map_of_mem (List.mem_filter.mpr ⟨hr, decide_eq_true self⟩)

theorem agrees_of_plain (analyzed : Analyzed pkg catalog) (plain : Plain pkg)
    {cycles : List Issue} (hcycles : cycleIssues pkg [] (roles pkg) = some cycles) :
    Agrees pkg catalog ((firstsFrom (·.name) [] pkg.permissions).2.map .permDuplicate ++
      roleIssues pkg [] pkg.roles ++ inheritIssues pkg ++ cycles ++
        unusedIssues pkg catalog.roles) := by
  have fresh : ∀ r ∈ roles pkg, cycleKey [r.name] r.name ∉ [] := fun r hr => List.not_mem_nil
  have found := cycleIssues_eq (fun r hr => hr) plain.parents (nodup_roles pkg) fresh
  cases hcycles.symm.trans found
  have duplicates : ∀ issue ∈ (firstsFrom (·.name) [] pkg.permissions).2.map Issue.permDuplicate,
      Acyclic issue := by
    intro issue mem
    obtain ⟨p, -, rfl⟩ := List.mem_map.mp mem
    exact nofun
  have distinct := (permissionIdents_iff analyzed).mpr plain.permissions
  have nodup := (nodup_idents_iff analyzed).mpr
    ⟨distinct, (nodup_roleIdents_iff analyzed).mpr plain.roles⟩
  refine ⟨fun e he => mem_closure analyzed he, ?_, ?_, distinct, ?_, ?_⟩
  · intro x cyclic
    simp only [List.countP_append, countP_reports_acyclic x duplicates,
      countP_reports_acyclic x acyclic_roleIssues, countP_reports_acyclic x acyclic_inheritIssues,
      countP_reports_acyclic x acyclic_unusedIssues, countP_cycles plain cyclic]
  · intro chain x mem
    simp only [List.mem_append] at mem
    rcases mem with (((duplicate | role) | inherit) | cycle) | unused
    · exact absurd rfl (duplicates _ duplicate chain x)
    · exact absurd rfl (acyclic_roleIssues _ role chain x)
    · exact absurd rfl (acyclic_inheritIssues _ inherit chain x)
    · obtain ⟨r, hr, same⟩ := List.mem_map.mp cycle
      cases same
      obtain ⟨mem, self⟩ := List.mem_filter.mp hr
      exact (onCycle_iff plain _).mpr ⟨r, mem, of_decide_eq_true self, rfl⟩
    · exact absurd rfl (acyclic_unusedIssues _ unused chain x)
  · refine ⟨programOf catalog, ?_, hasPermission_iff analyzed⟩
    rw [emit_of_analyzed analyzed]
    exact compile_eq analyzed nodup
  · intro role name
    constructor
    · intro same
      rw [of_decide_eq_true same]
    · intro reach
      exact decide_eq_true (reaches_plain plain reach)

end Agreement

/-- The analysis ends, and what it and the generated checks say agrees with the graph. -/
def Holds (pkg : PackageSkeleton) : Prop :=
  match analyzeRbacCatalog pkg with
  | none => False
  | some (none, _) => True
  | some (some catalog, issues) => Agrees pkg catalog issues

theorem agrees_iff (pkg : PackageSkeleton) : Holds pkg ↔ Plain pkg := by
  obtain ⟨⟨found, issues⟩, analysis⟩ := Option.isSome_iff_exists.mp (analyze_terminates pkg)
  unfold Holds
  rw [analysis]
  cases found with
  | none =>
      obtain ⟨noPermissions, noRoles⟩ := empty_of_analyze analysis
      refine ⟨fun _ => ⟨?_, ?_, ?_⟩, fun _ => trivial⟩
      · intro r hr
        exact absurd (mem_of_mem_firstsFrom hr) (by rw [noRoles]; exact List.not_mem_nil)
      · intro p hp
        obtain ⟨d, hd, -⟩ := List.mem_map.mp hp
        exact absurd (mem_of_mem_firstsFrom hd) (by rw [noPermissions]; exact List.not_mem_nil)
      · intro r hr
        exact absurd (mem_of_mem_firstsFrom hr) (by rw [noRoles]; exact List.not_mem_nil)
  | some catalog =>
      obtain ⟨analyzed, cycles, hcycles, rfl⟩ := analyzed_of_analyze analysis
      exact ⟨plain_of_agrees analyzed, fun plain => agrees_of_plain analyzed plain hcycles⟩

/-- `role viewer { inherited_only }` and `role editor { inherits viewer }`. -/
def readers : PackageSkeleton where
  permissions := []
  roles := [⟨"viewer", none, .inheritedOnly, by decide⟩,
    ⟨"editor", some "viewer", .inheritedOnly, by decide⟩]

/-- An editor is a viewer, and `HasRole` does not say so. -/
theorem editor_not_viewer : ¬Holds readers := by
  intro holds
  have inherits : Reaches readers "editor" "viewer" := .single (by decide)
  unfold Holds at holds
  split at holds
  · exact holds
  · rename_i analysis
    cases (empty_of_analyze analysis).2
  · exact absurd ((holds.roles "editor" "viewer").mpr inherits) (by decide)

end Lazuli.Codegen.Rbac
