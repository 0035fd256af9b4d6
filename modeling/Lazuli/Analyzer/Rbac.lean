import Mathlib.Data.String.Basic
import Lazuli.General.Kahn
import Lazuli.General.Lookup
import Lazuli.General.Worklist

/-!
The catalogue of permissions and roles (`crates/lazuli_analyzer/src/rbac.rs`).

`analyze_rbac_catalog` keeps the first declaration of every name, checks the references, looks for
cycles of inheritance, and computes for every role the permissions that its ancestors grant. A role
has at most one parent, which need not exist.

Both walks have fuel here; `analyze_terminates` says that it lasts. `mem_closure_iff` says what a
closure is: the declared permissions that a reachable role grants.
-/

namespace Lazuli.Analyzer.Rbac

open Lazuli.General Lazuli.General.Kahn

/-! ### Declarations -/

/-- `[a-z][a-z0-9_]*`. -/
def isSegment (s : List Char) : Bool :=
  s.head?.any Char.isLower && s.all fun c => c.isLower || c.isDigit || c = '_'

/-- Two to four segments. -/
def isPermissionName (name : String) : Bool :=
  let segments := name.toList.splitOn ':'
  2 ≤ segments.length && segments.length ≤ 4 && segments.all isSegment

structure PermissionDecl where
  name : String
  wellFormed : isPermissionName name = true
  deriving DecidableEq

inductive RoleGrants where
  | explicit (list : List String)
  | all
  | inheritedOnly
  deriving DecidableEq

structure RoleDecl where
  name : String
  inherits : Option String
  grants : RoleGrants
  wellFormed : isSegment name.toList = true
  deriving DecidableEq

structure PackageSkeleton where
  permissions : List PermissionDecl
  roles : List RoleDecl

structure RoleEntry where
  name : String
  inherits : Option String
  grants : RoleGrants
  closure : List String
  deriving DecidableEq

structure RbacCatalog where
  permissions : List String
  roles : List RoleEntry
  deriving DecidableEq

inductive Issue where
  | permDuplicate (name : String)
  | roleDuplicate (name : String)
  | permUnknown (role perm : String)
  | inheritUnknown (role parent : String)
  | cycle (chain : List String) (name : String)
  | permUnused (name : String)
  deriving DecidableEq

def Issue.code : Issue → String
  | .permDuplicate _ => "RBAC-PERM-DUPLICATE-001"
  | .roleDuplicate _ => "RBAC-ROLE-DUPLICATE-001"
  | .permUnknown _ _ => "RBAC-PERM-UNKNOWN-001"
  | .inheritUnknown _ _ => "RBAC-ROLE-INHERIT-UNKNOWN-001"
  | .cycle _ _ => "RBAC-CYCLE-001"
  | .permUnused _ => "RBAC-PERM-UNUSED-001"

def Issue.message : Issue → String
  | .permDuplicate name => "duplicate permission `" ++ name ++ "` in catalog"
  | .roleDuplicate name => "duplicate role `" ++ name ++ "` in catalog"
  | .permUnknown role perm => "role `" ++ role ++ "` grants undeclared permission `" ++ perm ++ "`"
  | .inheritUnknown role parent =>
      "role `" ++ role ++ "` inherits from unknown role `" ++ parent ++ "`"
  | .cycle chain name =>
      "role inheritance cycle detected: " ++ " -> ".intercalate chain ++ " -> " ++ name
  | .permUnused name => "permission `" ++ name ++ "` is declared but no role grants it"

/-! ### The catalogue -/

/-- The first declarations of every name, and the names that were declared again. -/
def firstsFrom {α : Type} (name : α → String) : List String → List α → List α × List String
  | _, [] => ([], [])
  | seen, d :: ds =>
      if name d ∈ seen then
        let rest := firstsFrom name seen ds
        (rest.1, name d :: rest.2)
      else
        let rest := firstsFrom name (name d :: seen) ds
        (d :: rest.1, rest.2)

section Firsts

variable {α : Type} {name : α → String} {seen : List String} {ds : List α}

theorem notMem_seen_of_mem_firstsFrom {d : α} (h : d ∈ (firstsFrom name seen ds).1) :
    name d ∉ seen := by
  induction ds generalizing seen with
  | nil => exact absurd h List.not_mem_nil
  | cons e ds ih =>
      unfold firstsFrom at h
      split at h
      · exact ih h
      · rename_i new
        rcases List.mem_cons.mp h with rfl | later
        · exact new
        · exact fun old => ih later (List.mem_cons_of_mem _ old)

theorem mem_of_mem_firstsFrom {d : α} (h : d ∈ (firstsFrom name seen ds).1) : d ∈ ds := by
  induction ds generalizing seen with
  | nil => exact h
  | cons e ds ih =>
      unfold firstsFrom at h
      split at h
      · exact List.mem_cons_of_mem _ (ih h)
      · rcases List.mem_cons.mp h with rfl | later
        · exact List.mem_cons_self
        · exact List.mem_cons_of_mem _ (ih later)

theorem nodup_firstsFrom : ((firstsFrom name seen ds).1.map name).Nodup := by
  induction ds generalizing seen with
  | nil => exact List.nodup_nil
  | cons e ds ih =>
      unfold firstsFrom
      split
      · exact ih
      · rw [List.map_cons, List.nodup_cons]
        refine ⟨?_, ih⟩
        intro mem
        obtain ⟨d, later, same⟩ := List.mem_map.mp mem
        exact notMem_seen_of_mem_firstsFrom later (by rw [same]; exact List.mem_cons_self)

theorem firstsFrom_nil_eq_nil (h : (firstsFrom name [] ds).1 = []) : ds = [] := by
  cases ds with
  | nil => rfl
  | cons d ds => simp [firstsFrom] at h

end Firsts

variable (pkg : PackageSkeleton)

/-- `perm_entries`, by their names. -/
def declared : List String := (firstsFrom (·.name) [] pkg.permissions).1.map (·.name)

/-- The roles of `role_entries`. -/
def roles : List RoleDecl := (firstsFrom (·.name) [] pkg.roles).1

/-- `grants_by_role`. -/
def grantsOf (name : String) : Option RoleGrants :=
  ((roles pkg).find? (·.name = name)).map (·.grants)

/-- `role_parent`. -/
def parentOf (name : String) : Option String :=
  ((roles pkg).find? (·.name = name)).bind (·.inherits)

def unknownGrants (r : RoleDecl) : List Issue :=
  match r.grants with
  | .explicit list => (list.filter (· ∉ declared pkg)).map (.permUnknown r.name)
  | _ => []

/-- The issues of the loop over the roles. -/
def roleIssues : List String → List RoleDecl → List Issue
  | _, [] => []
  | seen, r :: rs =>
      if r.name ∈ seen then .roleDuplicate r.name :: roleIssues seen rs
      else unknownGrants pkg r ++ roleIssues (r.name :: seen) rs

def inheritIssues : List Issue :=
  pkg.roles.filterMap fun r =>
    match r.inherits with
    | none => none
    | some parent =>
        if parent ∈ (roles pkg).map (·.name) then none else some (.inheritUnknown r.name parent)

/-! ### Cycles -/

/-- Follow the parents until there is none or one comes again. `none` when the fuel is used up. -/
def chainFrom : Nat → List String → Option String → Option (Option (List String × String))
  | _, _, none => some none
  | 0, _, some _ => none
  | fuel + 1, chain, some name =>
      if name ∈ chain then some (some (chain, name))
      else chainFrom fuel (chain ++ [name]) (parentOf pkg name)

/-- The names of the chain in order, by which a cycle is known. -/
def cycleKey (chain : List String) (name : String) : String :=
  ",".intercalate ((chain ++ [name]).insertionSort (· ≤ ·))

def fuel : Nat := 2 * ((roles pkg).length + 1) + 1

def cycleIssues : List String → List RoleDecl → Option (List Issue)
  | _, [] => some []
  | reported, r :: rs => do
      match ← chainFrom pkg (fuel pkg) [] (some r.name) with
      | none => cycleIssues reported rs
      | some (chain, name) =>
          let key := cycleKey chain name
          if key ∈ reported then cycleIssues reported rs
          else do
            let rest ← cycleIssues (key :: reported) rs
            some (.cycle chain name :: rest)

/-! ### Closures -/

/-- What a role grants itself is added; `grants_all` ends the walk. -/
def collect (acc : List String) (name : String) : Except Unit (List String) :=
  match grantsOf pkg name with
  | some .all => .error ()
  | some (.explicit list) =>
      .ok (list.foldl (fun acc g => if g ∈ declared pkg then insertSorted g acc else acc) acc)
  | _ => .ok acc

def parents (name : String) : List String := (parentOf pkg name).toList

def closureOf (name : String) : Option (List String) := do
  match ← walk (parents pkg) (collect pkg) (fuel pkg) [] [] [name] with
  | .error () => some (declared pkg)
  | .ok acc => some acc

def roleEntry (r : RoleDecl) : Option RoleEntry := do
  let closure ← closureOf pkg r.name
  some ⟨r.name, r.inherits, r.grants, closure⟩

def unusedIssues (entries : List RoleEntry) : List Issue :=
  if entries.any fun r => r.grants = .all then []
  else ((declared pkg).filter fun p => !entries.any fun r => r.closure.contains p).map .permUnused

/-- The catalogue and the issues, in the order in which they are found. -/
def analyzeRbacCatalog : Option (Option RbacCatalog × List Issue) :=
  if pkg.permissions.isEmpty && pkg.roles.isEmpty then some (none, [])
  else do
    let cycles ← cycleIssues pkg [] (roles pkg)
    let entries ← (roles pkg).mapM (roleEntry pkg)
    some (some ⟨declared pkg, entries⟩,
      (firstsFrom (·.name) [] pkg.permissions).2.map .permDuplicate ++
        roleIssues pkg [] pkg.roles ++ inheritIssues pkg ++ cycles ++ unusedIssues pkg entries)

def roleGrantsPermission (catalog : RbacCatalog) (role perm : String) : Bool :=
  match catalog.roles.find? (·.name = role) with
  | none => false
  | some r => r.closure.any (· = perm)

/-! ### Inheritance -/

section Inheritance

variable {pkg} {name : String}

theorem nodup_declared (pkg : PackageSkeleton) : (declared pkg).Nodup := nodup_firstsFrom

theorem nodup_roles (pkg : PackageSkeleton) : ((roles pkg).map (·.name)).Nodup := nodup_firstsFrom

theorem eq_of_name_eq {r s : RoleDecl} (hr : r ∈ roles pkg) (hs : s ∈ roles pkg)
    (same : r.name = s.name) : r = s :=
  List.inj_on_of_nodup_map (nodup_roles pkg) hr hs same

theorem parentOf_eq {r : RoleDecl} (h : r ∈ roles pkg) : parentOf pkg r.name = r.inherits := by
  have found : (roles pkg).find? (·.name = r.name) = some r :=
    find?_of_unique h (decide_eq_true rfl) fun s hs same =>
      eq_of_name_eq hs h (of_decide_eq_true same)
  unfold parentOf
  rw [found]
  rfl

/-- Who has a parent is a declared role. -/
theorem parentOf_eq_some {v w : String} (h : parentOf pkg v = some w) :
    ∃ r ∈ roles pkg, r.name = v ∧ r.inherits = some w := by
  obtain ⟨r, found, inherits⟩ := Option.bind_eq_some_iff.mp h
  have named := List.find?_some found
  exact ⟨r, List.mem_of_find?_eq_some found, of_decide_eq_true named, inherits⟩

/-- One role inherits from the other, perhaps through several. -/
abbrev Reaches (pkg : PackageSkeleton) : String → String → Prop :=
  Relation.ReflTransGen fun a b => parentOf pkg a = some b

/-- A role that is declared under this name grants the permission itself. -/
def Grants (pkg : PackageSkeleton) (name perm : String) : Prop :=
  grantsOf pkg name = some .all ∨
    ∃ list, grantsOf pkg name = some (.explicit list) ∧ perm ∈ list

/-- The names that a walk from a role can come to. -/
def namesFrom (pkg : PackageSkeleton) (name : String) : List String :=
  name :: (roles pkg).filterMap (·.inherits)

theorem mem_namesFrom_of_parent {v w : String} (h : parentOf pkg v = some w) :
    w ∈ namesFrom pkg name := by
  obtain ⟨r, found, inherits⟩ := Option.bind_eq_some_iff.mp h
  have declared := List.mem_of_find?_eq_some found
  exact List.mem_cons_of_mem _ (List.mem_filterMap.mpr ⟨r, declared, inherits⟩)

theorem length_namesFrom (pkg : PackageSkeleton) (name : String) :
    (namesFrom pkg name).length ≤ (roles pkg).length + 1 := by
  unfold namesFrom
  rw [List.length_cons]
  exact Nat.succ_le_succ (List.length_filterMap_le _ _)

theorem mem_parents {v w : String} : w ∈ parents pkg v ↔ parentOf pkg v = some w := by
  unfold parents
  rw [Option.mem_toList]

theorem reaches_iff {v w : String} :
    Relation.ReflTransGen (Succ (parents pkg)) v w ↔ Reaches pkg v w := by
  have same : Succ (parents pkg) = fun a b => parentOf pkg a = some b := by
    funext a b
    exact propext mem_parents
  rw [same]

/-! ### The walks end -/

theorem chainFrom_isSome (name : String) {chain : List String} {current : Option String}
    {fuel : Nat} (nodup : chain.Nodup) (within : ∀ v ∈ chain, v ∈ namesFrom pkg name)
    (here : ∀ v, current = some v → v ∈ namesFrom pkg name)
    (enough : (namesFrom pkg name).length + 1 ≤ chain.length + fuel) :
    (chainFrom pkg fuel chain current).isSome = true := by
  induction fuel generalizing chain current with
  | zero =>
      have bound := (List.subperm_of_subset nodup within).length_le
      omega
  | succ fuel ih =>
      cases current with
      | none => rfl
      | some v =>
          unfold chainFrom
          by_cases old : v ∈ chain
          · rw [if_pos old]
            rfl
          · rw [if_neg old]
            refine ih ?_ ?_ (fun w hw => mem_namesFrom_of_parent hw) ?_
            · rw [← List.concat_eq_append]
              exact nodup.concat old
            · intro w mem
              rcases List.mem_append.mp mem with before | now
              · exact within w before
              · rw [List.mem_singleton.mp now]
                exact here v rfl
            · rw [List.length_append, List.length_singleton]
              omega

theorem chain_isSome (pkg : PackageSkeleton) (name : String) :
    (chainFrom pkg (fuel pkg) [] (some name)).isSome = true := by
  have bound := length_namesFrom pkg name
  refine chainFrom_isSome name List.nodup_nil (by simp) ?_ ?_
  · rintro v ⟨rfl⟩
    exact List.mem_cons_self
  · unfold fuel
    rw [List.length_nil]
    omega

theorem closureOf_isSome (pkg : PackageSkeleton) (name : String) :
    (closureOf pkg name).isSome = true := by
  have bound := length_namesFrom pkg name
  have ends : (walk (parents pkg) (collect pkg) (fuel pkg) [] [] [name]).isSome = true := by
    refine walk_isSome (namesFrom pkg name) ?_ ?_ List.nodup_nil (by simp) ?_ ?_
    · exact fun v w mem => mem_namesFrom_of_parent (mem_parents.mp mem)
    · intro v
      unfold parents
      cases parentOf pkg v <;> simp
    · intro v mem
      rw [List.mem_singleton.mp mem]
      exact List.mem_cons_self
    · unfold fuel
      rw [List.length_nil, List.length_singleton]
      omega
  obtain ⟨result, hresult⟩ := Option.isSome_iff_exists.mp ends
  unfold closureOf
  rw [hresult]
  cases result <;> rfl

theorem cycleIssues_isSome (pkg : PackageSkeleton) (reported : List String) (rs : List RoleDecl) :
    (cycleIssues pkg reported rs).isSome = true := by
  induction rs generalizing reported with
  | nil => rfl
  | cons r rs ih =>
      obtain ⟨found, hfound⟩ := Option.isSome_iff_exists.mp (chain_isSome pkg r.name)
      unfold cycleIssues
      rw [hfound]
      cases found with
      | none => exact ih reported
      | some cycle =>
          obtain ⟨chain, name⟩ := cycle
          simp only [Option.bind_eq_bind, Option.bind_some]
          split
          · exact ih reported
          · have more := ih (cycleKey chain name :: reported)
            obtain ⟨rest, hrest⟩ := Option.isSome_iff_exists.mp more
            rw [hrest]
            rfl

theorem entries_isSome (pkg : PackageSkeleton) (rs : List RoleDecl) :
    (rs.mapM (roleEntry pkg)).isSome = true := by
  induction rs with
  | nil => rfl
  | cons r rs ih =>
      obtain ⟨closure, hclosure⟩ := Option.isSome_iff_exists.mp (closureOf_isSome pkg r.name)
      obtain ⟨rest, hrest⟩ := Option.isSome_iff_exists.mp ih
      rw [List.mapM_cons, hrest]
      unfold roleEntry
      rw [hclosure]
      rfl

end Inheritance

/-! ### Closures are reachability -/

section Closure

variable {pkg}

theorem mem_foldl_granted {acc list : List String} {p : String} :
    p ∈ list.foldl (fun acc g => if g ∈ declared pkg then insertSorted g acc else acc) acc ↔
      p ∈ acc ∨ p ∈ declared pkg ∧ p ∈ list := by
  induction list generalizing acc with
  | nil => simp
  | cons g list ih =>
      rw [List.foldl_cons, ih, List.mem_cons]
      by_cases known : g ∈ declared pkg
      · rw [if_pos known, mem_insertSorted]
        constructor
        · rintro ((rfl | old) | ⟨hp, later⟩)
          · exact .inr ⟨known, .inl rfl⟩
          · exact .inl old
          · exact .inr ⟨hp, .inr later⟩
        · rintro (old | ⟨hp, rfl | later⟩)
          · exact .inl (.inr old)
          · exact .inl (.inl rfl)
          · exact .inr ⟨hp, later⟩
      · rw [if_neg known]
        constructor
        · rintro (old | ⟨hp, later⟩)
          · exact .inl old
          · exact .inr ⟨hp, .inr later⟩
        · rintro (old | ⟨hp, rfl | later⟩)
          · exact .inl old
          · exact absurd hp known
          · exact .inr ⟨hp, later⟩

/-- What one visit adds; a visit that goes on met no `grants_all`. -/
theorem mem_collect {acc acc' : List String} {name p : String}
    (h : collect pkg acc name = .ok acc') : grantsOf pkg name ≠ some .all ∧
      (p ∈ acc' ↔ p ∈ acc ∨ p ∈ declared pkg ∧ Grants pkg name p) := by
  unfold collect at h
  unfold Grants
  cases hgrants : grantsOf pkg name with
  | none =>
      rw [hgrants] at h
      cases h
      simp
  | some grants =>
      rw [hgrants] at h
      cases grants with
      | all => cases h
      | inheritedOnly =>
          cases h
          simp
      | explicit list =>
          cases h
          rw [mem_foldl_granted]
          simp

theorem mem_foldlM_collect {acc acc' order : List String} {p : String}
    (h : order.foldlM (collect pkg) acc = .ok acc') :
    (∀ q ∈ order, grantsOf pkg q ≠ some .all) ∧
      (p ∈ acc' ↔ p ∈ acc ∨ p ∈ declared pkg ∧ ∃ q ∈ order, Grants pkg q p) := by
  induction order generalizing acc with
  | nil =>
      cases h
      simp
  | cons q order ih =>
      rw [List.foldlM_cons] at h
      cases hfirst : collect pkg acc q with
      | error e =>
          rw [hfirst] at h
          cases h
      | ok next =>
          rw [hfirst] at h
          obtain ⟨others, mem⟩ := ih h
          obtain ⟨here, first⟩ := mem_collect (p := p) hfirst
          refine ⟨?_, ?_⟩
          · intro r hr
            rcases List.mem_cons.mp hr with rfl | later
            · exact here
            · exact others r later
          · rw [mem, first]
            simp only [List.mem_cons, exists_eq_or_imp]
            tauto

/-- The closure of a role is what the roles it reaches grant, of the declared permissions. -/
theorem mem_closure_iff {name : String} {closure : List String}
    (h : closureOf pkg name = some closure) (p : String) :
    p ∈ closure ↔ p ∈ declared pkg ∧ ∃ q, Reaches pkg name q ∧ Grants pkg q p := by
  unfold closureOf at h
  obtain ⟨result, hwalk, h⟩ := Option.bind_eq_some_iff.mp h
  cases result with
  | error e =>
      cases h
      obtain ⟨q, seen, path, hvisit⟩ := walk_error hwalk
      have everything : grantsOf pkg q = some .all := by
        unfold collect at hvisit
        split at hvisit
        · assumption
        · cases hvisit
        · cases hvisit
      exact ⟨fun mem => ⟨mem, q, reaches_iff.mp path, .inl everything⟩, And.left⟩
  | ok acc =>
      cases h
      obtain ⟨order, -, visited, hfold⟩ := walk_ok hwalk
      rw [(mem_foldlM_collect hfold).2]
      simp only [List.not_mem_nil, false_or, visited, reaches_iff]

end Closure

/-- The analysis ends, whatever inherits from whatever. -/
theorem analyze_terminates : (analyzeRbacCatalog pkg).isSome = true := by
  unfold analyzeRbacCatalog
  split
  · rfl
  · obtain ⟨cycles, hcycles⟩ := Option.isSome_iff_exists.mp (cycleIssues_isSome pkg [] (roles pkg))
    obtain ⟨entries, hentries⟩ := Option.isSome_iff_exists.mp (entries_isSome pkg (roles pkg))
    rw [hcycles, hentries]
    rfl

end Lazuli.Analyzer.Rbac
