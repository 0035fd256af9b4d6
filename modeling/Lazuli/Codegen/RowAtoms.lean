import Lazuli.Codegen.CommandPolicy
import Lazuli.Codegen.Scope
import Lazuli.Runtime.ListFilters

/-!
The atoms of `@scope` that are about a row (`resolve_scope_bindings` and `emit_scope_binding_row` in
`emitter/command/scope.rs`, `atomMatches` in `handle.go`).

A row answers `@scope.owner`, `@scope.self` and `@scope.same_org` by its columns. The runtime
tests a policy without a row: to it nobody is an owner, and everybody with a tenant is of the same
organisation. The emitter puts an entry into the WHERE map for each of the atoms that it finds a
column for. The entry asks for what the atom says, but for an owner one relation away it names the
table as the resource is written.
-/

namespace Lazuli.Codegen

open Ir
open Lazuli.Runtime (Ident Source Server Row Ctx Value Slot Hooks Rbac Granted Meets isIdentChar
  sqlEq tableOf resolveSource fragmentOf User Tenant)

/-! ### Entries -/

/-- What a binding puts into the WHERE map, unless quoting it panics. -/
def ScopeBinding.entry (b : ScopeBinding) : Option (Ident × Source) :=
  (Ident.of b.column).bind fun column =>
    match b.via with
    | none => some (column, .ctx b.ctxPath)
    | some (table, owner) =>
        (Ident.of table).bind fun table => (Ident.of owner).map fun owner =>
          (column, .ctxOwnedVia b.ctxPath table owner)

section Rows

variable (h : Hooks) (ctx : Ctx) (input : Slot) (server : Server) (row : Row)

def ScopeBinding.Holds (b : ScopeBinding) : Prop :=
  ∃ e, b.entry = some e ∧ Meets h (some ctx) input server row e

/-- The policy check passes, and the row meets the WHERE map: what the command brings itself
(`own`), and the bindings. -/
structure Selected (command : Command) (feature : Feature) (own : List (Ident × Source)) :
    Prop where
  granted : Granted h.rbac ctx (some input)
    (formatPolicyWithExpr command.policy command.policyExpr feature.policies)
  own : ∀ e ∈ own, Meets h (some ctx) input server row e
  bound : ∀ b ∈ resolveScopeBindings command feature, b.Holds h ctx input server row

end Rows

/-! ### Atoms of a row -/

/-- The answers of a row to the atoms `@scope.owner`, `@scope.self` and `@scope.same_org`. -/
structure RowAtoms where
  owner : Bool
  self : Bool
  sameOrg : Bool
  deriving DecidableEq

/-- The atoms of a row are read off the row, all others off the context. -/
def RowAtoms.leaf (a : RowAtoms) (hooks : Rbac) (ctx : Ctx) (ns name : String) : Bool :=
  match ns, name with
  | "scope", "owner" => a.owner
  | "scope", "self" => a.self
  | "scope", "same_org" => a.sameOrg
  | ns, name => leafMatches hooks ctx ns name

/-- The ids of the related rows that belong to the user. -/
def relatedIds (server : Server) (via : OwnerViaRelation) (userID : Int) : List Value :=
  match Ident.of via.relatedTable, Ident.of via.relatedOwnerColumn with
  | some table, some owner => server.ownedIds (tableOf table) owner (.int userID)
  | _, _ => []

section Reading

variable (resource : Resource) (feature : Feature)

/-- The row belongs to the user: by its owner column, or by the row it refers to. -/
def ownsRow (server : Server) (row : Row) (userID : Int) : Bool :=
  match findScopeColumn resource ownerColumns with
  | some column => sqlEq (row column) (.int userID)
  | none => (findOwnerViaRelation resource feature).any fun via =>
      (relatedIds server via userID).any (sqlEq (row via.fkColumn))

/-- A field, or the column that the tenancy brings in. -/
def sameOrgColumn : Option String :=
  (findScopeColumn resource sameOrgColumns).or
    (if effectiveTenancy feature resource = .org then some "org_id" else none)

def rowAtoms (ctx : Ctx) (server : Server) (row : Row) : RowAtoms where
  owner := ctx.user.any fun user => ownsRow resource feature server row user.id
  self := ctx.user.any fun user => sqlEq (row "id") (.int user.id)
  sameOrg := ctx.user.any fun user =>
    (sameOrgColumn resource feature).any fun column => sqlEq (row column) (.int user.orgID)

/-- The row is one of the caller's tenant, where the runtime scopes by it. -/
def InTenant (ctx : Ctx) (row : Row) : Prop :=
  effectiveTenancy feature resource = .org →
    ∃ tenant, ctx.tenant = some tenant ∧ row "org_id" = .int tenant.orgID

end Reading

/-! ### The entry of the owner -/

section Owner

variable (resource : Resource) (feature : Feature)

/-- A user can own a row. -/
def ownable : Bool :=
  match findScopeColumn resource ownerColumns with
  | some _ => true
  | none => (findOwnerViaRelation resource feature).any fun via =>
      (Ident.of via.relatedTable).isSome

/-- The owner has an entry in the WHERE map. -/
def ownerEntry : Option (Ident × Source) :=
  (atomBinding resource feature "@scope.owner").bind ScopeBinding.entry

/-- The entry asks for the table of the related resource. -/
def ownerTold : Bool :=
  match findScopeColumn resource ownerColumns with
  | some _ => true
  | none => (findOwnerViaRelation resource feature).all fun via =>
      (Ident.of via.fkColumn).isSome && Runtime.snakeCase via.relatedTable = via.relatedTable

/-- The owner has an entry, and the row meets it. -/
def OwnerSays (h : Hooks) (ctx : Ctx) (input : Slot) (server : Server) (row : Row) : Prop :=
  ∃ e, ownerEntry resource feature = some e ∧ Meets h (some ctx) input server row e

end Owner

/-! ### Entries and answers -/

section Entries

variable {h : Hooks} {ctx : Ctx} {input : Slot} {server : Server} {row : Row}
  {resource : Resource} {feature : Feature} {column : String}

theorem ident_of_eq {name : String} {i : Ident} (h : Ident.of name = some i) : i.text = name := by
  unfold Ident.of at h
  split at h
  · exact congrArg Ident.text (Option.some_inj.mp h).symm
  · cases h

theorem findScopeColumn_mem {priority : List String}
    (h : findScopeColumn resource priority = some column) : column ∈ priority :=
  List.mem_of_find?_eq_some h

/-- The columns of the catalogue are quoted. -/
theorem ident_of_scopeColumn (h : column ∈ "id" :: (ownerColumns ++ sameOrgColumns)) :
    ∃ i, Ident.of column = some i ∧ i.text = column := by
  have hsafe : ∀ c ∈ "id" :: (ownerColumns ++ sameOrgColumns), (Ident.of c).isSome = true := by
    decide
  obtain ⟨i, hi⟩ := Option.isSome_iff_exists.mp (hsafe column h)
  exact ⟨i, hi, ident_of_eq hi⟩

theorem resolve_userID : resolveSource h (some ctx) input (.ctx "user.id") =
    Runtime.readUser ctx User.id := by
  rw [resolveSource]
  rfl

theorem resolve_userOrg : resolveSource h (some ctx) input (.ctx "user.org_id") =
    Runtime.readUser ctx User.orgID := by
  rw [resolveSource]
  rfl

theorem resolve_owned (table owner : Ident) :
    resolveSource h (some ctx) input (.ctxOwnedVia "user.id" table owner) =
      Runtime.readUser ctx User.id := by
  rw [resolveSource]
  rfl

/-- An entry that reads the user is met by no row when there is none. -/
theorem meets_of_readUser {column : Ident} {src : Source} {read : User → Int}
    (hsrc : resolveSource h (some ctx) input src = Runtime.readUser ctx read) :
    Meets h (some ctx) input server row (column, src) ↔
      (ctx.user.any fun user =>
        (fragmentOf column src).holds server row (.int (read user))) = true := by
  unfold Meets
  rw [hsrc, Runtime.readUser]
  cases ctx.user with
  | none => simp [Runtime.fail]
  | some user => simp

/-- A binding on a column of the catalogue. -/
theorem holds_direct {atom path : String} {read : User → Int}
    (hcolumn : column ∈ "id" :: (ownerColumns ++ sameOrgColumns))
    (hsrc : resolveSource h (some ctx) input (.ctx path) = Runtime.readUser ctx read) :
    (directBinding atom column path).Holds h ctx input server row ↔
      (ctx.user.any fun user => sqlEq (row column) (.int (read user))) = true := by
  obtain ⟨i, hi, htext⟩ := ident_of_scopeColumn hcolumn
  have hentry : (directBinding atom column path).entry = some (i, .ctx path) := by
    rw [ScopeBinding.entry]
    simp only [directBinding, hi, Option.bind_some]
  have hmeets : Meets h (some ctx) input server row (i, .ctx path) ↔
      (ctx.user.any fun user => sqlEq (row column) (.int (read user))) = true := by
    rw [meets_of_readUser hsrc, ← htext]
    rfl
  rw [← hmeets]
  constructor
  · rintro ⟨e, he, hmeets⟩
    rwa [Option.some_inj.mp (hentry.symm.trans he)]
  · exact fun hmeets => ⟨_, hentry, hmeets⟩

/-- The entry of `@scope.self` is met by the row of the user. -/
theorem holds_self :
    (directBinding "@scope.self" "id" "user.id").Holds h ctx input server row ↔
      (rowAtoms resource feature ctx server row).self = true :=
  holds_direct List.mem_cons_self resolve_userID

/-- The entry of `@scope.same_org` is met by the rows of the user's organisation. -/
theorem holds_sameOrg (hfind : findScopeColumn resource sameOrgColumns = some column) :
    (directBinding "@scope.same_org" column "user.org_id").Holds h ctx input server row ↔
      (rowAtoms resource feature ctx server row).sameOrg = true := by
  have hmem : column ∈ "id" :: (ownerColumns ++ sameOrgColumns) :=
    List.mem_cons_of_mem _ (List.mem_append_right _ (findScopeColumn_mem hfind))
  rw [holds_direct hmem resolve_userOrg, rowAtoms, sameOrgColumn, hfind]
  rfl

/-- The entry of an owner column is met by the rows of the user. -/
theorem holds_owner (hfind : findScopeColumn resource ownerColumns = some column) :
    (directBinding "@scope.owner" column "user.id").Holds h ctx input server row ↔
      (rowAtoms resource feature ctx server row).owner = true := by
  have hmem : column ∈ "id" :: (ownerColumns ++ sameOrgColumns) :=
    List.mem_cons_of_mem _ (List.mem_append_left _ (findScopeColumn_mem hfind))
  rw [holds_direct hmem resolve_userID]
  simp only [rowAtoms, ownsRow, hfind]

theorem ownerSays_iff {b : ScopeBinding}
    (hb : atomBinding resource feature "@scope.owner" = some b) :
    OwnerSays resource feature h ctx input server row ↔ b.Holds h ctx input server row := by
  unfold OwnerSays ownerEntry
  rw [hb, Option.bind_some]
  rfl

theorem ownerSays_column (hfind : findScopeColumn resource ownerColumns = some column) :
    OwnerSays resource feature h ctx input server row ↔
      (rowAtoms resource feature ctx server row).owner = true := by
  have hbinding : atomBinding resource feature "@scope.owner" =
      some (directBinding "@scope.owner" column "user.id") := by
    simp only [atomBinding, hfind]
  rw [ownerSays_iff hbinding]
  exact holds_owner hfind

/-- The owner column of a related resource is one of the catalogue. -/
theorem ident_of_relatedOwnerColumn {via : OwnerViaRelation}
    (hvia : findOwnerViaRelation resource feature = some via) :
    ∃ owner, Ident.of via.relatedOwnerColumn = some owner := by
  obtain ⟨⟨_, _, column⟩, hrelation, rfl⟩ := Option.map_eq_some_iff.mp hvia
  obtain ⟨_, -, hfield⟩ := List.exists_of_findSome?_eq_some hrelation
  obtain ⟨_, howner, hpair⟩ := Option.map_eq_some_iff.mp hfield
  obtain ⟨-, rfl⟩ := Prod.mk.inj hpair
  obtain ⟨_, -, howner⟩ := Option.bind_eq_some_iff.mp howner
  split at howner
  · cases howner
  · obtain ⟨_, -, howner⟩ := Option.bind_eq_some_iff.mp howner
    obtain ⟨_, hfind, hpair⟩ := Option.map_eq_some_iff.mp howner
    obtain ⟨-, rfl⟩ := Prod.mk.inj hpair
    obtain ⟨i, hi, -⟩ := ident_of_scopeColumn
      (List.mem_cons_of_mem _ (List.mem_append_left _ (findScopeColumn_mem hfind)))
    exact ⟨i, hi⟩

theorem ownerEntry_relation {via : OwnerViaRelation} {owner : Ident}
    (hnone : findScopeColumn resource ownerColumns = none)
    (hvia : findOwnerViaRelation resource feature = some via)
    (howner : Ident.of via.relatedOwnerColumn = some owner) :
    ownerEntry resource feature = (Ident.of via.fkColumn).bind fun fk =>
      (Ident.of via.relatedTable).bind fun table =>
        some (fk, .ctxOwnedVia "user.id" table owner) := by
  simp only [ownerEntry, atomBinding, hnone, hvia, Option.map_some, Option.bind_some,
    ScopeBinding.entry, howner]

/-- An owner one relation away is looked for in the table as the resource is written. -/
theorem ownerSays_relation {via : OwnerViaRelation} {owner : Ident}
    (hnone : findScopeColumn resource ownerColumns = none)
    (hvia : findOwnerViaRelation resource feature = some via)
    (howner : Ident.of via.relatedOwnerColumn = some owner) :
    OwnerSays resource feature h ctx input server row ↔
      ∃ fk table, Ident.of via.fkColumn = some fk ∧ Ident.of via.relatedTable = some table ∧
        (ctx.user.any fun user =>
          (server.ownedIds table owner (.int user.id)).any (sqlEq (row via.fkColumn))) = true := by
  have hmeets {fk : Ident} (hfk : Ident.of via.fkColumn = some fk) (table : Ident) :
      Meets h (some ctx) input server row (fk, .ctxOwnedVia "user.id" table owner) ↔
        (ctx.user.any fun user =>
          (server.ownedIds table owner (.int user.id)).any (sqlEq (row via.fkColumn))) = true := by
    rw [meets_of_readUser (resolve_owned table owner), ← ident_of_eq hfk]
    rfl
  unfold OwnerSays
  rw [ownerEntry_relation hnone hvia howner]
  constructor
  · rintro ⟨e, he, hrow⟩
    obtain ⟨fk, hfk, he⟩ := Option.bind_eq_some_iff.mp he
    obtain ⟨table, htable, he⟩ := Option.bind_eq_some_iff.mp he
    obtain rfl := Option.some_inj.mp he
    exact ⟨fk, table, hfk, htable, (hmeets hfk table).mp hrow⟩
  · rintro ⟨fk, table, hfk, htable, hrow⟩
    refine ⟨(fk, .ctxOwnedVia "user.id" table owner), ?_, (hmeets hfk table).mpr hrow⟩
    rw [hfk, htable]
    rfl

theorem not_ownerSays (hnone : findScopeColumn resource ownerColumns = none)
    (hvia : findOwnerViaRelation resource feature = none) :
    ¬ OwnerSays resource feature h ctx input server row := by
  rintro ⟨e, he, -⟩
  simp [ownerEntry, atomBinding, hnone, hvia] at he

/-- Without a user nobody is the owner. -/
theorem OwnerSays.user (met : OwnerSays resource feature h ctx input server row) :
    ctx.user.isSome = true := by
  have isSome_of_any {p : User → Bool} (hany : ctx.user.any p = true) :
      ctx.user.isSome = true := by
    cases huser : ctx.user with
    | some user => rfl
    | none =>
        rw [huser] at hany
        cases hany
  cases hfind : findScopeColumn resource ownerColumns with
  | some column => exact isSome_of_any ((ownerSays_column hfind).mp met)
  | none =>
      cases hvia : findOwnerViaRelation resource feature with
      | none => exact absurd met (not_ownerSays hfind hvia)
      | some via =>
          obtain ⟨owner, howner⟩ := ident_of_relatedOwnerColumn hvia
          obtain ⟨_, _, -, -, hany⟩ := (ownerSays_relation hfind hvia howner).mp met
          exact isSome_of_any hany

theorem tableOf_eq {table : Ident} (hsnake : Runtime.snakeCase table.text = table.text) :
    tableOf table = table := by
  cases table
  simp only [tableOf, Ident.mk.injEq]
  exact hsnake

/-- What the entry says of a row is true if it asks for the right table. -/
theorem ownerSays_told (told : ownerTold resource feature = true) :
    OwnerSays resource feature h ctx input server row ↔
      (rowAtoms resource feature ctx server row).owner = true := by
  cases hfind : findScopeColumn resource ownerColumns with
  | some column => exact ownerSays_column hfind
  | none =>
      cases hvia : findOwnerViaRelation resource feature with
      | none =>
          refine iff_of_false (not_ownerSays hfind hvia) ?_
          simp [rowAtoms, ownsRow, hfind, hvia]
      | some via =>
          obtain ⟨owner, howner⟩ := ident_of_relatedOwnerColumn hvia
          simp only [ownerTold, hfind, hvia, Option.all_some, Bool.and_eq_true,
            decide_eq_true_eq] at told
          obtain ⟨fk, hfk⟩ := Option.isSome_iff_exists.mp told.1
          rw [ownerSays_relation hfind hvia howner]
          simp only [rowAtoms, ownsRow, hfind, hvia, Option.any_some, relatedIds, howner]
          cases htable : Ident.of via.relatedTable with
          | none => simp
          | some table =>
              have hsame : tableOf table = table :=
                tableOf_eq (by rw [ident_of_eq htable]; exact told.2)
              simp [hfk, hsame]

end Entries

end Lazuli.Codegen
