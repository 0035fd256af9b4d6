import Lazuli.Codegen.RowAtoms

/-!
Which rows the policy of a command selects (`resolve_scope_bindings` in `emitter/command/scope.rs`,
`emit_updates_effect` and `emit_deletes_effect` in `effects.rs`).

Each atom of `@scope` becomes a conjunct of the WHERE map, wherever in the policy it stands, and
the policy is tested once more without the row. `rowScoped_iff` says when both together are the
policy: it is a matter of the sixteen ways in which a row may answer the atoms.
-/

namespace Lazuli.Codegen

open Ir
open Lazuli.Runtime (Ident Source Server Row Ctx Value Slot Hooks Rbac Granted Meets sqlEq tableOf)

/-- A row that the command itself lets through is selected only if the policy is true of it, and
whenever it is. `guard` is what the guards of conditional atoms mean. -/
def RowScoped (h : Hooks) (ctx : Ctx) (input : Slot) (guard : EvalPredicate → Bool)
    (command : Command) (feature : Feature) (resource : Resource) (p : CommandPolicy) : Prop :=
  ∀ (own : List (Ident × Source)) (server : Server) (row : Row),
    (∀ e ∈ own, Meets h (some ctx) input server row e) →
      let holds := p.value ((rowAtoms resource feature ctx server row).leaf h.rbac ctx) guard
      (Selected h ctx input server row command feature own → InTenant resource feature ctx row →
        holds = true) ∧
      (holds = true → Selected h ctx input server row command feature own)

/-! ### Answers that are possible -/

section Answers

variable (resource : Resource) (feature : Feature) (ctx : Ctx)

/-- Some row gives these answers. `related` is what the entry of the owner says of it. -/
structure Possible (a : RowAtoms) (related : Bool) : Prop where
  owner : a.owner = true → ctx.user.isSome = true ∧ ownable resource feature = true
  self : a.self = true → ctx.user.isSome = true
  sameOrg : a.sameOrg = true →
    ctx.user.isSome = true ∧ (sameOrgColumn resource feature).isSome = true
  entry : related = true → ctx.user.isSome = true ∧ (ownerEntry resource feature).isSome = true
  told : ownerTold resource feature = true → related = a.owner

/-- Some row of the caller's tenant does. -/
def Scoped (a : RowAtoms) : Prop :=
  effectiveTenancy feature resource = .org →
    ctx.tenant.isSome = true ∧
      (sameOrgColumn resource feature = some "org_id" → ctx.user.isSome = true →
        a.sameOrg = decide (ctx.user.map (·.orgID) = ctx.tenant.map (·.orgID)))

/-- The atom has an entry in the WHERE map of the command. -/
def Binds (command : Command) (atom : String) : Prop :=
  atom ∈ referenceAtoms feature.policies command.policy ∧
    (atomBinding resource feature atom).isSome = true

/-- What the entries ask for. -/
structure Asked (command : Command) (a : RowAtoms) (related : Bool) : Prop where
  owner : Binds resource feature command "@scope.owner" → related = true
  self : Binds resource feature command "@scope.self" → a.self = true
  sameOrg : Binds resource feature command "@scope.same_org" → a.sameOrg = true

end Answers

/-- The policy is true for the answers only if the runtime lets the call through and they are what
is asked, and also whenever, in the caller's tenant. -/
structure SettledAt (hooks : Rbac) (ctx : Ctx) (input : Slot) (guard : EvalPredicate → Bool)
    (command : Command) (feature : Feature) (resource : Resource) (p : CommandPolicy)
    (a : RowAtoms) (related : Bool) : Prop where
  whenever : p.runtimeValue (leafMatches hooks ctx) (some input) = true →
    Asked resource feature command a related → Scoped resource feature ctx a →
      p.value (a.leaf hooks ctx) guard = true
  granted : p.value (a.leaf hooks ctx) guard = true →
    p.runtimeValue (leafMatches hooks ctx) (some input) = true
  asked : p.value (a.leaf hooks ctx) guard = true → Asked resource feature command a related

/-- So it is whatever a row answers. -/
def Settles (hooks : Rbac) (ctx : Ctx) (input : Slot) (guard : EvalPredicate → Bool)
    (command : Command) (feature : Feature) (resource : Resource) (p : CommandPolicy) : Prop :=
  ∀ owner self sameOrg related : Bool,
    Possible resource feature ctx ⟨owner, self, sameOrg⟩ related →
      SettledAt hooks ctx input guard command feature resource p ⟨owner, self, sameOrg⟩ related

/-! ### Rows and their answers -/

section Rows

variable {h : Hooks} {ctx : Ctx} {input : Slot} {server : Server} {row : Row}
  {resource : Resource} {feature : Feature} {command : Command} {p : CommandPolicy}
  {own : List (Ident × Source)}

theorem exists_of_any {α : Type} {x : Option α} {f : α → Bool} (hany : x.any f = true) :
    ∃ a, x = some a ∧ f a = true := by
  cases x with
  | none => cases hany
  | some a => exact ⟨a, rfl, hany⟩

theorem ownable_of_ownsRow {userID : Int}
    (howns : ownsRow resource feature server row userID = true) :
    ownable resource feature = true := by
  cases hfind : findScopeColumn resource ownerColumns with
  | some column => simp only [ownable, hfind]
  | none =>
      simp only [ownsRow, hfind] at howns
      obtain ⟨via, hvia, hrow⟩ := exists_of_any howns
      simp only [ownable, hfind, hvia, Option.any_some]
      unfold relatedIds at hrow
      split at hrow
      next htable _ =>
        rw [htable]
        rfl
      · cases hrow

/-- What a row answers is possible. -/
theorem possible_of_row (h : Hooks) (ctx : Ctx) (input : Slot) (server : Server) (row : Row) :
    ∃ related : Bool,
      (related = true ↔ OwnerSays resource feature h ctx input server row) ∧
        Possible resource feature ctx (rowAtoms resource feature ctx server row) related := by
  classical
  refine ⟨decide (OwnerSays resource feature h ctx input server row), decide_eq_true_iff, ?_⟩
  constructor
  case owner =>
    intro howner
    obtain ⟨user, huser, howns⟩ := exists_of_any howner
    rw [huser]
    exact ⟨rfl, ownable_of_ownsRow howns⟩
  case self =>
    intro hself
    obtain ⟨user, huser, -⟩ := exists_of_any hself
    rw [huser]
    rfl
  case sameOrg =>
    intro horg
    obtain ⟨user, huser, hcolumn⟩ := exists_of_any horg
    obtain ⟨column, hcolumn, -⟩ := exists_of_any hcolumn
    rw [huser, hcolumn]
    exact ⟨rfl, rfl⟩
  case entry =>
    intro hmet
    have met := of_decide_eq_true hmet
    obtain ⟨e, he, -⟩ := id met
    exact ⟨met.user, by rw [he]; rfl⟩
  case told =>
    intro told
    rw [Bool.eq_iff_iff, decide_eq_true_iff]
    exact ownerSays_told told

theorem mem_bindings (htarget : targetResource command feature = some resource)
    {b : ScopeBinding} :
    b ∈ resolveScopeBindings command feature ↔
      ∃ atom ∈ commandPolicyAtoms command feature.policies,
        atomBinding resource feature atom = some b := by
  unfold resolveScopeBindings
  rw [htarget]
  exact List.mem_filterMap

/-- Only three atoms have bindings. -/
theorem atomBinding_cases {atom : String} {b : ScopeBinding}
    (hb : atomBinding resource feature atom = some b) :
    atom = "@scope.owner" ∨
      (atom = "@scope.same_org" ∧ ∃ column,
        findScopeColumn resource sameOrgColumns = some column ∧
          b = directBinding "@scope.same_org" column "user.org_id") ∨
      atom = "@scope.self" ∧ b = directBinding "@scope.self" "id" "user.id" := by
  unfold atomBinding at hb
  split at hb
  · exact .inl rfl
  · obtain ⟨column, hfind, rfl⟩ := Option.map_eq_some_iff.mp hb
    exact .inr (.inl ⟨rfl, column, hfind, rfl⟩)
  · exact .inr (.inr ⟨rfl, (Option.some_inj.mp hb).symm⟩)
  · cases hb

/-- The bindings of the command ask a row for its answers. -/
theorem bound_iff (htarget : targetResource command feature = some resource) {related : Bool}
    (hrelated : related = true ↔ OwnerSays resource feature h ctx input server row) :
    (∀ b ∈ resolveScopeBindings command feature, b.Holds h ctx input server row) ↔
      Asked resource feature command (rowAtoms resource feature ctx server row) related := by
  have hall : (∀ b ∈ resolveScopeBindings command feature, b.Holds h ctx input server row) ↔
      ∀ atom ∈ commandPolicyAtoms command feature.policies,
        ∀ b, atomBinding resource feature atom = some b → b.Holds h ctx input server row := by
    simp only [mem_bindings htarget, forall_exists_index, and_imp]
    exact ⟨fun hb atom ha b => hb b atom ha, fun hb b atom ha => hb atom ha b⟩
  have hatom (name : String) : "@" ++ name ∈ commandPolicyAtoms command feature.policies ↔
      "@" ++ name ∈ referenceAtoms feature.policies command.policy := mem_commandPolicyAtoms
  rw [hall]
  constructor
  · intro hbound
    constructor
    case owner =>
      rintro ⟨hmem, hbinding⟩
      obtain ⟨b, hb⟩ := Option.isSome_iff_exists.mp hbinding
      exact hrelated.mpr ((ownerSays_iff hb).mpr (hbound _ ((hatom "scope.owner").mpr hmem) b hb))
    case self =>
      rintro ⟨hmem, -⟩
      exact holds_self.mp (hbound _ ((hatom "scope.self").mpr hmem) _ rfl)
    case sameOrg =>
      rintro ⟨hmem, hbinding⟩
      obtain ⟨b, hb⟩ := Option.isSome_iff_exists.mp hbinding
      obtain ⟨column, hfind, rfl⟩ := Option.map_eq_some_iff.mp hb
      exact (holds_sameOrg hfind).mp (hbound _ ((hatom "scope.same_org").mpr hmem) _ hb)
  · intro asked atom hmem b hb
    have hsome : (atomBinding resource feature atom).isSome = true := by
      rw [hb]
      rfl
    obtain rfl | ⟨rfl, column, hfind, rfl⟩ | ⟨rfl, rfl⟩ := atomBinding_cases hb
    · have hmet := hrelated.mp (asked.owner ⟨(hatom "scope.owner").mp hmem, hsome⟩)
      exact (ownerSays_iff hb).mp hmet
    · exact (holds_sameOrg hfind).mpr
        (asked.sameOrg ⟨(hatom "scope.same_org").mp hmem, hsome⟩)
    · exact holds_self.mpr (asked.self ⟨(hatom "scope.self").mp hmem, hsome⟩)

end Rows

/-! ### A row for every answer -/

/-- Values of the columns that give the answers of `a`. -/
def answerRow (a : RowAtoms) (user : Runtime.User) (tenantID : Int) (orgColumn : Option String) :
    Row := fun column =>
  if column = "id" then .int (if a.self then user.id else user.id + 1)
  else if orgColumn = some column then
    .int (if a.sameOrg then user.orgID else if tenantID = user.orgID then tenantID + 1 else tenantID)
  else if column = "org_id" then .int tenantID
  else .int (if a.owner then user.id else user.id + 1)

/-- The user owns the related row, by the table `real` and by any other. -/
def answerServer (real : String) (owner related : Bool) (fk : Value) : Server where
  ownedIds table _ _ := if (if table.text = real then owner else related) then [fk] else []
  ilike _ _ := false

section Answers

variable {h : Hooks} {ctx : Ctx} {input : Slot} {resource : Resource} {feature : Feature}
  {a : RowAtoms} {related : Bool} {user : Runtime.User} {tenantID : Int}
  {orgColumn : Option String} {column : String}

/-- One of two values, asked for by the first. -/
theorem sqlEq_choice {m n : Int} (hne : n ≠ m) (answer : Bool) :
    sqlEq (.int (if answer then m else n)) (.int m) = answer := by
  cases answer with
  | true => simp [sqlEq]
  | false => simp [sqlEq, hne]

theorem sqlEq_answerRow (column : String) :
    sqlEq (answerRow a user tenantID orgColumn column)
      (answerRow a user tenantID orgColumn column) = true := by
  have hint (n : Int) : sqlEq (.int n) (.int n) = true := by simp [sqlEq]
  unfold answerRow
  split
  · exact hint _
  · split
    · exact hint _
    · split
      · exact hint _
      · exact hint _

theorem sameOrgColumn_mem (hcolumn : sameOrgColumn resource feature = some column) :
    column ∈ sameOrgColumns := by
  rcases Option.or_eq_some_iff.mp hcolumn with hfind | ⟨-, hbrought⟩
  · exact findScopeColumn_mem hfind
  · split at hbrought
    · obtain rfl := Option.some_inj.mp hbrought
      decide
    · cases hbrought

/-- The columns of the three atoms differ. -/
theorem ne_id_of_mem (h : column ∈ ownerColumns ++ sameOrgColumns) : column ≠ "id" := by
  rintro rfl
  revert h
  decide

theorem owner_notMem (h : column ∈ ownerColumns) : column ∉ sameOrgColumns := by
  have hdisjoint : ∀ c ∈ ownerColumns, c ∉ sameOrgColumns := by decide
  exact hdisjoint column h

theorem answerRow_owner (hfind : findScopeColumn resource ownerColumns = some column) :
    answerRow a user tenantID (sameOrgColumn resource feature) column =
      .int (if a.owner then user.id else user.id + 1) := by
  have hmem := findScopeColumn_mem hfind
  have horg : sameOrgColumn resource feature ≠ some column :=
    fun hcolumn => owner_notMem hmem (sameOrgColumn_mem hcolumn)
  have horgID : column ≠ "org_id" := by
    rintro rfl
    revert hmem
    decide
  rw [answerRow, if_neg (ne_id_of_mem (List.mem_append_left _ hmem)), if_neg horg, if_neg horgID]

theorem answerRow_sameOrg (hcolumn : sameOrgColumn resource feature = some column) :
    answerRow a user tenantID (sameOrgColumn resource feature) column =
      .int (if a.sameOrg then user.orgID
        else if tenantID = user.orgID then tenantID + 1 else tenantID) := by
  have hmem := sameOrgColumn_mem hcolumn
  rw [answerRow, if_neg (ne_id_of_mem (List.mem_append_right _ hmem)), if_pos hcolumn]

def tenantOf (ctx : Ctx) : Int := (ctx.tenant.map (·.orgID)).getD 0

/-- The row is in the tenant if the answers allow it. -/
theorem inTenant_answerRow (huser : ctx.user = some user)
    (hscoped : Scoped resource feature ctx a) :
    InTenant resource feature ctx
      (answerRow a user (tenantOf ctx) (sameOrgColumn resource feature)) := by
  intro htenancy
  obtain ⟨htenant, hsame⟩ := hscoped htenancy
  obtain ⟨tenant, htenant⟩ := Option.isSome_iff_exists.mp htenant
  have hid : tenantOf ctx = tenant.orgID := by
    rw [tenantOf, htenant]
    rfl
  refine ⟨tenant, htenant, ?_⟩
  rw [hid]
  by_cases hcolumn : sameOrgColumn resource feature = some "org_id"
  · rw [answerRow_sameOrg hcolumn, hsame hcolumn (by rw [huser]; rfl), huser, htenant]
    by_cases heq : user.orgID = tenant.orgID
    · simp [heq]
    · simp [heq, Ne.symm heq]
  · rw [answerRow, if_neg (by decide), if_neg hcolumn, if_pos rfl]

/-- The server on which a related row answers for the row. -/
def relatedServer (resource : Resource) (feature : Feature) (owner related : Bool) (row : Row) :
    Server :=
  match findOwnerViaRelation resource feature with
  | some via =>
      answerServer (Runtime.snakeCase via.relatedTable) owner related (row via.fkColumn)
  | none => answerServer "" owner related .nil

theorem any_answerServer {real : String} {owner : Bool} {table ownerColumn : Ident} {v w : Value}
    (hv : sqlEq v v = true) :
    ((answerServer real owner related v).ownedIds table ownerColumn w).any (sqlEq v) =
      if table.text = real then owner else related := by
  have hlist (answer : Bool) : (if answer then [v] else []).any (sqlEq v) = answer := by
    cases answer with
    | true => simp [hv]
    | false => rfl
  exact hlist _

/-- The row is owned as it is asked to be. -/
theorem ownsRow_answer (hp : Possible resource feature ctx a related) :
    let row := answerRow a user tenantID (sameOrgColumn resource feature)
    ownsRow resource feature (relatedServer resource feature a.owner related row) row user.id =
      a.owner := by
  intro row
  have hunowned (hno : ownable resource feature ≠ true) : a.owner = false :=
    Bool.eq_false_iff.mpr fun howner => hno (hp.owner howner).2
  cases hfind : findScopeColumn resource ownerColumns with
  | some column =>
      simp only [ownsRow, hfind]
      show sqlEq (answerRow a user tenantID _ column) _ = _
      rw [answerRow_owner hfind]
      exact sqlEq_choice (by omega) a.owner
  | none =>
      cases hvia : findOwnerViaRelation resource feature with
      | none =>
          rw [hunowned (by simp [ownable, hfind, hvia])]
          simp [ownsRow, hfind, hvia]
      | some via =>
          simp only [ownsRow, hfind, hvia, Option.any_some, relatedServer]
          obtain ⟨owner, howner⟩ := ident_of_relatedOwnerColumn hvia
          cases htable : Ident.of via.relatedTable with
          | none =>
              rw [hunowned (by simp [ownable, hfind, hvia, htable])]
              simp [relatedIds, htable]
          | some table =>
              have htext : (tableOf table).text = Runtime.snakeCase via.relatedTable := by
                rw [← ident_of_eq htable]
                rfl
              simp only [relatedIds, htable, howner]
              rw [any_answerServer (sqlEq_answerRow _), if_pos htext]

/-- So are all its answers. -/
theorem rowAtoms_answer (huser : ctx.user = some user)
    (hp : Possible resource feature ctx a related) :
    let row := answerRow a user tenantID (sameOrgColumn resource feature)
    rowAtoms resource feature ctx (relatedServer resource feature a.owner related row) row = a := by
  intro row
  have hself : sqlEq (row "id") (.int user.id) = a.self := by
    show sqlEq (answerRow a user tenantID _ "id") _ = _
    rw [answerRow, if_pos rfl]
    exact sqlEq_choice (by omega) a.self
  have hsameOrg : (sameOrgColumn resource feature).any (fun column =>
      sqlEq (row column) (.int user.orgID)) = a.sameOrg := by
    cases hcolumn : sameOrgColumn resource feature with
    | none =>
        cases horg : a.sameOrg with
        | false => rfl
        | true => simpa [hcolumn] using (hp.sameOrg horg).2
    | some column =>
        show sqlEq (answerRow a user tenantID _ column) _ = _
        rw [answerRow_sameOrg hcolumn]
        refine sqlEq_choice ?_ a.sameOrg
        split
        · omega
        · assumption
  rw [rowAtoms, huser]
  simp only [Option.any_some]
  rw [ownsRow_answer hp, hself, hsameOrg]

/-- And so is what the entry of the owner says. -/
theorem ownerSays_answer (huser : ctx.user = some user)
    (hp : Possible resource feature ctx a related) :
    let row := answerRow a user tenantID (sameOrgColumn resource feature)
    related = true ↔ OwnerSays resource feature h ctx input
      (relatedServer resource feature a.owner related row) row := by
  intro row
  by_cases told : ownerTold resource feature = true
  · rw [ownerSays_told told, rowAtoms_answer huser hp, hp.told told]
  · cases hfind : findScopeColumn resource ownerColumns with
    | some column => exact absurd (by simp [ownerTold, hfind]) told
    | none =>
        cases hvia : findOwnerViaRelation resource feature with
        | none => exact absurd (by simp [ownerTold, hfind, hvia]) told
        | some via =>
            obtain ⟨owner, howner⟩ := ident_of_relatedOwnerColumn hvia
            rw [ownerSays_relation hfind hvia howner]
            simp only [huser, Option.any_some, relatedServer, hvia]
            -- the entry asks for another table than that of the related rows
            have hother {fk table : Ident} (hfk : Ident.of via.fkColumn = some fk)
                (htable : Ident.of via.relatedTable = some table) :
                table.text ≠ Runtime.snakeCase via.relatedTable := by
              intro hsame
              refine told ?_
              simp only [ownerTold, hfind, hvia, Option.all_some, hfk, Option.isSome_some,
                Bool.true_and, decide_eq_true_eq]
              rw [← hsame, ident_of_eq htable]
            constructor
            · intro hrelated
              obtain ⟨e, hentry⟩ := Option.isSome_iff_exists.mp (hp.entry hrelated).2
              rw [ownerEntry_relation hfind hvia howner] at hentry
              obtain ⟨fk, hfk, hentry⟩ := Option.bind_eq_some_iff.mp hentry
              obtain ⟨table, htable, -⟩ := Option.bind_eq_some_iff.mp hentry
              refine ⟨fk, table, hfk, htable, ?_⟩
              rw [any_answerServer (sqlEq_answerRow _), if_neg (hother hfk htable)]
              exact hrelated
            · rintro ⟨fk, table, hfk, htable, hrow⟩
              rw [any_answerServer (sqlEq_answerRow _), if_neg (hother hfk htable)] at hrow
              exact hrow

/-- Without a user every answer is no. -/
theorem Possible.nobody (hp : Possible resource feature ctx a related) (hnone : ctx.user = none) :
    a = ⟨false, false, false⟩ ∧ related = false := by
  have hno {answer : Bool} (h : answer = true → ctx.user.isSome = true) : answer = false := by
    refine Bool.eq_false_iff.mpr fun hyes => ?_
    have huser := h hyes
    rw [hnone] at huser
    cases huser
  refine ⟨?_, hno fun h => (hp.entry h).1⟩
  obtain ⟨owner, self, sameOrg⟩ := a
  rw [RowAtoms.mk.injEq]
  exact ⟨hno fun h => (hp.owner h).1, hno hp.self, hno fun h => (hp.sameOrg h).1⟩

/-- Every possible answer is given by a row, of the caller's tenant if need be. -/
theorem exists_row (h : Hooks) (input : Slot) (hp : Possible resource feature ctx a related) :
    ∃ server row, rowAtoms resource feature ctx server row = a ∧
      (related = true ↔ OwnerSays resource feature h ctx input server row) ∧
      (Scoped resource feature ctx a → InTenant resource feature ctx row) := by
  cases huser : ctx.user with
  | some user =>
      exact ⟨_, _, rowAtoms_answer huser hp, ownerSays_answer huser hp,
        inTenant_answerRow huser⟩
  | none =>
      obtain ⟨rfl, rfl⟩ := hp.nobody huser
      refine ⟨answerServer "" false false .nil, fun _ => .int (tenantOf ctx), ?_, ?_, ?_⟩
      · simp [rowAtoms, huser]
      · refine iff_of_false Bool.false_ne_true fun met => ?_
        have hsome := met.user
        rw [huser] at hsome
        cases hsome
      · intro hscoped htenancy
        obtain ⟨tenant, htenant⟩ := Option.isSome_iff_exists.mp (hscoped htenancy).1
        refine ⟨tenant, htenant, ?_⟩
        rw [tenantOf, htenant]
        rfl

end Answers

/-! ### Exactness -/

section Exact

variable {h : Hooks} {ctx : Ctx} {input : Slot} {server : Server} {row : Row}
  {resource : Resource} {feature : Feature} {command : Command} {p : CommandPolicy}
  {own : List (Ident × Source)}

/-- A row of the caller's tenant is one that scoping allows. -/
theorem scoped_of_inTenant (htenant : InTenant resource feature ctx row) :
    Scoped resource feature ctx (rowAtoms resource feature ctx server row) := by
  intro htenancy
  obtain ⟨tenant, hsome, horg⟩ := htenant htenancy
  refine ⟨by rw [hsome]; rfl, fun hcolumn huser => ?_⟩
  obtain ⟨user, huser⟩ := Option.isSome_iff_exists.mp huser
  simp [rowAtoms, huser, hcolumn, horg, sqlEq, hsome, eq_comm]

theorem selected_iff (htarget : targetResource command feature = some resource)
    (hpolicy : commandPolicy command.policy command.policyExpr feature.policies = some p)
    (hwf : p.WellFormed) {related : Bool}
    (hrelated : related = true ↔ OwnerSays resource feature h ctx input server row)
    (hown : ∀ e ∈ own, Meets h (some ctx) input server row e) :
    Selected h ctx input server row command feature own ↔
      p.runtimeValue (leafMatches h.rbac ctx) (some input) = true ∧
        Asked resource feature command (rowAtoms resource feature ctx server row) related := by
  rw [← granted_iff hpolicy hwf, ← bound_iff htarget hrelated]
  exact ⟨fun selected => ⟨selected.granted, selected.bound⟩,
    fun ⟨granted, bound⟩ => ⟨granted, hown, bound⟩⟩

/-- The WHERE map of an effect holds what the command brings and the entries of its bindings. -/
structure Emitted (wheres : Runtime.Bindings) (command : Command) (feature : Feature)
    (own : List (Ident × Source)) : Prop where
  own : ∀ e ∈ own, e ∈ wheres.entries
  bound : ∀ b ∈ resolveScopeBindings command feature, ∃ e, b.entry = some e ∧ e ∈ wheres.entries

/-- The rows that a command modifies are among those that its policy is true of. -/
theorem RowScoped.of_meets {guard : EvalPredicate → Bool} {wheres : Runtime.Bindings}
    (hscoped : RowScoped h ctx input guard command feature resource p)
    (emitted : Emitted wheres command feature own)
    (granted : Granted h.rbac ctx (some input)
      (formatPolicyWithExpr command.policy command.policyExpr feature.policies))
    (hmeets : ∀ e ∈ wheres.entries, Meets h (some ctx) input server row e)
    (htenant : InTenant resource feature ctx row) :
    p.value ((rowAtoms resource feature ctx server row).leaf h.rbac ctx) guard = true := by
  have hown : ∀ e ∈ own, Meets h (some ctx) input server row e :=
    fun e he => hmeets e (emitted.own e he)
  refine (hscoped own server row hown).1 ⟨granted, hown, fun b hb => ?_⟩ htenant
  obtain ⟨e, hentry, hmem⟩ := emitted.bound b hb
  exact ⟨e, hentry, hmeets e hmem⟩

theorem inTenant_of_isolated {plan : Runtime.Plan} (isolated : plan.Isolated (some ctx))
    (touched : plan.touches server row = true) : InTenant resource feature ctx row := by
  intro _
  obtain ⟨tenant, htenant, -, horg⟩ := isolated
  exact ⟨tenant, htenant, horg server row touched⟩

/-- So the rows that are deleted, and likewise those that are updated: the statement is isolated, as
neither is sent without a condition. -/
theorem RowScoped.deletes {guard : EvalPredicate → Bool} {eff : Runtime.DeletesEffect}
    {plan : Runtime.Plan} (hscoped : RowScoped h ctx input guard command feature resource p)
    (emitted : Emitted eff.wheres command feature own)
    (granted : Granted h.rbac ctx (some input)
      (formatPolicyWithExpr command.policy command.policyExpr feature.policies))
    (htenancy : effectiveTenancy feature resource = .org → eff.resource.tenancy = .org)
    (ok : Runtime.applyDeletes h (some ctx) input eff = .ok plan)
    (touched : plan.touches server row = true) :
    p.value ((rowAtoms resource feature ctx server row).leaf h.rbac ctx) guard = true := by
  refine hscoped.of_meets emitted granted (Runtime.deletes_meets ok touched) fun horg => ?_
  have hwheres : eff.wheres.entries ≠ [] := by
    intro hnil
    rw [Runtime.applyDeletes, if_pos hnil] at ok
    cases ok
  have isolated := (Runtime.deletes_scoped (htenancy horg) hwheres).org plan ok
  exact inTenant_of_isolated isolated touched horg

theorem RowScoped.updates {guard : EvalPredicate → Bool} {eff : Runtime.UpdatesEffect}
    {plan : Runtime.Plan} (hscoped : RowScoped h ctx input guard command feature resource p)
    (emitted : Emitted eff.wheres command feature own)
    (granted : Granted h.rbac ctx (some input)
      (formatPolicyWithExpr command.policy command.policyExpr feature.policies))
    (htenancy : effectiveTenancy feature resource = .org → eff.resource.tenancy = .org)
    (ok : Runtime.applyUpdates h (some ctx) input eff = .ok plan)
    (touched : plan.touches server row = true) :
    p.value ((rowAtoms resource feature ctx server row).leaf h.rbac ctx) guard = true := by
  refine hscoped.of_meets emitted granted (Runtime.updates_meets ok touched) fun horg => ?_
  have hwheres : eff.wheres.entries ≠ [] := by
    intro hnil
    rw [Runtime.applyUpdates, if_pos hnil] at ok
    cases ok
  have hbinds : eff.binds.entries ≠ [] := by
    intro hnil
    rw [Runtime.applyUpdates, if_neg hwheres, if_pos hnil] at ok
    cases ok
  obtain ⟨bound, _, hbound, -⟩ := Runtime.applyUpdates_cases ok
  have isolated := (Runtime.updates_scoped (htenancy horg) hwheres hbinds hbound).org plan ok
  exact inTenant_of_isolated isolated touched horg

end Exact

/-- The rows that a command selects are those that its policy is true of exactly if no answer of a
row tells the two apart. -/
theorem rowScoped_iff (h : Hooks) (ctx : Ctx) (input : Slot) (guard : EvalPredicate → Bool)
    (command : Command) (feature : Feature) (resource : Resource) (p : CommandPolicy)
    (htarget : targetResource command feature = some resource)
    (hpolicy : commandPolicy command.policy command.policyExpr feature.policies = some p)
    (hwf : p.WellFormed) :
    RowScoped h ctx input guard command feature resource p ↔
      Settles h.rbac ctx input guard command feature resource p := by
  constructor
  · intro hscoped owner self sameOrg related hp
    obtain ⟨server, row, hatoms, hrelated, htenant⟩ := exists_row h input hp
    have hnone : ∀ e ∈ [], Meets h (some ctx) input server row e :=
      fun e he => absurd he List.not_mem_nil
    have hselected := selected_iff htarget hpolicy hwf hrelated hnone
    obtain ⟨honly, hwhenever⟩ := hscoped [] server row hnone
    rw [hatoms] at honly hwhenever hselected
    constructor
    · exact fun hgranted asked hs => honly (hselected.mpr ⟨hgranted, asked⟩) (htenant hs)
    · exact fun hvalue => (hselected.mp (hwhenever hvalue)).1
    · exact fun hvalue => (hselected.mp (hwhenever hvalue)).2
  · intro settles own server row hown
    obtain ⟨related, hrelated, hp⟩ := possible_of_row h ctx input server row
    have hselected := selected_iff htarget hpolicy hwf hrelated hown
    have hat := settles _ _ _ related hp
    refine ⟨fun selected htenant => ?_, fun hvalue => ?_⟩
    · obtain ⟨hgranted, asked⟩ := hselected.mp selected
      exact hat.whenever hgranted asked (scoped_of_inTenant htenant)
    · exact hselected.mpr ⟨hat.granted hvalue, hat.asked hvalue⟩

/-! ### Memos -/

section Decide

variable (resource : Resource) (feature : Feature) (ctx : Ctx) (command : Command) (a : RowAtoms)
  (related : Bool)

instance (atom : String) : Decidable (Binds resource feature command atom) :=
  inferInstanceAs (Decidable (_ ∧ _))

instance : Decidable (Scoped resource feature ctx a) := inferInstanceAs (Decidable (_ → _))

instance : Decidable (Asked resource feature command a related) :=
  decidable_of_iff ((Binds resource feature command "@scope.owner" → related = true) ∧
      (Binds resource feature command "@scope.self" → a.self = true) ∧
      (Binds resource feature command "@scope.same_org" → a.sameOrg = true))
    ⟨fun ⟨owner, self, sameOrg⟩ => ⟨owner, self, sameOrg⟩,
      fun asked => ⟨asked.owner, asked.self, asked.sameOrg⟩⟩

instance : Decidable (Possible resource feature ctx a related) :=
  decidable_of_iff
    ((a.owner = true → ctx.user.isSome = true ∧ ownable resource feature = true) ∧
      (a.self = true → ctx.user.isSome = true) ∧
      (a.sameOrg = true →
        ctx.user.isSome = true ∧ (sameOrgColumn resource feature).isSome = true) ∧
      (related = true →
        ctx.user.isSome = true ∧ (ownerEntry resource feature).isSome = true) ∧
      (ownerTold resource feature = true → related = a.owner))
    ⟨fun ⟨owner, self, sameOrg, entry, told⟩ => ⟨owner, self, sameOrg, entry, told⟩,
      fun hp => ⟨hp.owner, hp.self, hp.sameOrg, hp.entry, hp.told⟩⟩

variable (hooks : Rbac) (input : Slot) (guard : EvalPredicate → Bool) (p : CommandPolicy)

instance : Decidable (SettledAt hooks ctx input guard command feature resource p a related) :=
  decidable_of_iff
    ((p.runtimeValue (leafMatches hooks ctx) (some input) = true →
        Asked resource feature command a related → Scoped resource feature ctx a →
          p.value (a.leaf hooks ctx) guard = true) ∧
      (p.value (a.leaf hooks ctx) guard = true →
        p.runtimeValue (leafMatches hooks ctx) (some input) = true) ∧
      (p.value (a.leaf hooks ctx) guard = true → Asked resource feature command a related))
    ⟨fun ⟨whenever, granted, asked⟩ => ⟨whenever, granted, asked⟩,
      fun hat => ⟨hat.whenever, hat.granted, hat.asked⟩⟩

instance : Decidable (Settles hooks ctx input guard command feature resource p) :=
  inferInstanceAs (Decidable (∀ owner self sameOrg related : Bool,
    Possible resource feature ctx ⟨owner, self, sameOrg⟩ related →
      SettledAt hooks ctx input guard command feature resource p ⟨owner, self, sameOrg⟩ related))

end Decide

def memo : Resource where
  name := "Memo"
  fields := [{ name := "user_id", typeRef := .builtin .integer, required := true },
    { name := "org_id", typeRef := .builtin .integer, required := true }]

/-- The memos of an organisation are everybody's in it. -/
def colleagues : PolicyCategory where
  name := "erase"
  atoms := ["@scope.same_org"]
  conditionalAtoms := []
  registered := by decide

/-- The owner of a memo, or an admin. -/
def ownerOrAdmin : PolicyCategory where
  name := "erase"
  atoms := ["@scope.owner", "@role.admin"]
  conditionalAtoms := []
  registered := by decide

def memos (erase : PolicyCategory) : Feature where
  name := "memos"
  resources := [memo]
  policies := ⟨[erase]⟩

def eraseMemo (policy : PolicyRef) (policyExpr : Option PolicyExpr) : Command where
  name := "erase_memo"
  effect := .deletes ⟨⟨none, "Memo"⟩, []⟩
  triggers := []
  span := none
  policy := policy
  policyExpr := policyExpr

def memoAdmin : Ctx where
  actor := Runtime.ActorUser
  user := some ⟨1, 7, ["admin"]⟩
  tenant := some ⟨7⟩
  now := none

def noInput : Slot := .direct .nil

theorem rowScoped_iff_colleagues :
    RowScoped Runtime.noHooks memoAdmin noInput (fun _ => false)
      (eraseMemo (.localRef "erase") none) (memos colleagues) memo (.category colleagues) :=
  (rowScoped_iff Runtime.noHooks memoAdmin noInput (fun _ => false)
    (eraseMemo (.localRef "erase") none) (memos colleagues) memo (.category colleagues)
    (by rfl) (by rfl) trivial).mpr (by decide +kernel)

def memoRow (userID : Int) : Row := fun _ => .int userID

def noRelations : Server := ⟨fun _ _ _ => [], fun _ _ => false⟩

def notOwner : PolicyExpr := .not (.atom ⟨"scope", "owner"⟩)

/-- An admin may erase every memo, and the statement spares those of others. Nobody may erase his
own under the second policy, and the statement takes them. -/
theorem memos_misjudged :
    ¬ RowScoped Runtime.noHooks memoAdmin noInput (fun _ => false)
        (eraseMemo (.localRef "erase") none) (memos ownerOrAdmin) memo
        (.category ownerOrAdmin) ∧
      ¬ RowScoped Runtime.noHooks memoAdmin noInput (fun _ => false)
        (eraseMemo (.localRef "not @scope.owner") (some notOwner)) (memos ownerOrAdmin) memo
        (.expr notOwner) := by
  constructor
  · intro hscoped
    have hown := hscoped [] noRelations (memoRow 2) fun e he => absurd he List.not_mem_nil
    have selected := hown.2 (by decide +kernel)
    have hbinding : directBinding "@scope.owner" "user_id" "user.id" ∈
        resolveScopeBindings (eraseMemo (.localRef "erase") none) (memos ownerOrAdmin) := by
      decide +kernel
    have hfind : findScopeColumn memo ownerColumns = some "user_id" := by decide
    have howner : (rowAtoms memo (memos ownerOrAdmin) memoAdmin noRelations (memoRow 2)).owner =
        true := (holds_owner hfind).mp (selected.bound _ hbinding)
    revert howner
    decide +kernel
  · intro hscoped
    have hown := hscoped [] noRelations (memoRow 1) fun e he => absurd he List.not_mem_nil
    have hunbound : resolveScopeBindings
        (eraseMemo (.localRef "not @scope.owner") (some notOwner)) (memos ownerOrAdmin) = [] := by
      decide +kernel
    have hvalue := hown.1
      { granted := by decide +kernel
        own := fun e he => absurd he List.not_mem_nil
        bound := by
          rw [hunbound]
          exact fun b hb => absurd hb List.not_mem_nil }
      (fun horg => by cases horg)
    revert hvalue
    decide +kernel

end Lazuli.Codegen
