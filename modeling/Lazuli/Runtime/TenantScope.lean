import Lazuli.Runtime.Effect

/-!
Tenant isolation of the generated statements.

Every statement builder but one puts the tenant scope in the WHERE clause and refuses when
there is no tenant; whatever it binds before and after, the placeholder of the scope keeps
its value. The batch update of `reorder` has no scope: it renumbers every row whose id is
in the list, of whatever organisation.
-/

namespace Lazuli.Runtime

/-- The operations that send a statement about rows of an existing resource. -/
inductive Operation where
  | updates (eff : UpdatesEffect) (input : Slot)
  | deletes (eff : DeletesEffect) (input : Slot)
  | reorder (eff : ReorderEffect) (input : Slot)
  | list (q : Query) (args : Slot)
  | lookup (q : Query) (args : Slot)
  | lock (target : LifecycleTarget)
  | advance (target : LifecycleTarget) (transitions : List TransitionAdvance)

namespace Operation

def resource : Operation → Option Resource
  | .updates eff _ => some eff.resource
  | .deletes eff _ => some eff.resource
  | .reorder eff _ => some eff.resource
  | .list q _ => q.resource
  | .lookup q _ => q.resource
  | .lock target => some target.resource
  | .advance target _ => some target.resource

/-- The statement sent, if there is one to send. -/
def send (h : Hooks) (ctx : Option Ctx) : Operation → Except Failure (Option Plan)
  | .updates eff input => some <$> applyUpdates h ctx input eff
  | .deletes eff input => some <$> applyDeletes h ctx input eff
  | .reorder eff input => applyReorder eff input
  | .list q args => some <$> buildListSQL h ctx args q
  | .lookup q args => some <$> buildLookupSQL h ctx args q
  | .lock target => some <$> lockLifecycleTransition ctx target
  | .advance target transitions => some <$> advanceLifecycleTransition ctx target transitions

/-- What an operation does before it asks for the scope. -/
def prepare (h : Hooks) (ctx : Option Ctx) : Operation → Except Failure Unit
  | .updates eff input =>
      if eff.wheres.entries = [] then fail updatesRequireWhere
      else if eff.binds.entries = [] then fail updatesRequireBind
      else (fun _ => ()) <$> boundColumns h ctx input eff
  | .deletes eff _ => if eff.wheres.entries = [] then fail deletesRequireWhere else .ok ()
  | .reorder _ input => (fun _ => ()) <$> reorderIds input
  | .list _ _ => .ok ()
  | .lookup q _ => if q.lookupBy = [] then fail (noLookupKeys q) else .ok ()
  | .lock _ => .ok ()
  | .advance _ transitions => if transitions = [] then .error .panic else .ok ()

/-- The ids whose rows a reorder renumbers; no other operation has any. -/
def reorderedIds : Operation → List Value
  | .reorder _ input =>
      match reorderIds input with
      | .ok ids => ids
      | .error _ => []
  | _ => []

end Operation

/-- The tenant conjunct is among the conditions of the statement, so it touches rows of the
caller's organisation only. -/
def Plan.Isolated (ctx : Option Ctx) (p : Plan) : Prop :=
  ∃ tenant, ctx.bind Ctx.tenant = some tenant ∧
    OrgConjunct p.stmt.conds p.values tenant.orgID ∧
    ∀ server row, p.touches server row = true → row "org_id" = .int tenant.orgID

/-- What is sent is isolated; without a tenant an operation that gets as far as its scope is
refused for that reason. -/
def Isolated (h : Hooks) (ctx : Option Ctx) (op : Operation) : Prop :=
  match op.send h ctx with
  | .ok (some p) => p.Isolated ctx
  | .ok none => True
  | .error e => ctx.bind Ctx.tenant = none → op.prepare h ctx = .ok () →
      e = .error tenantRequiredError

/-! ### Scoped statements -/

/-- A computation that starts with the scope. -/
structure ScopeFirst (ctx : Option Ctx) (x : Except Failure Collected) : Prop where
  org : ∀ c, x = .ok c → ∃ tenant, ctx.bind Ctx.tenant = some tenant ∧
    OrgConjunct c.1 c.2 tenant.orgID
  refuses : ctx.bind Ctx.tenant = none → x = fail tenantRequiredError

/-- A computation that ends with a scoped statement. -/
structure PlanScoped (ctx : Option Ctx) (x : Except Failure Plan) : Prop where
  org : ∀ p, x = .ok p → p.Isolated ctx
  refuses : ctx.bind Ctx.tenant = none → x = fail tenantRequiredError

section

variable {h : Hooks} {ctx : Option Ctx} {res : Resource}

/-- Collecting behind the scope keeps it. -/
theorem ScopeFirst.collect (tenancy : res.tenancy = .org) (values : List Value)
    {k : Collected → Except Failure Collected} (ext : ∀ c c', k c = .ok c' → c.Extends c') :
    ScopeFirst ctx (do
      let scope ← baseScopeConditions ctx res (values.length + 1)
      k (scope.1, values ++ scope.2)) where
  org := by
    intro c hc
    obtain ⟨scope, hscope, hk⟩ := bind_eq_ok.mp hc
    obtain ⟨tenant, htenant, horg⟩ := orgConjunct_of_scope tenancy hscope
    exact ⟨tenant, htenant, (ext _ _ hk).orgConjunct horg⟩
  refuses := by
    intro hnone
    rw [baseScopeConditions_of_no_tenant tenancy hnone]
    rfl

/-- A statement whose conditions are the collected ones, in order, and that binds values
behind theirs. -/
theorem ScopeFirst.plan {x : Except Failure Collected} (first : ScopeFirst ctx x)
    {f : Collected → Except Failure Plan}
    (keeps : ∀ c p, f c = .ok p →
      (∃ before, p.stmt.conds = before ++ c.1) ∧ ∃ more, p.values = c.2 ++ more) :
    PlanScoped ctx (x >>= f) where
  org := by
    intro p hp
    obtain ⟨c, hc, hf⟩ := bind_eq_ok.mp hp
    obtain ⟨tenant, htenant, k, hmem, hk⟩ := first.org c hc
    obtain ⟨⟨before, hconds⟩, more, hvalues⟩ := keeps c p hf
    have horg : OrgConjunct p.stmt.conds p.values tenant.orgID := by
      refine ⟨k, ?_, ?_⟩
      · rw [hconds]
        exact List.mem_append_right _ hmem
      · rw [hvalues]
        exact arg_append hk
    exact ⟨tenant, htenant, horg, fun server row => horg.row⟩
  refuses := by
    intro hnone
    rw [first.refuses hnone]
    rfl

theorem scopedWhere_scopeFirst {input : Slot} (tenancy : res.tenancy = .org) (wheres : Bindings)
    (values : List Value) : ScopeFirst ctx (scopedWhere h ctx input res wheres values) :=
  .collect tenancy values fun _ _ => addWhere_extends h ctx input

theorem lifecycle_scopeFirst {target : LifecycleTarget} (tenancy : target.resource.tenancy = .org)
    (values : List Value) : ScopeFirst ctx (target.scoped ctx values) where
  org := by
    intro c hc
    obtain ⟨scope, hscope, hk⟩ := bind_eq_ok.mp hc
    obtain ⟨tenant, htenant, k, hmem, hk'⟩ := orgConjunct_of_scope tenancy hscope
    cases hk
    exact ⟨tenant, htenant, k, List.mem_cons_of_mem _ hmem, hk'⟩
  refuses := by
    intro hnone
    unfold LifecycleTarget.scoped
    rw [baseScopeConditions_of_no_tenant tenancy hnone]
    rfl

/-! ### The builders -/

theorem selectByEffectWhere_scoped {input : Slot} {eff : UpdatesEffect}
    (tenancy : eff.resource.tenancy = .org) :
    PlanScoped ctx (selectByEffectWhere h ctx input eff) := by
  apply (scopedWhere_scopeFirst tenancy eff.wheres []).plan
  intro c p hp
  cases hp
  exact ⟨⟨[], rfl⟩, [], (List.append_nil _).symm⟩

theorem softDelete_keeps (res : Resource) (c : Collected) :
    (softDelete ctx res c).stmt.conds = c.1 ∧ ∃ more, (softDelete ctx res c).values = c.2 ++ more := by
  unfold softDelete
  dsimp only
  split
  · exact ⟨rfl, _, rfl⟩
  · exact ⟨rfl, [], (List.append_nil _).symm⟩

theorem lock_scoped {target : LifecycleTarget} (tenancy : target.resource.tenancy = .org) :
    PlanScoped ctx (lockLifecycleTransition ctx target) := by
  apply (lifecycle_scopeFirst tenancy _).plan
  intro c p hp
  cases hp
  exact ⟨⟨[], rfl⟩, [], (List.append_nil _).symm⟩

theorem advance_scoped {target : LifecycleTarget} (tenancy : target.resource.tenancy = .org)
    {transitions : List TransitionAdvance} (nonempty : transitions ≠ []) :
    PlanScoped ctx (advanceLifecycleTransition ctx target transitions) := by
  unfold advanceLifecycleTransition
  rw [List.getLast?_eq_some_getLast nonempty]
  apply (lifecycle_scopeFirst tenancy _).plan
  intro c p hp
  cases hp
  exact ⟨⟨[], rfl⟩, [], (List.append_nil _).symm⟩

theorem updates_scoped {input : Slot} {eff : UpdatesEffect} (tenancy : eff.resource.tenancy = .org)
    {bound : List (Ident × Value)} (wheres : eff.wheres.entries ≠ [])
    (binds : eff.binds.entries ≠ []) (hbound : boundColumns h ctx input eff = .ok bound) :
    PlanScoped ctx (applyUpdates h ctx input eff) := by
  unfold applyUpdates
  rw [if_neg wheres, if_neg binds, hbound]
  show PlanScoped ctx (if assigns bound ++ touchUpdatedAt eff = [] then _ else _)
  split
  · exact selectByEffectWhere_scoped tenancy
  · apply (scopedWhere_scopeFirst tenancy eff.wheres _).plan
    intro c p hp
    cases hp
    exact ⟨⟨[], rfl⟩, [], (List.append_nil _).symm⟩

theorem deletes_scoped {input : Slot} {eff : DeletesEffect} (tenancy : eff.resource.tenancy = .org)
    (wheres : eff.wheres.entries ≠ []) : PlanScoped ctx (applyDeletes h ctx input eff) := by
  unfold applyDeletes
  rw [if_neg wheres]
  apply (scopedWhere_scopeFirst tenancy eff.wheres []).plan
  intro c p hp
  cases hp
  split
  · obtain ⟨hconds, hvalues⟩ := softDelete_keeps eff.resource c
    exact ⟨⟨[], hconds⟩, hvalues⟩
  · exact ⟨⟨[], rfl⟩, [], (List.append_nil _).symm⟩

theorem list_scoped {args : Slot} {q : Query} (hres : q.resource = some res)
    (tenancy : res.tenancy = .org) : PlanScoped ctx (buildListSQL h ctx args q) := by
  have first : ScopeFirst ctx (listConditions h ctx args q res) := by
    apply ScopeFirst.collect (k := fun c => do
      let filtered ← addFilters h ctx args q.filters c
      addSearch h ctx args q.search filtered) tenancy []
    intro c c' hc
    obtain ⟨filtered, hfilters, hsearch⟩ := bind_eq_ok.mp hc
    exact (addFilters_extends hfilters).trans (addSearch_extends hsearch)
  unfold buildListSQL
  rw [hres]
  apply first.plan
  intro c p hp
  obtain ⟨projection, -, hp⟩ := bind_eq_ok.mp hp
  cases hp
  exact ⟨⟨[], rfl⟩, [], (List.append_nil _).symm⟩

theorem lookup_scoped {args : Slot} {q : Query} (hres : q.resource = some res)
    (tenancy : res.tenancy = .org) (keys : q.lookupBy ≠ []) :
    PlanScoped ctx (buildLookupSQL h ctx args q) := by
  have first : ScopeFirst ctx (lookupConditions h ctx args q res) := by
    apply ScopeFirst.collect (k := addLookupKeys h ctx args q.lookupBy) tenancy []
    intro c c' hc
    exact addLookupKeys_extends hc
  unfold buildLookupSQL
  rw [hres]
  dsimp only
  rw [if_neg keys]
  apply first.plan
  intro c p hp
  obtain ⟨projection, -, hp⟩ := bind_eq_ok.mp hp
  cases hp
  exact ⟨⟨[], rfl⟩, [], (List.append_nil _).symm⟩

/-! ### Every operation -/

theorem PlanScoped.isolated {op : Operation} {x : Except Failure Plan} (plan : PlanScoped ctx x)
    (send : op.send h ctx = some <$> x) : Isolated h ctx op := by
  unfold Isolated
  rw [send]
  cases hx : x with
  | ok p => exact plan.org p hx
  | error e =>
      intro hnone _
      have hfail := plan.refuses hnone
      rw [hx] at hfail
      exact Except.error.inj hfail

/-- An operation that does not get as far as its scope sends nothing. -/
theorem isolated_of_not_prepared {op : Operation} {e : Failure}
    (prepare : op.prepare h ctx = .error e) (send : op.send h ctx = .error e) :
    Isolated h ctx op := by
  unfold Isolated
  rw [send]
  intro _ hprepared
  rw [prepare] at hprepared
  cases hprepared

/-- A reorder is isolated when it has nothing to send. -/
theorem isolated_reorder_iff {eff : ReorderEffect} {input : Slot} :
    Isolated h ctx (.reorder eff input) ↔ (Operation.reorder eff input).reorderedIds = [] := by
  cases hids : reorderIds input with
  | error e =>
      have prepare : (Operation.reorder eff input).prepare h ctx = .error e := by
        simp only [Operation.prepare, hids]
        rfl
      have send : (Operation.reorder eff input).send h ctx = .error e := by
        simp only [Operation.send, applyReorder, hids]
        rfl
      simp only [isolated_of_not_prepared prepare send, Operation.reorderedIds, hids]
  | ok ids =>
      simp only [Operation.reorderedIds, hids, Isolated, Operation.send, applyReorder]
      by_cases hnil : ids = []
      · simp [hnil, bind, Except.bind]
      · simp only [bind, Except.bind, if_neg hnil]
        refine ⟨?_, fun hids => absurd hids hnil⟩
        rintro ⟨tenant, -, ⟨k, hmem, -⟩, -⟩
        cases hmem

theorem isolated_of_not_reorder {op : Operation} (hres : op.resource = some res)
    (tenancy : res.tenancy = .org) (other : ∀ eff input, op ≠ .reorder eff input) :
    Isolated h ctx op := by
  cases op with
  | updates eff input =>
      cases hres
      by_cases wheres : eff.wheres.entries = []
      · exact isolated_of_not_prepared (by rw [Operation.prepare, if_pos wheres]; rfl)
          (by rw [Operation.send, applyUpdates, if_pos wheres]; rfl)
      by_cases binds : eff.binds.entries = []
      · exact isolated_of_not_prepared
          (by rw [Operation.prepare, if_neg wheres, if_pos binds]; rfl)
          (by rw [Operation.send, applyUpdates, if_neg wheres, if_pos binds]; rfl)
      cases hbound : boundColumns h ctx input eff with
      | error e =>
          exact isolated_of_not_prepared
            (by rw [Operation.prepare, if_neg wheres, if_neg binds, hbound]; rfl)
            (by rw [Operation.send, applyUpdates, if_neg wheres, if_neg binds, hbound]; rfl)
      | ok bound => exact (updates_scoped tenancy wheres binds hbound).isolated rfl
  | deletes eff input =>
      cases hres
      by_cases wheres : eff.wheres.entries = []
      · exact isolated_of_not_prepared (by rw [Operation.prepare, if_pos wheres]; rfl)
          (by rw [Operation.send, applyDeletes, if_pos wheres]; rfl)
      exact (deletes_scoped tenancy wheres).isolated rfl
  | reorder eff input => exact absurd rfl (other eff input)
  | list q args => exact (list_scoped hres tenancy).isolated rfl
  | lookup q args =>
      by_cases keys : q.lookupBy = []
      · have hq : q.resource = some res := hres
        exact isolated_of_not_prepared (by rw [Operation.prepare, if_pos keys]; rfl)
          (by rw [Operation.send, buildLookupSQL, hq]; dsimp only; rw [if_pos keys]; rfl)
      exact (lookup_scoped hres tenancy keys).isolated rfl
  | lock target =>
      cases hres
      exact (lock_scoped tenancy).isolated rfl
  | advance target transitions =>
      cases hres
      by_cases nonempty : transitions = []
      · exact isolated_of_not_prepared (by rw [Operation.prepare, if_pos nonempty])
          (by rw [Operation.send, nonempty]; rfl)
      exact (advance_scoped tenancy nonempty).isolated rfl

end

/-- An operation on a tenant resource is isolated exactly when it is no reorder with ids to
renumber. -/
theorem isolated_iff (h : Hooks) (ctx : Option Ctx) (op : Operation) (res : Resource)
    (hres : op.resource = some res) (tenancy : res.tenancy = .org) :
    Isolated h ctx op ↔ op.reorderedIds = [] := by
  cases op
  case reorder eff input => exact isolated_reorder_iff
  all_goals
    refine ⟨fun _ => rfl, fun _ => isolated_of_not_reorder hres tenancy ?_⟩
    rintro eff input ⟨⟩

/-! ### A task board -/

def noHooks : Hooks where
  rbac := defaultRbac
  bindingFn _ := none
  sanitizeHTML _ text := text
  cipher _ _ := .ok .ok
  wall := 0

def task : Resource where
  name := ⟨"Task", by decide⟩
  tenancy := .org
  softDelete := true

/-- A member of organisation 1. -/
def member : Ctx where
  actor := ActorUser
  user := some ⟨7, 1, []⟩
  tenant := some ⟨1⟩
  now := none

def idsInput (ids : Items) : Slot := .direct (.struct (.cons "IDs" "ids" (.direct (.list ids)) .nil))

/-- `reorder Task by position` with the id 40. -/
def reorderTask : Operation :=
  .reorder ⟨task, ⟨"position", by decide⟩⟩ (idsInput (.cons (.int 40) .nil))

def idColumn : Ident := ⟨"id", by decide⟩

/-- `deletes Task where id = 40`. -/
def deleteTask : Operation := .deletes ⟨task, .single idColumn (.const (.int 40))⟩ (.direct .nil)

theorem isolated_iff_deleteTask : Isolated noHooks (some member) deleteTask :=
  (isolated_iff noHooks (some member) deleteTask task rfl rfl).mpr rfl

/-- The row 40 of organisation 2. -/
def foreignRow : Row
  | "id" => .int 40
  | "org_id" => .int 2
  | _ => .nil

/-- The batch update is sent, has no tenant conjunct, and renumbers the row of another
organisation. -/
theorem reorder_crosses_tenants : ¬ Isolated noHooks (some member) reorderTask ∧
    ∃ p, reorderTask.send noHooks (some member) = .ok (some p) ∧
      ∀ server, p.touches server foreignRow = true := by
  constructor
  · intro isolated
    have hids := isolated_reorder_iff.mp isolated
    revert hids
    decide +kernel
  · refine ⟨⟨.renumber task.name ⟨"position", by decide⟩ [(1, 0)], [.int 40]⟩, ?_, ?_⟩
    · rfl
    · intro server
      rfl

end Lazuli.Runtime
