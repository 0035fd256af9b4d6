import Mathlib.Data.List.Nodup
import Mathlib.Data.List.Flatten

/-!
Tenant migrations (`runtime/go/lazuli/migrations/dispatch.go`, `contract.go`).

`ApplyAll` calls the handler of every registered contract for every tenant of its axis, one
after the other, and returns at the first error. It keeps no `tenant_migration_log`: a run
knows nothing of the runs before it.

The directory is a parameter. A handler answers by the number of the call in its run, so a `Run`
is any sequence of answers. `applied_once_iff` says which sequences of runs apply no migration
twice.
-/

namespace Lazuli.Migrations

/-! ### Contracts -/

/-- `target` is the axis. -/
structure TenantMigrationContract where
  feature : String
  name : String
  target : String
  deriving DecidableEq

/-- The key of the handler. -/
def TenantMigrationContract.key (c : TenantMigrationContract) : String := c.feature ++ "." ++ c.name

/-- No two contracts share a key. -/
structure Dispatcher where
  contracts : List TenantMigrationContract
  distinct : (contracts.map (·.key)).Nodup

def newDispatcher : Dispatcher := ⟨[], List.nodup_nil⟩

theorem distinct_register {contracts : List TenantMigrationContract}
    {contract : TenantMigrationContract} (distinct : (contracts.map (·.key)).Nodup)
    (new : contract.key ∉ contracts.map (·.key)) :
    ((contracts ++ [contract]).map (·.key)).Nodup := by
  rw [List.map_append, List.map_singleton]
  exact List.nodup_append.mpr ⟨distinct, List.nodup_singleton _, by
    rintro a ha b hb rfl
    rw [List.mem_singleton.mp hb] at ha
    exact new ha⟩

/-- `none` is the panic of a duplicate registration. -/
def Dispatcher.register (d : Dispatcher) (contract : TenantMigrationContract) :
    Option Dispatcher :=
  if new : contract.key ∉ d.contracts.map (·.key) then
    some ⟨d.contracts ++ [contract], distinct_register d.distinct new⟩
  else none

/-- The registrations of the boot. -/
def Dispatcher.registerAll : Dispatcher → List TenantMigrationContract → Option Dispatcher
  | d, [] => some d
  | d, c :: cs => (d.register c).bind fun d => d.registerAll cs

/-- `none` is an axis that cannot be enumerated. -/
abbrev TenantDirectory := String → Option (List String)

/-! ### A run -/

inductive ApplyError where
  | tenantAxisUnknown (axis : String)
  | handler (feature migration tenant : String)
  deriving DecidableEq

/-- A handler and the tenant that it is for. -/
structure Step where
  feature : String
  migration : String
  tenant : String
  deriving DecidableEq

/-- A handler that was called, and whether it returned nil. -/
structure Called where
  step : Step
  ok : Bool
  deriving DecidableEq

/-- Whether the handlers return nil, in the order of their calls. -/
abbrev Run := Nat → Bool

/-- The inner loop; `n` handlers have been called. -/
def applyTenants (run : Run) (c : TenantMigrationContract) :
    List String → Nat → List Called × Option ApplyError
  | [], _ => ([], none)
  | tenant :: tenants, n =>
      if run n then
        let later := applyTenants run c tenants (n + 1)
        (⟨⟨c.feature, c.name, tenant⟩, true⟩ :: later.1, later.2)
      else ([⟨⟨c.feature, c.name, tenant⟩, false⟩], some (.handler c.feature c.name tenant))

/-- The outer loop. -/
def applyContracts (directory : TenantDirectory) (run : Run) :
    List TenantMigrationContract → Nat → List Called × Option ApplyError
  | [], _ => ([], none)
  | c :: cs, n =>
      match directory c.target with
      | none => ([], some (.tenantAxisUnknown c.target))
      | some tenants =>
          match applyTenants run c tenants n with
          | (called, some err) => (called, some err)
          | (called, none) =>
              let later := applyContracts directory run cs (n + tenants.length)
              (called ++ later.1, later.2)

/-- The handlers that a run calls, and what it returns. -/
def applyAll (d : Dispatcher) (directory : TenantDirectory) (run : Run) :
    List Called × Option ApplyError :=
  applyContracts directory run d.contracts 0

/-! ### What a run calls -/

/-- The steps in the order of the loops, up to an axis that cannot be enumerated. -/
def steps (directory : TenantDirectory) : List TenantMigrationContract → List Step
  | [] => []
  | c :: cs =>
      match directory c.target with
      | none => []
      | some tenants => tenants.map (fun t => ⟨c.feature, c.name, t⟩) ++ steps directory cs

/-- Both loops as one. -/
def callAll (run : Run) : List Step → Nat → List Called
  | [], _ => []
  | s :: ss, n => if run n then ⟨s, true⟩ :: callAll run ss (n + 1) else [⟨s, false⟩]

/-- How many of `len` handlers return nil before the first one that does not. -/
def lead (run : Run) : Nat → Nat → Nat
  | 0, _ => 0
  | len + 1, n => if run n then lead run len (n + 1) + 1 else 0

/-- The steps whose handler returned nil. -/
def succeeded (called : List Called) : List Step := (called.filter (·.ok)).map (·.step)

section Loops

variable {directory : TenantDirectory} {run : Run}

theorem callAll_cons (s : Step) (ss : List Step) (n : Nat) : callAll run (s :: ss) n =
    if run n then ⟨s, true⟩ :: callAll run ss (n + 1) else [⟨s, false⟩] := rfl

theorem lead_succ (len n : Nat) :
    lead run (len + 1) n = if run n then lead run len (n + 1) + 1 else 0 := rfl

theorem lead_eq_zero_iff {len : Nat} (n : Nat) :
    lead run len n = 0 ↔ len = 0 ∨ run n = false := by
  cases len with
  | zero => simp [lead]
  | succ len =>
      unfold lead
      cases run n <;> simp

variable (run) in
/-- The inner loop goes through the tenants and stops at the first error. -/
theorem applyTenants_eq (c : TenantMigrationContract) (tenants : List String) (n : Nat) :
    (applyTenants run c tenants n).1 =
        callAll run (tenants.map fun t => ⟨c.feature, c.name, t⟩) n ∧
      ((applyTenants run c tenants n).2 = none ↔ lead run tenants.length n = tenants.length) := by
  induction tenants generalizing n with
  | nil => exact ⟨rfl, iff_of_true rfl rfl⟩
  | cons tenant tenants ih =>
      obtain ⟨called, err⟩ := ih (n + 1)
      unfold applyTenants
      simp only [List.map_cons, List.length_cons, callAll_cons, lead_succ]
      cases run n with
      | false => exact ⟨rfl, iff_of_false (by simp) (by simp)⟩
      | true =>
          simp only [if_true, called, Nat.add_right_cancel_iff]
          exact ⟨trivial, err⟩

theorem callAll_append (a b : List Step) (n : Nat) : callAll run (a ++ b) n =
    if lead run a.length n = a.length then callAll run a n ++ callAll run b (n + a.length)
    else callAll run a n := by
  induction a generalizing n with
  | nil => rfl
  | cons s a ih =>
      rw [List.cons_append, List.length_cons, callAll_cons, callAll_cons, lead_succ]
      cases run n with
      | false =>
          simp only [Bool.false_eq_true, if_false]
          rw [if_neg (Nat.succ_ne_zero _).symm]
      | true =>
          simp only [if_true, Nat.add_right_cancel_iff]
          rw [ih, show n + 1 + a.length = n + (a.length + 1) by omega]
          split <;> rfl

theorem applyContracts_called (cs : List TenantMigrationContract) (n : Nat) :
    (applyContracts directory run cs n).1 = callAll run (steps directory cs) n := by
  induction cs generalizing n with
  | nil => rfl
  | cons c cs ih =>
      unfold applyContracts steps
      cases directory c.target with
      | none => rfl
      | some tenants =>
          dsimp only
          obtain ⟨called, err⟩ := applyTenants_eq run c tenants n
          rw [callAll_append, List.length_map, ← called]
          cases happlied : applyTenants run c tenants n with
          | mk done failure =>
              rw [happlied] at err
              cases failure with
              | none => rw [if_pos (err.mp rfl), ← ih]
              | some failure => rw [if_neg fun all => nomatch err.mpr all]

theorem applyAll_called (d : Dispatcher) :
    (applyAll d directory run).1 = callAll run (steps directory d.contracts) 0 :=
  applyContracts_called d.contracts 0

/-- What succeeds is what comes before the first failure. -/
theorem succeeded_callAll (ss : List Step) (n : Nat) :
    succeeded (callAll run ss n) = ss.take (lead run ss.length n) := by
  induction ss generalizing n with
  | nil => rfl
  | cons s ss ih =>
      rw [List.length_cons, callAll_cons, lead_succ]
      cases run n with
      | false => rfl
      | true =>
          simp only [if_true, List.take_succ_cons, ← ih]
          rfl

/-- Nothing is called after a failure. -/
theorem callAll_halts {ss : List Step} {n : Nat} {before after : List Called} {x : Called}
    (h : callAll run ss n = before ++ x :: after) (failed : x.ok = false) : after = [] := by
  induction ss generalizing n before with
  | nil => simp [callAll] at h
  | cons s ss ih =>
      rw [callAll_cons] at h
      cases hrun : run n with
      | false =>
          rw [hrun] at h
          cases before with
          | nil =>
              injection h with _ h
              exact h.symm
          | cons y before => simp at h
      | true =>
          rw [hrun] at h
          cases before with
          | nil =>
              injection h with h
              rw [← h] at failed
              cases failed
          | cons y before =>
              injection h with _ h
              exact ih h

theorem lead_eq_of_all_ok {ss : List Step} {n : Nat} (h : ∀ x ∈ callAll run ss n, x.ok = true) :
    lead run ss.length n = ss.length := by
  induction ss generalizing n with
  | nil => rfl
  | cons s ss ih =>
      rw [callAll_cons] at h
      rw [List.length_cons, lead_succ]
      cases hrun : run n with
      | false =>
          rw [hrun] at h
          exact absurd (h _ List.mem_cons_self) (by simp)
      | true =>
          rw [hrun] at h
          rw [if_pos rfl, ih fun x mem => h x (List.mem_cons_of_mem _ mem)]

/-- When every axis can be enumerated, every migration has a step for every tenant. -/
theorem mem_steps {cs : List TenantMigrationContract}
    (listed : ∀ c ∈ cs, (directory c.target).isSome = true) {c : TenantMigrationContract}
    (hc : c ∈ cs) {tenants : List String} (htenants : directory c.target = some tenants)
    {tenant : String} (htenant : tenant ∈ tenants) :
    ⟨c.feature, c.name, tenant⟩ ∈ steps directory cs := by
  induction cs with
  | nil => cases hc
  | cons c' cs ih =>
      unfold steps
      obtain ⟨tenants', htenants'⟩ := Option.isSome_iff_exists.mp (listed c' List.mem_cons_self)
      rw [htenants']
      rcases List.mem_cons.mp hc with rfl | later
      · cases htenants'.symm.trans htenants
        exact List.mem_append_left _ (List.mem_map.mpr ⟨tenant, htenant, rfl⟩)
      · exact List.mem_append_right _
          (ih (fun c mem => listed c (List.mem_cons_of_mem _ mem)) later)

theorem mem_steps_contract {cs : List TenantMigrationContract} {step : Step}
    (h : step ∈ steps directory cs) :
    ∃ c ∈ cs, c.feature = step.feature ∧ c.name = step.migration := by
  induction cs with
  | nil => cases h
  | cons c cs ih =>
      unfold steps at h
      cases htenants : directory c.target with
      | none =>
          rw [htenants] at h
          cases h
      | some tenants =>
          rw [htenants] at h
          rcases List.mem_append.mp h with here | later
          · obtain ⟨tenant, -, rfl⟩ := List.mem_map.mp here
            exact ⟨c, List.mem_cons_self, rfl, rfl⟩
          · obtain ⟨c', mem, same⟩ := ih later
            exact ⟨c', List.mem_cons_of_mem _ mem, same⟩

/-- A directory that lists no tenant twice gives no step twice. -/
theorem steps_nodup (d : Dispatcher)
    (listed : ∀ axis tenants, directory axis = some tenants → tenants.Nodup) :
    (steps directory d.contracts).Nodup := by
  obtain ⟨cs, distinct⟩ := d
  induction cs with
  | nil => exact List.nodup_nil
  | cons c cs ih =>
      rw [List.map_cons, List.nodup_cons] at distinct
      obtain ⟨new, rest⟩ := distinct
      unfold steps
      cases htenants : directory c.target with
      | none => exact List.nodup_nil
      | some tenants =>
          have injective : Function.Injective fun tenant => (⟨c.feature, c.name, tenant⟩ : Step) :=
            fun _ _ same => congrArg Step.tenant same
          refine List.nodup_append.mpr ⟨(listed _ _ htenants).map injective, ih rest, ?_⟩
          rintro step here later mem rfl
          obtain ⟨tenant, -, rfl⟩ := List.mem_map.mp here
          obtain ⟨c', hc', feature, name⟩ := mem_steps_contract mem
          refine new (List.mem_map.mpr ⟨c', hc', ?_⟩)
          unfold TenantMigrationContract.key
          rw [feature, name]

/-- Two runs from the start both get past the first step, or have nothing in common. -/
theorem disjoint_take_iff (ss : List Step) (a b : Nat) :
    List.Disjoint (ss.take a) (ss.take b) ↔ ss = [] ∨ a = 0 ∨ b = 0 := by
  constructor
  · intro disjoint
    cases ss with
    | nil => exact .inl rfl
    | cons s ss =>
        cases a with
        | zero => exact .inr (.inl rfl)
        | succ a =>
            cases b with
            | zero => exact .inr (.inr rfl)
            | succ b => exact (disjoint List.mem_cons_self List.mem_cons_self).elim
  · rintro (rfl | rfl | rfl)
    · simp
    · simp
    · simp

end Loops

/-! ### Sequences of runs -/

section Sequence

variable (d : Dispatcher) (directory : TenantDirectory)

/-- In the whole sequence every handler succeeds at most once for a tenant; nothing is called
after a failure; a run without a failure calls every handler once for every tenant. -/
structure AppliedOnce (runs : List Run) : Prop where
  once : ∀ step, (runs.flatMap fun run => succeeded (applyAll d directory run).1).count step ≤ 1
  halts : ∀ run ∈ runs, ∀ before x after,
    (applyAll d directory run).1 = before ++ x :: after → x.ok = false → after = []
  covers : ∀ run ∈ runs, (∀ x ∈ (applyAll d directory run).1, x.ok = true) →
    (∀ c ∈ d.contracts, (directory c.target).isSome = true) →
    ∀ c ∈ d.contracts, ∀ tenants, directory c.target = some tenants → ∀ tenant ∈ tenants,
      (succeeded (applyAll d directory run).1).count ⟨c.feature, c.name, tenant⟩ = 1

/-- A sequence applies everything at most once if and only if no two of its runs get past the
first step, and no run gets to a step that is listed twice. -/
theorem applied_once_iff (runs : List Run) : AppliedOnce d directory runs ↔
    (runs.Pairwise fun run run' =>
      steps directory d.contracts = [] ∨ run 0 = false ∨ run' 0 = false) ∧
    ∀ run ∈ runs,
      ((steps directory d.contracts).take
        (lead run (steps directory d.contracts).length 0)).Nodup := by
  set all := steps directory d.contracts with hall
  have done : ∀ run, succeeded (applyAll d directory run).1 = all.take (lead run all.length 0) :=
    fun run => by rw [applyAll_called, succeeded_callAll]
  have apart : ∀ run run' : Run,
      List.Disjoint (all.take (lead run all.length 0)) (all.take (lead run' all.length 0)) ↔
        all = [] ∨ run 0 = false ∨ run' 0 = false := by
    intro run run'
    rw [disjoint_take_iff, lead_eq_zero_iff, lead_eq_zero_iff, List.length_eq_zero_iff]
    tauto
  have once : (∀ step, (runs.flatMap fun run => succeeded (applyAll d directory run).1).count step
      ≤ 1) ↔ (∀ run ∈ runs, (all.take (lead run all.length 0)).Nodup) ∧
        runs.Pairwise fun run run' => all = [] ∨ run 0 = false ∨ run' 0 = false := by
    rw [← List.nodup_iff_count_le_one, List.nodup_flatMap]
    simp only [done]
    exact and_congr Iff.rfl (List.Pairwise.iff fun run run' => apart run run')
  constructor
  · intro h
    exact (once.mp h.once).symm
  · rintro ⟨pairs, nodup⟩
    refine ⟨once.mpr ⟨nodup, pairs⟩, ?_, ?_⟩
    · intro run _ before x after h failed
      rw [applyAll_called] at h
      exact callAll_halts h failed
    · intro run hrun ok listed c hc tenants htenants tenant htenant
      rw [applyAll_called] at ok
      have complete := lead_eq_of_all_ok ok
      have covered := nodup run hrun
      rw [done, complete, List.take_length] at *
      exact List.count_eq_one_of_mem covered (mem_steps listed hc htenants htenant)

end Sequence

/-! ### A deploy that is tried again -/

def backfillScore : TenantMigrationContract := ⟨"customer", "backfill_score", "org"⟩

def backfill : Dispatcher := ⟨[backfillScore], List.nodup_singleton _⟩

def orgs : TenantDirectory := fun axis => if axis = "org" then some ["acme", "globex"] else none

/-- The handler fails for globex in the first run; the second run starts with acme again. -/
theorem acme_migrated_twice : ¬ AppliedOnce backfill orgs [fun n => n == 0, fun _ => true] := by
  intro applied
  have acme := applied.once ⟨"customer", "backfill_score", "acme"⟩
  have twice : ([fun n => n == 0, fun _ => true].flatMap fun run =>
      succeeded (applyAll backfill orgs run).1).count ⟨"customer", "backfill_score", "acme"⟩ = 2 :=
    rfl
  omega

end Lazuli.Migrations
