import Lazuli.Runtime.Source

/-!
Plan gates (`runtime/go/lazuli/billing/contract.go`, `gate.go`, `usage.go`).

The subscription store is a plugin: `SubscriptionStore` is what it answers, by user. The usage
store is one too: it is read at a `Key`, and an increment names the key that is to grow. The
calendar, which knows the month of an instant, is a parameter.
-/

namespace Lazuli.Billing

open Lazuli.Runtime

/-! ### The catalog -/

inductive GateKind where
  | behind
  | quota
  deriving DecidableEq

structure GateRef where
  kind : GateKind
  name : String
  deriving DecidableEq

structure LimitValue where
  unlimited : Bool
  value : Nat
  deriving DecidableEq

def limitInt (v : Nat) : LimitValue := ⟨false, v⟩

def limitUnlimited : LimitValue := ⟨true, 0⟩

structure Plan where
  name : String
  features : List String
  limits : List (String × LimitValue)
  deriving DecidableEq

structure PlanCatalog where
  plans : List (String × Plan)
  deriving DecidableEq

structure ActiveSubscription where
  subscriptionID : Int
  planName : String
  deriving DecidableEq

/-- `LookupActive`, which may fail. -/
abbrev SubscriptionStore := Int → Except String ActiveSubscription

inductive GateError where
  | featureForbidden (plan feature : String)
  | quotaExceeded (plan limit : String) (used max : Nat)
  | lookupFailed (reason : String)
  | store (message : String)
  deriving DecidableEq

def resolve (store : Option SubscriptionStore) (ctx : Ctx) : Except GateError ActiveSubscription :=
  match store with
  | none => .error (.lookupFailed "no SubscriptionStore registered")
  | some lookupActive =>
      match ctx.user with
      | none => .error (.lookupFailed "no authenticated caller")
      | some user => (lookupActive user.id).mapError .store

def lookupPlan (store : Option SubscriptionStore) (ctx : Ctx) (catalog : PlanCatalog) :
    Except GateError Plan := do
  let active ← resolve store ctx
  match catalog.plans.lookup active.planName with
  | none => .error (.lookupFailed ("active plan `" ++ active.planName ++ "` not in catalog"))
  | some plan => .ok plan

/-! ### Usage -/

/-- A counter of the usage store. -/
structure Key where
  subscription : Int
  limit : String
  period : Option Int
  deriving DecidableEq

/-- `time.Time.Before`; the zero time comes first. -/
def before : Option Int → Option Int → Bool
  | none, some _ => true
  | some a, some b => decide (a < b)
  | _, none => false

/-- `month` is the first instant of the month. -/
def periodStart (month : Option Int → Option Int) (started now : Option Int) : Option Int :=
  if before now started then started else month now

/-- The counter of a caller for a limit. -/
def usageKey (month : Option Int → Option Int) (ctx : Ctx) (subscriptionID : Int)
    (limit : String) : Key :=
  ⟨subscriptionID, limit, periodStart month none ctx.now⟩

/-- Without a usage store nothing has been used. -/
def readUsage (usage : Option (Key → Except String Nat)) (key : Key) : Except GateError Nat :=
  match usage with
  | none => .ok 0
  | some read => (read key).mapError .store

/-! ### The gates -/

section Gates

variable (store : Option SubscriptionStore) (usage : Option (Key → Except String Nat))
  (month : Option Int → Option Int) (ctx : Ctx) (catalog : PlanCatalog)

def checkFeature (feature : String) : Except GateError Unit := do
  let plan ← lookupPlan store ctx catalog
  if plan.features.contains feature then .ok ()
  else .error (.featureForbidden plan.name feature)

def checkQuota (limit : String) : Except GateError Unit := do
  let plan ← lookupPlan store ctx catalog
  match plan.limits.lookup limit with
  | none =>
      .error (.lookupFailed ("limit `" ++ limit ++ "` missing from plan `" ++ plan.name ++ "`"))
  | some value =>
      if value.unlimited then .ok ()
      else do
        let active ← resolve store ctx
        let used ← readUsage usage (usageKey month ctx active.subscriptionID limit)
        if used ≥ value.value then .error (.quotaExceeded plan.name limit used value.value)
        else .ok ()

/-- The counter that `IncrQuota` increments, if any. -/
def incrQuota (limit : String) : Except GateError (Option Key) := do
  let plan ← lookupPlan store ctx catalog
  match plan.limits.lookup limit with
  | none => .ok none
  | some value =>
      if value.unlimited then .ok none
      else do
        let active ← resolve store ctx
        .ok (some (usageKey month ctx active.subscriptionID limit))

def checkGate (gate : GateRef) : Except GateError Unit :=
  match gate.kind with
  | .behind => checkFeature store ctx catalog gate.name
  | .quota => checkQuota store usage month ctx catalog gate.name

end Gates

/-- The names of the quota gates, in order. -/
def quotas (gates : List GateRef) : List String :=
  (gates.filter (·.kind = .quota)).map (·.name)

/-- The order in which `walkPrelude` checks: features, then quotas. -/
def preludeOrder (gates : List GateRef) : List GateRef :=
  gates.filter (·.kind ≠ .quota) ++ gates.filter (·.kind = .quota)

theorem mem_preludeOrder {gate : GateRef} {gates : List GateRef} :
    gate ∈ preludeOrder gates ↔ gate ∈ gates := by
  unfold preludeOrder
  rw [List.mem_append, List.mem_filter, List.mem_filter]
  by_cases h : gate.kind = .quota <;> simp [h]

/-! ### What passing a check says -/

section Passing

variable {store : Option SubscriptionStore} {usage : Option (Key → Except String Nat)}
  {month : Option Int → Option Int} {ctx : Ctx} {catalog : PlanCatalog} {limit : String}

theorem lookupPlan_ok {plan : Plan} (h : lookupPlan store ctx catalog = .ok plan) :
    ∃ active, resolve store ctx = .ok active ∧
      catalog.plans.lookup active.planName = some plan := by
  obtain ⟨active, hactive, hplan⟩ := bind_eq_ok.mp h
  refine ⟨active, hactive, ?_⟩
  cases hfound : catalog.plans.lookup active.planName with
  | none => simp [hfound] at hplan
  | some found =>
      simp only [hfound, Except.ok.injEq] at hplan
      rw [hplan]

/-- A finite limit is checked against the usage that was read. -/
theorem checkQuota_ok (h : checkQuota store usage month ctx catalog limit = .ok ()) :
    ∃ active plan value, resolve store ctx = .ok active ∧
      catalog.plans.lookup active.planName = some plan ∧
      plan.limits.lookup limit = some value ∧
      (value.unlimited = true ∨ ∃ used,
        readUsage usage (usageKey month ctx active.subscriptionID limit) = .ok used ∧
          used < value.value) := by
  obtain ⟨plan, hplan, rest⟩ := bind_eq_ok.mp h
  obtain ⟨active, hactive, hlookup⟩ := lookupPlan_ok hplan
  cases hvalue : plan.limits.lookup limit with
  | none => simp [hvalue] at rest
  | some value =>
      refine ⟨active, plan, value, hactive, hlookup, hvalue, ?_⟩
      simp only [hvalue] at rest
      by_cases unlimited : value.unlimited = true
      · exact .inl unlimited
      · rw [if_neg unlimited] at rest
        obtain ⟨active', hactive', rest⟩ := bind_eq_ok.mp rest
        cases hactive.symm.trans hactive'
        obtain ⟨used, hused, rest⟩ := bind_eq_ok.mp rest
        refine .inr ⟨used, hused, ?_⟩
        by_contra reached
        rw [if_pos (Nat.le_of_not_lt reached)] at rest
        cases rest

/-- Only the caller's own counter is incremented. -/
theorem incrQuota_some {key : Key}
    (h : incrQuota store month ctx catalog limit = .ok (some key)) :
    ∃ active, resolve store ctx = .ok active ∧
      key = usageKey month ctx active.subscriptionID limit := by
  obtain ⟨plan, -, rest⟩ := bind_eq_ok.mp h
  cases hvalue : plan.limits.lookup limit with
  | none => simp [hvalue] at rest
  | some value =>
      simp only [hvalue] at rest
      split at rest
      · cases rest
      · obtain ⟨active, hactive, rest⟩ := bind_eq_ok.mp rest
        cases rest
        exact ⟨active, hactive, rfl⟩

end Passing

end Lazuli.Billing
