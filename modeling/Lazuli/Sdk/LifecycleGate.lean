import Lazuli.Sdk.RouteAtoms

/-!
The gate of a lifecycle state (`lazuli_codegen_ts/src/lifecycle_gate_emit/emit_group.rs`,
`runtime/ts/lazuli/src/lifecycle-gate.tsx`, `route-guard-component.tsx`, `route-guard.ts`).

A view that needs a state asks a query for the row. The evaluator that is emitted answers with an
object that has `verdict`; the `beforeLoad` form reads that property, the component form reads
`kind`, which the object does not have. So the component form never redirects, and renders
whatever the row is.
-/

namespace Lazuli.Sdk.Gate

open Ir (PolicyAtom)
open Analyzer.RouteGuard

/-! ### Declarations -/

/-- A property of a row. -/
inductive JsValue where
  | text (s : String)
  | null
  | undefined
  deriving DecidableEq

structure ResumeRouter where
  /-- The states of the resource. -/
  states : List String
  arms : List (String × String)
  noneTarget : String
  wildcardTarget : Option String
  deriving DecidableEq

structure RouteGuardShape where
  atoms : List PolicyAtom := []
  onUnauthenticated : Option String := none
  onUnauthorized : Option String := none
  deriving DecidableEq

structure LifecycleGate where
  expectedState : String
  expectedSubstep : Option String := none
  guard : RouteGuardShape := {}
  deriving DecidableEq

/-! ### The resume router -/

/-- A `switch` over a state. -/
structure Switch where
  cases : List (JsValue × String)
  default : String
  deriving DecidableEq

def Switch.run (s : Switch) (state : JsValue) : String := (s.cases.lookup state).getD s.default

def writeResumeRouter (resume : ResumeRouter) : Switch where
  cases := (.null, resume.noneTarget) :: resume.states.map fun state =>
    (.text state, ((resume.arms.lookup state).or resume.wildcardTarget).getD resume.noneTarget)
  default := resume.wildcardTarget.getD resume.noneTarget

def resumeTarget (resume : ResumeRouter) (state : JsValue) : String :=
  (writeResumeRouter resume).run state

/-! ### The evaluator -/

inductive QueryError where
  | lazuli (status : Int)
  | other
  deriving DecidableEq

structure Row where
  state : JsValue
  substep : JsValue
  deriving DecidableEq

inductive Outcome where
  | row (row : Row)
  | noRow
  | error (err : QueryError)
  deriving DecidableEq

/-- The properties of a verdict object. -/
structure Verdict where
  verdict : Option String := none
  kind : Option String := none
  target : Option String := none
  deriving DecidableEq

def pass : Verdict := { verdict := some "pass" }

def redirectTo (target : String) : Verdict := { verdict := some "redirect", target := some target }

/-- The substep is not read. What is thrown is an error of the promise. -/
def evaluateGate (resume : ResumeRouter) (outcome : Outcome) (expectedState : String)
    (_expectedSubstep : Option String) : Except QueryError Verdict :=
  match outcome with
  | .noRow => .ok (redirectTo (resumeTarget resume .null))
  | .row row =>
      if row.state = .text expectedState then .ok pass
      else .ok (redirectTo (resumeTarget resume row.state))
  | .error (.lazuli status) =>
      if status = 404 then .ok (redirectTo (resumeTarget resume .null))
      else if 500 ≤ status then .ok pass
      else .error (.lazuli status)
  | .error .other => .error .other

def evaluated (resume : ResumeRouter) (gate : LifecycleGate) (outcome : Outcome) :
    Except QueryError Verdict :=
  evaluateGate resume outcome gate.expectedState gate.expectedSubstep

/-! ### The two integrations -/

/-- What becomes of the view; `fail` is an error that is thrown. -/
inductive Decision where
  | render
  | redirect (target : String)
  | fail
  deriving DecidableEq

def beforeLoad (resume : ResumeRouter) (gate : LifecycleGate) (actor : Option Actor)
    (outcome : Outcome) : Decision :=
  match evaluatePolicy actor gate.guard.atoms with
  | .unauthenticated => .redirect (gate.guard.onUnauthenticated.getD "/sign-in")
  | .unauthorized => .redirect (gate.guard.onUnauthorized.getD "/forbidden")
  | .authorized =>
      match evaluated resume gate outcome with
      | .error _ => .fail
      | .ok verdict =>
          if verdict.verdict = some "redirect" then .redirect (verdict.target.getD "undefined")
          else .render

/-- The verdict that `useLifecycleGate` holds once the promise is settled. -/
def settle : Except QueryError Verdict → Verdict
  | .ok next => next
  | .error _ => { kind := some "pass" }

/-- What `LifecycleGatedComponent` does with it. -/
def gated (verdict : Verdict) : Decision :=
  if verdict.kind = some "redirect" then .redirect (verdict.target.getD "undefined") else .render

/-- Where `RouteGuard` sends the actor. -/
def guardTarget (guard : RouteGuardShape) (actor : Option Actor) : Option String :=
  match evaluatePolicy actor guard.atoms with
  | .unauthenticated => guard.onUnauthenticated
  | .unauthorized => guard.onUnauthorized
  | .authorized => none

/-- `withRouteGuard(withLifecycleGate(..))`; an empty target is none. -/
def guarded (hasRouter : Bool) (resume : ResumeRouter) (gate : LifecycleGate)
    (actor : Option Actor) (outcome : Outcome) : Decision :=
  match (guardTarget gate.guard actor).filter (· ≠ "") with
  | some target => if hasRouter then .redirect target else .fail
  | none => gated (settle (evaluated resume gate outcome))

/-! ### Soundness and agreement -/

/-- The row has the state, and the substep if the gate names one; or the lookup failed at the
server. -/
def Allowed (gate : LifecycleGate) : Outcome → Prop
  | .row row => row.state = .text gate.expectedState ∧
      ∀ substep, gate.expectedSubstep = some substep → row.substep = .text substep
  | .noRow => False
  | .error (.lazuli status) => 500 ≤ status ∧ status < 600
  | .error .other => False

structure GateSound (hasRouter : Bool) (resume : ResumeRouter) (gate : LifecycleGate)
    (actor : Option Actor) (outcome : Outcome) : Prop where
  routed : beforeLoad resume gate actor outcome = .render → Allowed gate outcome
  wrapped : guarded hasRouter resume gate actor outcome = .render → Allowed gate outcome
  same : beforeLoad resume gate actor outcome = guarded hasRouter resume gate actor outcome

/-- A redirect of the guard that both forms follow. -/
def Redirects (hasRouter : Bool) (target : Option String) : Prop :=
  hasRouter = true ∧ ∃ path, target = some path ∧ path ≠ ""

/-- The actor is admitted and the outcome allows the view, or the guard has a redirect for the
actor. -/
def Settled (hasRouter : Bool) (gate : LifecycleGate) (actor : Option Actor)
    (outcome : Outcome) : Prop :=
  match evaluatePolicy actor gate.guard.atoms with
  | .authorized => Allowed gate outcome
  | .unauthenticated => Redirects hasRouter gate.guard.onUnauthenticated
  | .unauthorized => Redirects hasRouter gate.guard.onUnauthorized

section Gate

variable {hasRouter : Bool} {resume : ResumeRouter} {gate : LifecycleGate} {actor : Option Actor}
  {outcome : Outcome} {verdict : Verdict}

/-- No verdict of the evaluator has a `kind`. -/
theorem evaluated_kind (h : evaluated resume gate outcome = .ok verdict) : verdict.kind = none := by
  unfold evaluated evaluateGate at h
  split at h
  · cases h
    rfl
  · split at h <;> cases h <;> rfl
  · split at h
    · cases h
      rfl
    · split at h <;> cases h
      rfl
  · cases h

/-- The component form renders whatever the outcome is. -/
theorem gated_settle : gated (settle (evaluated resume gate outcome)) = .render := by
  cases h : evaluated resume gate outcome with
  | error err => rfl
  | ok verdict => rw [settle, gated, evaluated_kind h, if_neg (by simp)]

/-- The evaluator lets a view pass that is allowed. -/
theorem evaluated_of_allowed (h : Allowed gate outcome) : evaluated resume gate outcome = .ok pass := by
  unfold evaluated evaluateGate
  cases outcome with
  | noRow => exact h.elim
  | row row => exact if_pos h.1
  | error err =>
      cases err with
      | other => exact h.elim
      | lazuli status =>
          have hne : status ≠ 404 := fun h404 => absurd (h404 ▸ h.1) (by decide)
          exact (if_neg hne).trans (if_pos h.1)

/-- What both forms do with an actor whom the guard refuses. -/
theorem gateSound_refused {target : Option String} (fallback : String)
    (hrouted : beforeLoad resume gate actor outcome = .redirect (target.getD fallback))
    (htarget : guardTarget gate.guard actor = target) :
    GateSound hasRouter resume gate actor outcome ↔ Redirects hasRouter target := by
  have hwrapped : guarded hasRouter resume gate actor outcome =
      match target.filter (· ≠ "") with
      | some target => if hasRouter then .redirect target else .fail
      | none => .render := by
    rw [guarded, htarget, gated_settle]
  have hsame : GateSound hasRouter resume gate actor outcome ↔
      .redirect (target.getD fallback) = guarded hasRouter resume gate actor outcome := by
    rw [← hrouted]
    refine ⟨fun h => h.same, fun h => ⟨fun hrender => ?_, fun hrender => ?_, h⟩⟩
    · cases hrouted.symm.trans hrender
    · cases hrouted.symm.trans (h.trans hrender)
  rw [hsame, hwrapped, Redirects]
  cases target with
  | none => simp
  | some path =>
      by_cases hpath : path = ""
      · simp [hpath, Option.filter]
      · cases hasRouter <;> simp [hpath, Option.filter]

theorem gateSound_admitted (hverdict : evaluatePolicy actor gate.guard.atoms = .authorized) :
    GateSound hasRouter resume gate actor outcome ↔ Allowed gate outcome := by
  have hwrapped : guarded hasRouter resume gate actor outcome = .render := by
    rw [guarded, guardTarget, hverdict]
    exact gated_settle
  refine ⟨fun h => h.wrapped hwrapped, fun h => ⟨fun _ => h, fun _ => h, ?_⟩⟩
  rw [hwrapped, beforeLoad, hverdict, evaluated_of_allowed h]
  rfl

/-- **The view is rendered only if the row has the state or the lookup failed at the server, and
both forms decide alike, exactly when the outcome for an admitted actor does allow the view and a
refused one has a redirect.** -/
theorem gateSound_iff (hasRouter : Bool) (resume : ResumeRouter) (gate : LifecycleGate)
    (actor : Option Actor) (outcome : Outcome) :
    GateSound hasRouter resume gate actor outcome ↔ Settled hasRouter gate actor outcome := by
  unfold Settled
  cases hverdict : evaluatePolicy actor gate.guard.atoms with
  | authorized => exact gateSound_admitted hverdict
  | unauthenticated =>
      refine gateSound_refused "/sign-in" ?_ ?_
      · simp only [beforeLoad, hverdict]
      · simp only [guardTarget, hverdict]
  | unauthorized =>
      refine gateSound_refused "/forbidden" ?_ ?_
      · simp only [beforeLoad, hverdict]
      · simp only [guardTarget, hverdict]

/-- The `beforeLoad` form by itself lets a view pass whose row is in another substep, and one whose
lookup failed with a status that is no server's. -/
theorem beforeLoad_render (hverdict : evaluatePolicy actor gate.guard.atoms = .authorized) :
    beforeLoad resume gate actor outcome = .render ↔
      (∃ row, outcome = .row row ∧ row.state = .text gate.expectedState) ∨
        ∃ status, outcome = .error (.lazuli status) ∧ 500 ≤ status := by
  unfold beforeLoad evaluated evaluateGate
  rw [hverdict]
  cases outcome with
  | noRow => simp [redirectTo]
  | row row => by_cases hstate : row.state = .text gate.expectedState <;> simp [hstate, redirectTo, pass]
  | error err =>
      cases err with
      | other => simp
      | lazuli status =>
          by_cases h404 : status = 404
          · simp [h404, redirectTo]
          · by_cases h500 : 500 ≤ status <;> simp [h404, h500, pass]

end Gate

/-! ### A host that is being reviewed -/

def hostResume : ResumeRouter where
  states := ["draft", "review", "active"]
  arms := [("draft", "/onboarding"), ("review", "/waiting")]
  noneTarget := "/start"
  wildcardTarget := none

/-- The dashboard is for active hosts. -/
def dashboardGate : LifecycleGate where
  expectedState := "active"

/-- The `beforeLoad` form sends the host to wait, the component form renders the dashboard. -/
theorem reviewed_host_rendered :
    beforeLoad hostResume dashboardGate none (.row ⟨.text "review", .undefined⟩) =
        .redirect "/waiting" ∧
      guarded true hostResume dashboardGate none (.row ⟨.text "review", .undefined⟩) = .render ∧
      ¬ GateSound true hostResume dashboardGate none (.row ⟨.text "review", .undefined⟩) := by
  refine ⟨by decide, by decide, fun h => ?_⟩
  exact absurd h.same (by decide)

end Lazuli.Sdk.Gate
