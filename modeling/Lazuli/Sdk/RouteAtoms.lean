import Lazuli.Analyzer.RouteGuardSound

/-!
The evaluation of a route's policy at run time (`runtime/ts/lazuli/src/route-guard.ts`).

A policy is a list of atoms, and a list without atoms lets everybody in.
-/

namespace Lazuli.Sdk

open Ir (PolicyAtom)
open Analyzer.RouteGuard

inductive RouteGuardVerdict where
  | authorized
  | unauthenticated
  | unauthorized
  deriving DecidableEq

def evaluatePolicy (actor : Option Actor) (atoms : List PolicyAtom) : RouteGuardVerdict :=
  if atoms.isEmpty then .authorized
  else if atoms.any (matchesAtom actor) then .authorized
  else if actor.isNone then .unauthenticated
  else .unauthorized

theorem evaluatePolicy_authorized (actor : Option Actor) (atoms : List PolicyAtom) :
    evaluatePolicy actor atoms = .authorized ↔ atoms = [] ∨ Admits atoms actor := by
  have hany : atoms.any (matchesAtom actor) = true ↔ Admits atoms actor := List.any_eq_true
  unfold evaluatePolicy
  rw [← hany]
  split
  · simp_all
  · split
    · simp_all
    · split <;> simp_all

end Lazuli.Sdk

/-!
The atoms in the `beforeLoad` of a route (`lazuli_codegen_ts/src/routes/resolve.rs`, `mod.rs`).

The emitter reads the guard of the route and of no outer level, writes the atoms of its first
policy, and looks a named policy up in all features; a policy that it does not find has no atoms,
and then everybody is let in. The analyzer resolves the guard level by level, with all its
policies. `routeAtoms_iff` says for which routes the two admit the same actors.
-/

namespace Lazuli.Sdk.RouteAtoms

open Ir (PolicyAtom)
open Analyzer.RouteGuard

/-! ### The emitter -/

structure ForbidWhen where
  atom : PolicyAtom
  dispatchTo : String
  deriving DecidableEq

/-- A guard with what the emitter reads of it. -/
structure GuardDecl extends ViewGuard where
  onUnauthenticated : Option String := none
  onUnauthorized : Option String := none
  forbidWhen : List ForbidWhen := []
  deriving DecidableEq

structure RouteDecl where
  name : String
  target : Option String
  surface : Option String
  audience : Option String
  guard : Option GuardDecl
  deriving DecidableEq

/-- The route as the analyzer reads it. -/
def RouteDecl.analyzed (route : RouteDecl) : AppRoute where
  name := route.name
  target := route.target
  surface := route.surface
  audience := route.audience
  guard := route.guard.map (·.toViewGuard)

/-- One `@` is taken off, if there is one. -/
def stripAt (s : String) : String := (stripPrefix "@" s).getD s

/-- What follows a parenthesis is cut off. -/
def parseAtomString (s : String) : Option PolicyAtom :=
  (splitOnce '.' (stripAt s)).map fun (ns, rest) => ⟨ns, headText '(' rest⟩

/-- The categories of all features, one feature after the other. -/
def catalog (features : List Feature) : List Category := features.flatMap (·.categories)

def resolvePolicyAtoms (policyRef : String) (features : List Feature) : List PolicyAtom :=
  match splitOnce '.' (stripAt policyRef) with
  | none => []
  | some (ns, name) =>
      if ns = "policy" then
        match (catalog features).find? (·.name = name) with
        | some category => category.atoms.filterMap parseAtomString
        | none => []
      else [⟨ns, name⟩]

structure GuardEmit where
  policyName : String
  policyAtoms : List PolicyAtom
  onUnauthenticated : Option String
  onUnauthorized : Option String
  forbidWhen : List ForbidWhen
  deriving DecidableEq

/-- The policy of a guard that only forbids. -/
def trivialPolicy : String × List PolicyAtom := ("@scope.authenticated", [signedIn])

def resolveGuardEmit (features : List Feature) (guard : GuardDecl) : Option GuardEmit :=
  if guard.policy.isEmpty ∧ guard.forbidWhen.isEmpty then none
  else
    let (policyName, policyAtoms) :=
      match guard.policy.head? with
      | some policyRef => (trimText policyRef, resolvePolicyAtoms (trimText policyRef) features)
      | none => trivialPolicy
    some ⟨policyName, policyAtoms, guard.onUnauthenticated, guard.onUnauthorized, guard.forbidWhen⟩

def guardEmit (features : List Feature) (route : RouteDecl) : Option GuardEmit :=
  route.guard.bind (resolveGuardEmit features)

/-! ### Agreement -/

/-- Without a guard there is nothing to evaluate. -/
def EmitAdmits (emit : Option GuardEmit) (actor : Option Actor) : Prop :=
  ∀ guard, emit = some guard → evaluatePolicy actor guard.policyAtoms = .authorized

/-- The policies of the innermost guard, or the default of the app; the built-in guard has none. -/
def policiesOf (app : Option AppManifest) (route : AppRoute) (ctx : RouteCtx) :
    Option (List String) :=
  match [route.guard, ctx.platformView.guard, ctx.experienceView.guard,
      ctx.audience.guard].findSome? id with
  | some guard => some guard.policy
  | none => (app.bind (·.defaultPolicy)).map ([·])

/-- The atoms of the resolved guard; a guard without policies asks for nothing. -/
def Asked (features : List Feature) (app : Option AppManifest) (route : AppRoute) (ctx : RouteCtx)
    (atom : PolicyAtom) : Prop :=
  (policiesOf app route ctx = some [] ∧ atom = everyone) ∨
    atom ∈ (guardOf features app route ctx).atoms

/-- The resolved guard admits the actor: one of its atoms matches. -/
def ResolvedAdmits (features : List Feature) (app : Option AppManifest) (route : AppRoute)
    (ctx : RouteCtx) (actor : Option Actor) : Prop :=
  ∃ atom, Asked features app route ctx atom ∧ matchesAtom actor atom = true

/-- A reference of the guard that has no atoms in its own feature, or, on a route to no view, in
no feature at all. -/
def Unresolved (features : List Feature) (m : ExperienceModule) (app : Option AppManifest)
    (route : AppRoute) (policyRef : String) : Prop :=
  (∃ ctx policies, routeCtx m route = some ctx ∧ policiesOf app route ctx = some policies ∧
    policyRef ∈ policies ∧ policyTextAtoms features policyRef ctx.feature = []) ∨
  (routeCtx m route = none ∧ (∃ guard, route.guard = some guard ∧ policyRef ∈ guard.policy) ∧
    ∀ feature, policyTextAtoms features policyRef feature = [])

/-- The emitted atoms admit whom the resolved guard admits, and no unresolved reference opens the
route. -/
structure Faithful (features : List Feature) (m : ExperienceModule) (app : Option AppManifest)
    (route : RouteDecl) : Prop where
  admits : ∀ ctx, routeCtx m route.analyzed = some ctx → ∀ actor,
    EmitAdmits (guardEmit features route) actor ↔
      ResolvedAdmits features app route.analyzed ctx actor
  closed : ∀ policyRef, Unresolved features m app route.analyzed policyRef →
    ∃ guard, guardEmit features route = some guard ∧ guard.policyAtoms ≠ []

/-! ### What is written -/

/-- The reference is to the atom, or to the first category of its name that any feature has. -/
def Writes (features : List Feature) (policyRef : String) (atom : PolicyAtom) : Prop :=
  ∃ ns name, splitOnce '.' (stripAt (trimText policyRef)) = some (ns, name) ∧
    if ns = "policy" then
      ∃ pre category post, catalog features = pre ++ category :: post ∧ category.name = name ∧
        (∀ other ∈ pre, other.name ≠ name) ∧
        ∃ text ∈ category.atoms, parseAtomString text = some atom
    else atom = ⟨ns, name⟩

/-- The atoms of the first policy of the route's own guard; a guard that only forbids asks for
somebody who is signed in. -/
def Written (features : List Feature) (route : RouteDecl) (atom : PolicyAtom) : Prop :=
  ∃ guard, route.guard = some guard ∧
    ((∃ policyRef, guard.policy.head? = some policyRef ∧ Writes features policyRef atom) ∨
      guard.policy = [] ∧ guard.forbidWhen ≠ [] ∧ atom = signedIn)

/-- Where nothing is written everybody is let in. -/
def LetIn (features : List Feature) (route : RouteDecl) (atom : PolicyAtom) : Prop :=
  Written features route atom ∨ (∀ other, ¬ Written features route other) ∧ atom = everyone

/-- Among the atoms there is one for everybody whom the atom matches. -/
def Grants (given : PolicyAtom → Prop) (atom : PolicyAtom) : Prop :=
  given everyone ∨
    if atom.ns = "scope" then
      if atom.name = "public" then given signedIn ∧ given anonymous
      else if atom.name = "authenticated" then given signedIn
      else if atom.name = "same_org" then given atom ∨ given signedIn
      else True
    else if atom.ns = "role" then given atom ∨ given signedIn
    else if atom.ns = "actor" then given atom ∨ atom.name ≠ "anonymous" ∧ given signedIn
    else True

section Atoms

variable {features : List Feature} {m : ExperienceModule} {app : Option AppManifest}
  {route : RouteDecl} {ctx : RouteCtx} {policyRef : String} {atom : PolicyAtom}
  {given asked : PolicyAtom → Prop}

theorem mem_resolvePolicyAtoms :
    atom ∈ resolvePolicyAtoms (trimText policyRef) features ↔ Writes features policyRef atom := by
  unfold resolvePolicyAtoms Writes
  cases splitOnce '.' (stripAt (trimText policyRef)) with
  | none => simp
  | some parts =>
      obtain ⟨ns, name⟩ := parts
      simp only [Option.some.injEq, Prod.mk.injEq, exists_and_left, exists_eq_left', and_assoc]
      by_cases hns : ns = "policy"
      · rw [if_pos hns, if_pos hns]
        constructor
        · cases hfind : (catalog features).find? (·.name = name) with
          | none => exact fun h => absurd h List.not_mem_nil
          | some category =>
              intro h
              obtain ⟨text, htext, hatom⟩ := List.mem_filterMap.mp h
              obtain ⟨hname, pre, post, hcatalog, hpre⟩ := List.find?_eq_some_iff_append.mp hfind
              refine ⟨pre, category, post, hcatalog, of_decide_eq_true hname, fun other hmem => ?_,
                text, htext, hatom⟩
              simpa using hpre other hmem
        · rintro ⟨pre, category, post, hcatalog, hname, hpre, text, htext, hatom⟩
          have hfind : (catalog features).find? (·.name = name) = some category := by
            refine List.find?_eq_some_iff_append.mpr ⟨by simpa using hname, pre, post, hcatalog, ?_⟩
            exact fun other hmem => by simpa using hpre other hmem
          rw [hfind]
          exact List.mem_filterMap.mpr ⟨text, htext, hatom⟩
      · rw [if_neg hns, if_neg hns, List.mem_singleton]

theorem mem_guardEmit : (∃ guard, guardEmit features route = some guard ∧ atom ∈ guard.policyAtoms) ↔
    Written features route atom := by
  unfold guardEmit Written
  cases hguard : route.guard with
  | none => simp
  | some guard =>
      simp only [Option.bind_some, Option.some.injEq, exists_eq_left']
      unfold resolveGuardEmit
      cases hpolicy : guard.policy with
      | nil => by_cases hforbid : guard.forbidWhen = [] <;> simp [hforbid, trivialPolicy]
      | cons policyRef rest => simp [← mem_resolvePolicyAtoms]

theorem closed_iff : (∃ guard, guardEmit features route = some guard ∧ guard.policyAtoms ≠ []) ↔
    ∃ atom, Written features route atom := by
  simp only [← mem_guardEmit]
  constructor
  · rintro ⟨guard, hguard, hne⟩
    obtain ⟨atom, hatom⟩ := List.exists_mem_of_ne_nil _ hne
    exact ⟨atom, guard, hguard, hatom⟩
  · rintro ⟨atom, guard, hguard, hatom⟩
    exact ⟨guard, hguard, List.ne_nil_of_mem hatom⟩

/-- What is written, as a list. -/
theorem exists_letIn (features : List Feature) (route : RouteDecl) :
    ∃ atoms : List PolicyAtom, (∀ atom, atom ∈ atoms ↔ LetIn features route atom) ∧
      ∀ actor, EmitAdmits (guardEmit features route) actor ↔ Admits atoms actor := by
  by_cases hwritten : ∃ atom, Written features route atom
  · obtain ⟨guard, hguard, hne⟩ := closed_iff.mpr hwritten
    refine ⟨guard.policyAtoms, fun atom => ?_, fun actor => ?_⟩
    · rw [LetIn, or_iff_left fun h => hwritten.elim h.1, ← mem_guardEmit]
      simp [hguard]
    · simp [EmitAdmits, hguard, evaluatePolicy_authorized, hne]
  · have hnone := not_exists.mp hwritten
    refine ⟨[everyone], fun atom => ?_, fun actor => iff_of_true (fun guard hguard => ?_) ?_⟩
    · rw [List.mem_singleton, LetIn, or_iff_right (hnone atom), and_iff_right hnone]
    · refine (evaluatePolicy_authorized actor _).mpr (.inl ?_)
      by_contra hne
      exact hwritten (closed_iff.mp ⟨guard, hguard, hne⟩)
    · exact admits_of_everyone List.mem_cons_self actor

theorem exists_asked (features : List Feature) (app : Option AppManifest) (route : AppRoute)
    (ctx : RouteCtx) : ∃ atoms : List PolicyAtom, ∀ atom,
      atom ∈ atoms ↔ Asked features app route ctx atom := by
  by_cases hnone : policiesOf app route ctx = some []
  · exact ⟨everyone :: (guardOf features app route ctx).atoms, fun atom => by simp [Asked, hnone]⟩
  · exact ⟨(guardOf features app route ctx).atoms, fun atom => by simp [Asked, hnone]⟩

theorem grants_iff_covers {atoms : List PolicyAtom} (h : ∀ atom, atom ∈ atoms ↔ given atom) :
    Grants given atom ↔ Covers atoms atom := by
  simp only [Grants, Covers, h]

/-- Two lists admit the same actors when each has something for every atom of the other. -/
theorem same_actors_iff {atoms others : List PolicyAtom} :
    (∀ actor, Admits atoms actor ↔ Admits others actor) ↔
      (∀ atom ∈ atoms, Covers others atom) ∧ ∀ atom ∈ others, Covers atoms atom := by
  constructor
  · intro h
    refine ⟨fun atom hatom => ?_, fun atom hatom => ?_⟩
    · exact (covers_iff others atom).mpr fun actor hmatch => (h actor).mp ⟨atom, hatom, hmatch⟩
    · exact (covers_iff atoms atom).mpr fun actor hmatch => (h actor).mpr ⟨atom, hatom, hmatch⟩
  · rintro ⟨hthere, hback⟩ actor
    constructor
    · rintro ⟨atom, hatom, hmatch⟩
      exact admits_of_covers (hthere atom hatom) hmatch
    · rintro ⟨atom, hatom, hmatch⟩
      exact admits_of_covers (hback atom hatom) hmatch

theorem admits_iff (features : List Feature) (app : Option AppManifest) (route : RouteDecl)
    (ctx : RouteCtx) :
    (∀ actor, EmitAdmits (guardEmit features route) actor ↔
        ResolvedAdmits features app route.analyzed ctx actor) ↔
      (∀ atom, LetIn features route atom → Grants (Asked features app route.analyzed ctx) atom) ∧
        ∀ atom, Asked features app route.analyzed ctx atom → Grants (LetIn features route) atom := by
  obtain ⟨written, hwritten, hemit⟩ := exists_letIn features route
  obtain ⟨asked, hasked⟩ := exists_asked features app route.analyzed ctx
  simp only [hemit, ResolvedAdmits, ← hwritten, ← hasked, grants_iff_covers hwritten,
    grants_iff_covers hasked]
  exact same_actors_iff

/-- **The atoms in the `beforeLoad` of a route admit whom the resolved guard admits, and no
unresolved reference opens the route, exactly when what is written and what is asked for have
something for every atom of each other, and something is written wherever a reference is
unresolved.** -/
theorem routeAtoms_iff (features : List Feature) (m : ExperienceModule) (app : Option AppManifest)
    (route : RouteDecl) : Faithful features m app route ↔
      (∀ ctx, routeCtx m route.analyzed = some ctx →
        (∀ atom, LetIn features route atom → Grants (Asked features app route.analyzed ctx) atom) ∧
          ∀ atom, Asked features app route.analyzed ctx atom →
            Grants (LetIn features route) atom) ∧
      ∀ policyRef, Unresolved features m app route.analyzed policyRef →
        ∃ atom, Written features route atom := by
  constructor
  · rintro ⟨hadmits, hclosed⟩
    exact ⟨fun ctx hctx => (admits_iff features app route ctx).mp (hadmits ctx hctx),
      fun policyRef h => closed_iff.mp (hclosed policyRef h)⟩
  · rintro ⟨hadmits, hclosed⟩
    exact ⟨fun ctx hctx => (admits_iff features app route ctx).mpr (hadmits ctx hctx),
      fun policyRef h => closed_iff.mpr (hclosed policyRef h)⟩

end Atoms

/-! ### Hosts and guests -/

/-- The dashboard of hosts and guests, as it is declared. -/
def dashboardFor (policy : List String) : RouteDecl where
  name := "dashboard"
  target := some "booking.view.dashboard"
  surface := none
  audience := none
  guard := some { policy := policy }

def dashboardCtx : RouteCtx where
  audience := ⟨"web", none, [⟨"dashboard", none, [], none⟩]⟩
  platformView := ⟨"dashboard", none, [], none⟩
  experienceView := ⟨"dashboard", some "booking.query.mine", none, [], none⟩
  feature := "booking"
  view := "dashboard"

/-- Of two policies the first is written, so that guests are turned away; of one that is not
declared nothing is, so that everybody is let in. -/
theorem second_policy_dropped :
    ¬ Faithful [booking] bookingApp none (dashboardFor ["@role.host", "@role.guest"]) ∧
      ¬ Faithful [booking] bookingApp none (dashboardFor ["@policy.staff"]) ∧
      EmitAdmits (guardEmit [booking] (dashboardFor ["@policy.staff"])) none := by
  have hopen : guardEmit [booking] (dashboardFor ["@policy.staff"]) =
      some ⟨"@policy.staff", [], none, none, []⟩ := by decide +kernel
  have hfirst : guardEmit [booking] (dashboardFor ["@role.host", "@role.guest"]) =
      some ⟨"@role.host", [⟨"role", "host"⟩], none, none, []⟩ := by decide +kernel
  have hctx (policy : List String) :
      routeCtx bookingApp (dashboardFor policy).analyzed = some dashboardCtx := by
    have htarget : routeCtx bookingApp dashboard = some dashboardCtx := by decide +kernel
    exact htarget
  refine ⟨fun h => ?_, fun h => ?_, fun guard hguard => ?_⟩
  · have hresolved : ResolvedAdmits [booking] none
        (dashboardFor ["@role.host", "@role.guest"]).analyzed dashboardCtx (some guest) :=
      ⟨⟨"role", "guest"⟩, .inr (by decide +kernel), rfl⟩
    have hemit := (h.admits dashboardCtx (hctx _) (some guest)).mpr hresolved _ hfirst
    cases hemit
  · have hunresolved : Unresolved [booking] bookingApp none
        (dashboardFor ["@policy.staff"]).analyzed "@policy.staff" :=
      .inl ⟨dashboardCtx, ["@policy.staff"], hctx _, rfl, List.mem_cons_self, by decide +kernel⟩
    obtain ⟨guard, hguard, hne⟩ := h.closed _ hunresolved
    obtain rfl := Option.some_inj.mp (hopen.symm.trans hguard)
    exact hne rfl
  · obtain rfl := Option.some_inj.mp (hopen.symm.trans hguard)
    rfl

end Lazuli.Sdk.RouteAtoms
