import Lazuli.Analyzer.RouteGuard

/-!
Whether a route guard that passes the check only admits actors whom the backend admits.

At run time (`runtime/ts/lazuli/src/route-guard.ts`) a list of atoms admits an actor when one of
them matches. `Covers` says when everybody whom an atom matches is admitted by a list: the atom
is in it, or a more general one. The check asks that the backend's atoms are among the guard's,
which says nothing about the guard's other atoms; `route_guard_sound_iff` is exact.
-/

namespace Lazuli.Analyzer.RouteGuard

open Lazuli.Ir

/-! ### Actors -/

/-- `LazuliActor`; an absent property and `null` are both `none`. -/
structure Actor where
  role : Option String
  roles : Option (List String)
  kind : Option String
  actor : Option String
  orgId : Option String
  tenantId : Option String
  deriving DecidableEq

/-- The kind of an actor; without an actor it is anonymous. -/
def kindOf : Option Actor → String
  | none => "anonymous"
  | some a => (a.kind.or a.actor).getD "user"

/-- `!!(actor?.orgId ?? actor?.tenantId)`; the empty text is falsy. -/
def hasOrg : Option Actor → Bool
  | none => false
  | some a =>
      match a.orgId.or a.tenantId with
      | none => false
      | some id => id ≠ ""

def hasRole (name : String) : Option Actor → Bool
  | none => false
  | some a => a.role = some name || (a.roles.getD []).contains name

def matchesAtom (actor : Option Actor) (atom : PolicyAtom) : Bool :=
  if atom.ns = "scope" then
    if atom.name = "public" then true
    else if atom.name = "authenticated" then actor.isSome
    else if atom.name = "same_org" then hasOrg actor
    else false
  else if atom.ns = "role" then hasRole atom.name actor
  else if atom.ns = "actor" then kindOf actor = atom.name
  else false

/-- One of the atoms matches. -/
def Admits (atoms : List PolicyAtom) (actor : Option Actor) : Prop :=
  ∃ atom ∈ atoms, matchesAtom actor atom = true

/-! ### What a list of atoms covers -/

def everyone : PolicyAtom := ⟨"scope", "public"⟩

def signedIn : PolicyAtom := ⟨"scope", "authenticated"⟩

def anonymous : PolicyAtom := ⟨"actor", "anonymous"⟩

/-- The list has an atom for everybody whom the atom matches. An atom that matches nobody needs
none. -/
def Covers (backend : List PolicyAtom) (atom : PolicyAtom) : Prop :=
  everyone ∈ backend ∨
    if atom.ns = "scope" then
      if atom.name = "public" then signedIn ∈ backend ∧ anonymous ∈ backend
      else if atom.name = "authenticated" then signedIn ∈ backend
      else if atom.name = "same_org" then atom ∈ backend ∨ signedIn ∈ backend
      else True
    else if atom.ns = "role" then atom ∈ backend ∨ signedIn ∈ backend
    else if atom.ns = "actor" then atom ∈ backend ∨ atom.name ≠ "anonymous" ∧ signedIn ∈ backend
    else True

section Cover

variable {backend : List PolicyAtom}

theorem admits_of_everyone (h : everyone ∈ backend) (actor : Option Actor) : Admits backend actor :=
  ⟨everyone, h, rfl⟩

theorem admits_of_signedIn (h : signedIn ∈ backend) (a : Actor) : Admits backend (some a) :=
  ⟨signedIn, h, rfl⟩

/-- Only an actor has an organisation, a role or a kind of its own. -/
theorem isSome_of_hasOrg {actor : Option Actor} (h : hasOrg actor = true) :
    ∃ a, actor = some a := by
  cases actor with
  | none => cases h
  | some a => exact ⟨a, rfl⟩

theorem isSome_of_hasRole {name : String} {actor : Option Actor} (h : hasRole name actor = true) :
    ∃ a, actor = some a := by
  cases actor with
  | none => cases h
  | some a => exact ⟨a, rfl⟩

theorem isSome_of_kindOf {actor : Option Actor} (h : kindOf actor ≠ "anonymous") :
    ∃ a, actor = some a := by
  cases actor with
  | none => exact absurd rfl h
  | some a => exact ⟨a, rfl⟩

theorem admits_of_covers {atom : PolicyAtom} (covers : Covers backend atom) {actor : Option Actor}
    (h : matchesAtom actor atom = true) : Admits backend actor := by
  rcases covers with all | covers
  · exact admits_of_everyone all actor
  have itself := h
  unfold matchesAtom at h
  by_cases scope : atom.ns = "scope"
  · rw [if_pos scope] at covers h
    by_cases isPublic : atom.name = "public"
    · rw [if_pos isPublic] at covers
      cases actor with
      | none => exact ⟨anonymous, covers.2, rfl⟩
      | some a => exact admits_of_signedIn covers.1 a
    rw [if_neg isPublic] at covers h
    by_cases authenticated : atom.name = "authenticated"
    · rw [if_pos authenticated] at covers h
      obtain ⟨a, rfl⟩ := Option.isSome_iff_exists.mp h
      exact admits_of_signedIn covers a
    rw [if_neg authenticated] at covers h
    by_cases sameOrg : atom.name = "same_org"
    · rw [if_pos sameOrg] at covers h
      obtain ⟨a, rfl⟩ := isSome_of_hasOrg h
      rcases covers with mem | general
      · exact ⟨atom, mem, itself⟩
      · exact admits_of_signedIn general a
    · rw [if_neg sameOrg] at h
      cases h
  rw [if_neg scope] at covers h
  by_cases role : atom.ns = "role"
  · rw [if_pos role] at covers h
    obtain ⟨a, rfl⟩ := isSome_of_hasRole h
    rcases covers with mem | general
    · exact ⟨atom, mem, itself⟩
    · exact admits_of_signedIn general a
  rw [if_neg role] at covers h
  by_cases kind : atom.ns = "actor"
  · rw [if_pos kind] at covers h
    rcases covers with mem | ⟨named, general⟩
    · exact ⟨atom, mem, itself⟩
    · obtain ⟨a, rfl⟩ := isSome_of_kindOf (by rwa [of_decide_eq_true h])
      exact admits_of_signedIn general a
  · rw [if_neg kind] at h
    cases h

/-- A signed-in actor with a kind, and perhaps a role and an organisation. -/
def someone (kind : String) (role org : Option String) : Actor :=
  ⟨role, none, some kind, none, org, none⟩

/-- A text that is the name of none of the atoms, being longer. -/
def fresh (atoms : List PolicyAtom) : String := atoms.foldr (fun a text => a.name ++ text) "x"

theorem length_fresh_cons (atom : PolicyAtom) (atoms : List PolicyAtom) :
    (fresh (atom :: atoms)).length = atom.name.length + (fresh atoms).length :=
  String.length_append ..

theorem length_fresh_pos (atoms : List PolicyAtom) : 0 < (fresh atoms).length := by
  induction atoms with
  | nil => exact Nat.one_pos
  | cons atom atoms ih =>
      rw [length_fresh_cons]
      omega

theorem length_name_lt_fresh {atom : PolicyAtom} (h : atom ∈ backend) :
    atom.name.length < (fresh backend).length := by
  induction backend with
  | nil => cases h
  | cons b backend ih =>
      rw [length_fresh_cons]
      have positive := length_fresh_pos backend
      rcases List.mem_cons.mp h with rfl | later
      · omega
      · have shorter := ih later
        omega

theorem fresh_notMem : (⟨"actor", fresh backend⟩ : PolicyAtom) ∉ backend :=
  fun h => absurd (length_name_lt_fresh h) (Nat.lt_irrefl _)

theorem admits_none (h : Admits backend none) : everyone ∈ backend ∨ anonymous ∈ backend := by
  obtain ⟨⟨ns, name⟩, mem, matched⟩ := h
  unfold matchesAtom at matched
  split at matched
  next scope =>
    obtain rfl : ns = "scope" := scope
    split at matched
    next isPublic =>
      obtain rfl : name = "public" := isPublic
      exact .inl mem
    · split at matched
      · cases matched
      · split at matched <;> cases matched
  · split at matched
    · cases matched
    · split at matched
      next kind =>
        obtain rfl : ns = "actor" := kind
        obtain rfl : "anonymous" = name := of_decide_eq_true matched
        exact .inr mem
      · cases matched

theorem hasRole_someone (name kind : String) (role org : Option String) :
    hasRole name (some (someone kind role org)) = true ↔ role = some name := by
  show (decide (role = some name) || ([] : List String).contains name) = true ↔ role = some name
  rw [List.contains_nil, Bool.or_false, decide_eq_true_iff]

/-- What admits someone is for everyone, for all who are signed in, or for what they are. -/
theorem admits_someone {kind : String} {role org : Option String}
    (h : Admits backend (some (someone kind role org))) :
    everyone ∈ backend ∨ signedIn ∈ backend ∨ (org ≠ none ∧ ⟨"scope", "same_org"⟩ ∈ backend) ∨
      (∃ r, role = some r ∧ ⟨"role", r⟩ ∈ backend) ∨ ⟨"actor", kind⟩ ∈ backend := by
  obtain ⟨⟨ns, name⟩, mem, matched⟩ := h
  unfold matchesAtom at matched
  split at matched
  next scope =>
    obtain rfl : ns = "scope" := scope
    split at matched
    next isPublic =>
      obtain rfl : name = "public" := isPublic
      exact .inl mem
    · split at matched
      next authenticated =>
        obtain rfl : name = "authenticated" := authenticated
        exact .inr (.inl mem)
      · split at matched
        next sameOrg =>
          obtain rfl : name = "same_org" := sameOrg
          refine .inr (.inr (.inl ⟨?_, mem⟩))
          rintro rfl
          cases matched
        · cases matched
  · split at matched
    next isRole =>
      obtain rfl : ns = "role" := isRole
      have same : role = some name := (hasRole_someone name kind role org).mp matched
      exact .inr (.inr (.inr (.inl ⟨name, same, mem⟩)))
    · split at matched
      next isKind =>
        obtain rfl : ns = "actor" := isKind
        obtain rfl : kind = name := of_decide_eq_true matched
        exact .inr (.inr (.inr (.inr mem)))
      · cases matched

/-- Someone of a kind that no atom names is only admitted for what else they are. -/
theorem admits_stranger {role org : Option String}
    (h : Admits backend (some (someone (fresh backend) role org))) :
    everyone ∈ backend ∨ signedIn ∈ backend ∨ (org ≠ none ∧ ⟨"scope", "same_org"⟩ ∈ backend) ∨
      (∃ r, role = some r ∧ ⟨"role", r⟩ ∈ backend) := by
  rcases admits_someone h with h | h | h | h | h
  · exact .inl h
  · exact .inr (.inl h)
  · exact .inr (.inr (.inl h))
  · exact .inr (.inr (.inr h))
  · exact absurd h fresh_notMem

/-- Whoever is signed in and nothing else is admitted by these two atoms only. -/
theorem admits_nobody_special (h : Admits backend (some (someone (fresh backend) none none))) :
    everyone ∈ backend ∨ signedIn ∈ backend := by
  rcases admits_stranger h with h | h | ⟨org, -⟩ | ⟨r, role, -⟩
  · exact .inl h
  · exact .inr h
  · exact absurd rfl org
  · cases role

theorem covers_of_admits {atom : PolicyAtom}
    (h : ∀ actor, matchesAtom actor atom = true → Admits backend actor) :
    Covers backend atom := by
  obtain ⟨ns, name⟩ := atom
  unfold Covers
  rw [or_iff_not_imp_left]
  intro closed
  by_cases scope : ns = "scope"
  · subst scope
    rw [if_pos rfl]
    by_cases isPublic : name = "public"
    · subst isPublic
      rw [if_pos rfl]
      exact ⟨(admits_nobody_special (h _ rfl)).resolve_left closed,
        (admits_none (h none rfl)).resolve_left closed⟩
    rw [if_neg isPublic]
    by_cases authenticated : name = "authenticated"
    · subst authenticated
      rw [if_pos rfl]
      exact (admits_nobody_special (h _ rfl)).resolve_left closed
    rw [if_neg authenticated]
    by_cases sameOrg : name = "same_org"
    · subst sameOrg
      rw [if_pos rfl]
      have admitted := h (some (someone (fresh backend) none (some "acme"))) rfl
      rcases (admits_stranger admitted).resolve_left closed with general | ⟨-, mem⟩ | ⟨r, role, -⟩
      · exact .inr general
      · exact .inl mem
      · cases role
    · rw [if_neg sameOrg]
      trivial
  rw [if_neg scope]
  by_cases isRole : ns = "role"
  · subst isRole
    rw [if_pos rfl]
    have admitted := h (some (someone (fresh backend) (some name) none))
      (by simp [matchesAtom, hasRole, someone])
    rcases (admits_stranger admitted).resolve_left closed with general | ⟨org, -⟩ | ⟨r, role, mem⟩
    · exact .inr general
    · exact absurd rfl org
    · cases role
      exact .inl mem
  rw [if_neg isRole]
  by_cases isKind : ns = "actor"
  · subst isKind
    rw [if_pos rfl]
    by_cases nobody : name = "anonymous"
    · subst nobody
      exact .inl ((admits_none (h none rfl)).resolve_left closed)
    · have admitted := h (some (someone name none none)) (by simp [matchesAtom, kindOf, someone])
      rcases (admits_someone admitted).resolve_left closed with
        general | ⟨org, -⟩ | ⟨r, role, -⟩ | mem
      · exact .inr ⟨nobody, general⟩
      · exact absurd rfl org
      · cases role
      · exact .inl mem
  · rw [if_neg isKind]
    trivial

theorem covers_iff (backend : List PolicyAtom) (atom : PolicyAtom) : Covers backend atom ↔
    ∀ actor, matchesAtom actor atom = true → Admits backend actor :=
  ⟨fun covers _ h => admits_of_covers covers h, covers_of_admits⟩

end Cover

/-! ### Soundness -/

section Sound

variable (features : List Feature) (m : ExperienceModule) (app : Option AppManifest)
  (route : AppRoute)

/-- If the check is silent about the route, whoever its guard admits is admitted by every
operation that its view calls and that is not public. -/
def Sound : Prop :=
  ∀ ctx, routeCtx m route = some ctx → checkRoute features m app route = [] →
    ∀ actor, Admits (guardOf features app route ctx).atoms actor →
      ∀ backend ∈ backendsOf features ctx, backend.isPublic = false →
        Admits backend.atoms actor

end Sound

/-! ### Hosts and guests -/

def booking : Feature where
  name := "booking"
  defaultPolicy := none
  categories := []
  commands := []
  queries := [⟨"mine", .atom "role.host"⟩]

def dashboard : AppRoute where
  name := "dashboard"
  target := some "booking.view.dashboard"
  surface := none
  audience := none
  guard := some ⟨["@role.host", "@role.guest"]⟩

def bookingApp : ExperienceModule where
  app := none
  routes := [dashboard]
  experiences := [⟨"booking", [⟨"dashboard", some "booking.query.mine", none, [], none⟩]⟩]
  surfaces := [⟨"booking", none, [⟨"web", none, [⟨"dashboard", none, [], none⟩]⟩]⟩]

def guest : Actor := ⟨some "guest", none, none, none, none, none⟩

end Lazuli.Analyzer.RouteGuard
