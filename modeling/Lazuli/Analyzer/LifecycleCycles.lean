import Lazuli.Analyzer.LifecycleTransition
import Lazuli.Analyzer.RouteGuard
import Lazuli.General.Pursuit

/-!
Redirect cycles of lifecycle gates (`checks/lifecycle_gate_helpers/cycles.rs`, with the index and
the parsers next to it).

A view that needs a state of a resource sends whoever is in another state to the view that an arm
of a resume router names. The check starts at every arm that names a state and follows the views
until one comes again. The gates that are emitted (`lifecycle_gate_emit`) go on in more places
than the check: by the wildcard from the first view on, by the router of the app at every view.
-/

namespace Lazuli.Analyzer.GateCycles

open General Ir
open RouteGuard (trimText splitText stripPrefix headText)

/-! ### Declarations -/

structure RequiresLifecycle where
  resource : String
  state : String
  deriving DecidableEq

structure LifecycleGateView where
  feature : String
  name : String
  requires : Option RequiresLifecycle
  onLifecyclePending : Option String
  deriving DecidableEq

structure LifecycleGateResumeArm where
  state : String
  targetView : String
  span : Option SpanRef
  deriving DecidableEq

structure LifecycleGateResume where
  feature : String
  name : String
  arms : List LifecycleGateResumeArm
  span : Option SpanRef
  deriving DecidableEq

structure LifecycleGateInput where
  views : List LifecycleGateView
  resumes : List LifecycleGateResume
  appOnLifecyclePending : Option String
  deriving DecidableEq

/-- A resource with the states of its lifecycle; none without a lifecycle. -/
structure Resource where
  name : String
  states : List String
  deriving DecidableEq

structure Feature where
  name : String
  uses : List String
  resources : List Resource
  deriving DecidableEq

inductive LifecycleGateOrigin where
  | app
  | lzx
  deriving DecidableEq

structure LifecycleGateDiagnostic extends Diagnostic where
  origin : LifecycleGateOrigin
  deriving DecidableEq

/-! ### Names -/

/-- A view by its feature and its name. -/
abbrev Place := String × String

def LifecycleGateView.place (view : LifecycleGateView) : Place := (view.feature, view.name)

def placeText (place : Place) : String := place.1 ++ "." ++ place.2

/-- `trim_start_matches` of a text, as often as it is there at most `n` times. -/
def dropLeads (lead : List Char) : Nat → List Char → List Char
  | 0, s => s
  | n + 1, s =>
      match s.dropPrefix? lead with
      | some rest => dropLeads lead n rest
      | none => s

def trimStartMatches (lead s : String) : String :=
  String.ofList (dropLeads lead.toList s.toList.length s.toList)

def parseResumeRef (defaultFeature text : String) : Option (String × String) :=
  let raw := String.ofList ((trimStartMatches "@resume" (trimText text)).toList.dropWhile
    fun c => c = '.' || c = ' ')
  match splitText '.' raw with
  | [name] => if name ≠ "" then some (defaultFeature, name) else none
  | [feature, name] => some (feature, name)
  | _ => none

def viewText (text : String) : String := (stripPrefix "view " (trimText text)).getD (trimText text)

def parseViewRef (defaultFeature text : String) : Place :=
  let raw := viewText text
  match splitText '.' raw with
  | [feature, "view", name] => (feature, name)
  | [name] => (defaultFeature, name)
  | _ => (defaultFeature, raw)

/-! ### The index -/

/-- Of a feature what the search for its resources reads. A stack gives its last element first. -/
def Feature.outline (feature : Feature) : Ir.Feature :=
  { name := feature.name, uses := feature.uses.reverse }

section Index

variable (features : List Feature) (input : LifecycleGateInput)

/-- The resource that a feature means by a name, with its owner. -/
def resourceOf (feature name : String) : Option (String × Resource) :=
  (reachable (features.map Feature.outline) feature).findSome? fun owner =>
    lastWhere (fun e => e.1 = owner.name ∧ e.2.name = name)
      (features.flatMap fun f => f.resources.map fun r => (f.name, r))

def validRequires (feature : String) (req : RequiresLifecycle) : Bool :=
  match resourceOf features feature req.resource with
  | some (_, resource) => req.state ∈ resource.states
  | none => false

def viewAt (place : Place) : Option LifecycleGateView :=
  lastWhere (fun view => view.place = place) input.views

def resumeAt (feature resumeRef : String) : Option LifecycleGateResume :=
  (parseResumeRef feature resumeRef).bind fun key =>
    lastWhere (fun resume => (resume.feature, resume.name) = key) input.resumes

/-! ### The search -/

/-- Where the search goes on from a view: its own router, its first arm for the state or else its
first wildcard. -/
def searchStep (resource state : String) (place : Place) : Option Place := do
  let target ← viewAt input place
  let req ← target.requires
  if ¬ validRequires features target.feature req then none
  else if req.resource ≠ resource ∨ req.state = state then none
  else
    let resumeRef ← target.onLifecyclePending
    let resume ← resumeAt input target.feature resumeRef
    let next ← (resume.arms.find? (·.state = state)).or (resume.arms.find? (·.state = "*"))
    some (parseViewRef target.feature next.targetView)

/-- An arm that the search starts with. -/
structure Start where
  view : LifecycleGateView
  req : RequiresLifecycle
  resume : LifecycleGateResume
  arm : LifecycleGateResumeArm
  deriving DecidableEq

/-- The arms of the view's router that name another state. -/
def viewStarts (view : LifecycleGateView) : List Start :=
  match view.requires with
  | none => []
  | some req =>
      if ¬ validRequires features view.feature req then []
      else
        match (view.onLifecyclePending.or input.appOnLifecyclePending).bind
            (resumeAt input view.feature) with
        | none => []
        | some resume =>
            (resume.arms.filter fun arm =>
              arm.state ∉ ["*", "none"] ∧ arm.state ≠ req.state).map (Start.mk view req resume)

/-- `walk_cycle`, with fuel. -/
def walkCycle (fuel : Nat) (start : Start) : Option (Bool × List String) :=
  pursue placeText (searchStep features input start.req.resource start.arm.state) fuel
    [placeText start.view.place] (parseViewRef start.view.feature start.arm.targetView)

def cycleKey (start : Start) (path : List String) : String :=
  start.req.resource ++ ":" ++ start.arm.state ++ ":" ++ (path.getLast?.getD "")

def redirectCycle (start : Start) (path : List String) : LifecycleGateDiagnostic where
  code := "LIFECYCLE-GATE-006"
  severity := .error
  origin := .lzx
  span := start.arm.span.or start.resume.span
  message := "resume `" ++ start.resume.name ++ "` arm `" ++ start.arm.state ++
    "` creates a redirect cycle: " ++ " -> ".intercalate path ++ "."

/-- A cycle is reported once for its resource, its state and its last view. -/
def checkStarts (fuel : Nat) : List String → List Start → Option (List LifecycleGateDiagnostic)
  | _, [] => some []
  | seen, start :: rest => do
      let (back, path) ← walkCycle features input fuel start
      let key := cycleKey start path
      if back ∧ key ∉ seen then
        let out ← checkStarts fuel (key :: seen) rest
        some (redirectCycle start path :: out)
      else checkStarts fuel seen rest

def checkCycles (fuel : Nat) : Option (List LifecycleGateDiagnostic) :=
  checkStarts features input fuel [] (input.views.flatMap (viewStarts features input))

/-! ### The emitted gates -/

/-- `split_once` at a text. -/
def splitMark (mark : List Char) : List Char → Option (List Char × List Char)
  | [] => none
  | c :: rest =>
      match (c :: rest).dropPrefix? mark with
      | some behind => some ([], behind)
      | none => (splitMark mark rest).map fun parts => (c :: parts.1, parts.2)

def parseToView (raw : String) : Option Place :=
  (splitMark ".view.".toList (trimText (headText '(' raw)).toList).map fun parts =>
    (String.ofList parts.1, trimText (headText '.' (String.ofList parts.2)))

/-- Where an arm sends (`arm_target_path`), before the view is turned into its path. -/
def armTarget (feature text : String) : Place :=
  let view := trimStartMatches "@view." (viewText text)
  (parseToView view).getD (feature, (splitText '.' view).getLastD view)

/-- The arm for the state, or else the wildcard. The last of a name stands. -/
def armFor (resume : LifecycleGateResume) (state : String) : Option LifecycleGateResumeArm :=
  (lastWhere (·.state = state) resume.arms).or (lastWhere (·.state = "*") resume.arms)

/-- Where a view sends whoever has the resource in this state. -/
def redirect (owner resource state : String) (place : Place) : Option Place := do
  let view ← viewAt input place
  let req ← view.requires
  let (holder, _) ← resourceOf features view.feature req.resource
  if holder ≠ owner ∨ req.resource ≠ resource ∨ req.state = state ∨ state = "none" then none
  else
    let resumeRef ← view.onLifecyclePending.or input.appOnLifecyclePending
    let resume ← resumeAt input view.feature resumeRef
    let arm ← armFor resume state
    some (armTarget resume.feature arm.targetView)

/-- In some other state of the resource that a view needs, the gates send from one view to the
next until one comes again. -/
def Loops : Prop :=
  ∃ place view req owner resource,
    viewAt input place = some view ∧ view.requires = some req ∧
    resourceOf features view.feature req.resource = some (owner, resource) ∧
    req.state ∈ resource.states ∧
    ∃ state ∈ resource.states, state ≠ req.state ∧
      Revisits (redirect features input owner req.resource state) place

/-! ### Chains that the search reads -/

def starts : List Start := input.views.flatMap (viewStarts features input)

/-- The chain of an arm comes back, as the search reads it. -/
def Closing (start : Start) : Prop :=
  Closes placeText
    (fun a b => searchStep features input start.req.resource start.arm.state a = some b)
    [placeText start.view.place] (parseViewRef start.view.feature start.arm.targetView)

/-- Where the search and the gates go on alike. -/
def agreed (owner resource state : String) (place : Place) : Option Place :=
  let next := redirect features input owner resource state place
  if searchStep features input resource state place = next then next else none

/-- The gates go the way of the chain: the arm is the one they have for a state of the resource,
and they leave every view behind it as the search does, until one comes again. -/
def Followed (start : Start) : Prop :=
  ∃ owner resource,
    viewAt input start.view.place = some start.view ∧
    resourceOf features start.view.feature start.req.resource = some (owner, resource) ∧
    start.arm.state ∈ resource.states ∧
    redirect features input owner start.req.resource start.arm.state start.view.place =
      some (parseViewRef start.view.feature start.arm.targetView) ∧
    Closes id
      (fun a b => agreed features input owner start.req.resource start.arm.state a = some b)
      [start.view.place] (parseViewRef start.view.feature start.arm.targetView)

/-- The chain comes back, and the gates go another way. -/
def Stray (start : Start) : Prop := Closing features input start ∧ ¬ Followed features input start

end Index

section Search

variable {features : List Feature} {input : LifecycleGateInput} {fuel : Nat} {start : Start}
  {resource state owner : String} {place next : Place}

theorem searchStep_known (way : searchStep features input resource state place = some next) :
    ∃ view ∈ input.views, view.place = place := by
  obtain ⟨view, found, -⟩ := Option.bind_eq_some_iff.mp way
  obtain ⟨mem, same⟩ := lastWhere_some found
  exact ⟨view, mem, of_decide_eq_true same⟩

theorem walkCycle_isSome (enough : input.views.length < fuel) (start : Start) :
    (walkCycle features input fuel start).isSome = true := by
  refine pursue_isSome (input.views.map fun view => placeText view.place)
    (fun a b way => .inl ?_) (by rwa [List.length_map])
  obtain ⟨view, mem, rfl⟩ := searchStep_known way
  exact List.mem_map_of_mem mem

/-- Something is reported when a chain comes back that was not reported before. -/
theorem checkStarts_spec (walks : ∀ start, (walkCycle features input fuel start).isSome = true)
    (list : List Start) (seen : List String) :
    ∃ out, checkStarts features input fuel seen list = some out ∧
      ((∃ d ∈ out, d.code = "LIFECYCLE-GATE-006") ↔
        ∃ start ∈ list, ∃ path, walkCycle features input fuel start = some (true, path) ∧
          cycleKey start path ∉ seen) := by
  induction list generalizing seen with
  | nil => exact ⟨[], rfl, by simp⟩
  | cons start rest ih =>
      obtain ⟨⟨back, path⟩, ran⟩ := Option.isSome_iff_exists.mp (walks start)
      rw [checkStarts, ran]
      by_cases fresh : back = true ∧ cycleKey start path ∉ seen
      · obtain ⟨out, rest, -⟩ := ih (cycleKey start path :: seen)
        refine ⟨redirectCycle start path :: out, by simp [fresh, rest], ?_⟩
        obtain ⟨rfl, fresh⟩ := fresh
        exact iff_of_true ⟨_, List.mem_cons_self, rfl⟩ ⟨start, List.mem_cons_self, path, ran, fresh⟩
      · obtain ⟨out, rest, reported⟩ := ih seen
        refine ⟨out, by simpa [fresh] using rest, reported.trans ?_⟩
        simp only [List.mem_cons, exists_eq_or_imp]
        refine (or_iff_right ?_).symm
        rintro ⟨path', again, fresh'⟩
        cases ran.symm.trans again
        exact fresh ⟨rfl, fresh'⟩

theorem checkCycles_spec (enough : input.views.length < fuel) :
    ∃ out, checkCycles features input fuel = some out ∧
      ((∃ d ∈ out, d.code = "LIFECYCLE-GATE-006") ↔
        ∃ start ∈ starts features input, Closing features input start) := by
  obtain ⟨out, ran, reported⟩ :=
    checkStarts_spec (walkCycle_isSome enough) (starts features input) []
  refine ⟨out, ran, reported.trans (exists_congr fun start => and_congr_right fun _ => ?_)⟩
  obtain ⟨⟨back, path⟩, walked⟩ := Option.isSome_iff_exists.mp (walkCycle_isSome enough start)
  have closes : back = true ↔ Closing features input start := pursue_iff walked
  rw [← closes, walked]
  simp

/-! ### Chains that the gates follow -/

theorem mem_viewStarts {view : LifecycleGateView} (mem : start ∈ viewStarts features input view) :
    start.view.requires = some start.req ∧
      validRequires features start.view.feature start.req = true ∧
      start.arm.state ≠ start.req.state := by
  unfold viewStarts at mem
  split at mem
  · cases mem
  · rename_i req requires
    split at mem
    · cases mem
    · rename_i valid
      split at mem
      · cases mem
      · obtain ⟨arm, listed, rfl⟩ := List.mem_map.mp mem
        have named := of_decide_eq_true (List.mem_filter.mp listed).2
        exact ⟨requires, not_not.mp valid, named.2⟩

theorem agreed_eq_some (h : agreed features input owner resource state place = some next) :
    searchStep features input resource state place = some next ∧
      redirect features input owner resource state place = some next := by
  dsimp only [agreed] at h
  split at h
  · rename_i same
    exact ⟨same.trans h, h⟩
  · cases h

theorem Followed.closing (followed : Followed features input start) :
    Closing features input start := by
  obtain ⟨owner, resource, -, -, -, -, closes⟩ := followed
  exact closes.map placeText (fun _ => rfl) fun _ _ way => (agreed_eq_some way).1

theorem Followed.loops (followed : Followed features input start)
    (mem : start ∈ starts features input) : Loops features input := by
  obtain ⟨owner, resource, found, held, declared, way, closes⟩ := followed
  obtain ⟨view, -, mem⟩ := List.mem_flatMap.mp mem
  obtain ⟨requires, valid, other⟩ := mem_viewStarts mem
  refine ⟨_, _, _, owner, resource, found, requires, held, ?_, _, declared, other, ?_⟩
  · simpa [validRequires, held] using valid
  · refine closes_iff_revisits.mp (.onward way ?_)
    exact closes.map id (fun _ => rfl) fun _ _ way => (agreed_eq_some way).2

theorem redirect_of {view : LifecycleGateView} {req : RequiresLifecycle} {gated : Resource}
    {resumeRef : String} {resume : LifecycleGateResume} {arm : LifecycleGateResumeArm}
    (found : viewAt input place = some view) (requires : view.requires = some req)
    (held : resourceOf features view.feature req.resource = some (owner, gated))
    (unmet : req.state ≠ state) (present : state ≠ "none")
    (pending : view.onLifecyclePending.or input.appOnLifecyclePending = some resumeRef)
    (router : resumeAt input view.feature resumeRef = some resume)
    (leaves : armFor resume state = some arm) :
    redirect features input owner req.resource state place =
      some (armTarget resume.feature arm.targetView) := by
  simp [redirect, found, requires, held, unmet, present, pending, router, leaves]

/-- An arm that the gates have for a declared state is followed round a loop when the search
reads every view on the way as they do. -/
theorem Followed.of_revisits {gated : Resource}
    (found : viewAt input start.view.place = some start.view)
    (held : resourceOf features start.view.feature start.req.resource = some (owner, gated))
    (declared : start.arm.state ∈ gated.states)
    (way : redirect features input owner start.req.resource start.arm.state start.view.place =
      some (parseViewRef start.view.feature start.arm.targetView))
    (again : Revisits (redirect features input owner start.req.resource start.arm.state)
      start.view.place)
    (alike : ∀ place, place ≠ start.view.place →
      searchStep features input start.req.resource start.arm.state place =
        redirect features input owner start.req.resource start.arm.state place) :
    Followed features input start := by
  refine ⟨owner, gated, found, held, declared, way, ?_⟩
  cases again.closes [] with
  | back passed => cases passed
  | onward first rest =>
      obtain rfl := Option.some.inj (way.symm.trans first)
      refine rest.apart List.mem_cons_self fun a b apart step => ?_
      simp only [agreed, alike a apart, if_true]
      exact step

end Search

/-! ### A wildcard that leads to its own view -/

def host : Feature where
  name := "host"
  uses := []
  resources := [{ name := "Host", states := ["draft", "active"] }]

def dashboard : LifecycleGateView where
  feature := "host"
  name := "dashboard"
  requires := some { resource := "Host", state := "active" }
  onLifecyclePending := some "@resume.onboarding"

def backHome (state : String) : LifecycleGateResumeArm := ⟨state, "view dashboard", none⟩

def onboarding (state : String) : LifecycleGateResume :=
  ⟨"host", "onboarding", [backHome state], none⟩

/-- The view, and a router of it whose one arm leads back. -/
def looping (state : String) : LifecycleGateInput where
  views := [dashboard]
  resumes := [onboarding state]
  appOnLifecyclePending := none

theorem resourceOf_host :
    resourceOf [host] "host" "Host" = some ("host", ⟨"Host", ["draft", "active"]⟩) := by
  have reached : reachable ([host].map Feature.outline) "host" = [host.outline] := by
    rw [reachable, reachableFrom_fresh host.outline List.not_mem_nil rfl]
    exact congrArg _ (reachableFrom_nil _ _)
  rw [resourceOf, reached]
  rfl

theorem redirect_looping :
    redirect [host] (looping "*") "host" "Host" "draft" dashboard.place =
      some dashboard.place := by
  have home : armTarget "host" "view dashboard" = dashboard.place := by rfl
  have router : resumeAt (looping "*") "host" "@resume.onboarding" = some (onboarding "*") := by rfl
  have leaves : armFor (onboarding "*") "draft" = some (backHome "*") := by rfl
  have found : viewAt (looping "*") dashboard.place = some dashboard := rfl
  have way := redirect_of found rfl resourceOf_host (by decide) (by decide) rfl router leaves
  exact way.trans (congrArg some home)

theorem loops_looping : Loops [host] (looping "*") :=
  ⟨dashboard.place, dashboard, _, "host", _, rfl, rfl, resourceOf_host, by decide, "draft",
    by decide, by decide, 0, 1, dashboard.place, Nat.one_pos, rfl,
    after_succ redirect_looping rfl⟩

end Lazuli.Analyzer.GateCycles
