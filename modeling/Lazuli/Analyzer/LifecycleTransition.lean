import Mathlib.Data.List.Dedup
import Lazuli.Codegen.Schema
import Lazuli.General.Lookup

/-!
The checks of command triggers (`checks/lifecycle_transition/mod.rs`).

A trigger names a transition in the lifecycle of the resource that the command updates. The
resource is looked up by its owner when the name is qualified, and else along the features that
the command's feature uses. Maps are filled in the order of the declarations, so that the last
of a name stands.
-/

namespace Lazuli.Analyzer

open General Ir

inductive Severity where
  | error
  | warning
  deriving DecidableEq

structure Diagnostic where
  code : String
  severity : Severity
  message : String
  span : Option SpanRef
  deriving DecidableEq

/-! ### The index -/

def featureNamed (features : List Feature) (name : String) : Option Feature :=
  lastWhere (fun f => f.name = name) features

def resourceNamed (features : List Feature) (owner name : String) : Option Resource :=
  (lastWhere (fun e => e.1.name = owner ∧ e.2.name = name)
    (features.flatMap fun f => f.resources.map fun r => (f, r))).map Prod.snd

/-- The features that were not looked at yet. -/
def unseen (features : List Feature) (seen : List String) : List Feature :=
  features.filter fun f => f.name ∉ seen

theorem unseen_length_le (features : List Feature) (seen : List String) (name : String) :
    (unseen features (name :: seen)).length ≤ (unseen features seen).length := by
  apply List.Sublist.length_le
  apply List.monotone_filter_right
  intro f
  simp only [List.mem_cons, not_or, Bool.decide_and, Bool.and_eq_true]
  exact And.right

theorem unseen_length_lt {features : List Feature} {seen : List String} {name : String}
    {f : Feature} (fresh : name ∉ seen) (h : featureNamed features name = some f) :
    (unseen features (name :: seen)).length < (unseen features seen).length := by
  have known : f ∈ features := (lastWhere_some h).1
  have named : f.name = name := of_decide_eq_true (lastWhere_some h).2
  have fewer : unseen features (name :: seen) = (unseen features seen).filter (·.name ≠ name) := by
    unfold unseen
    rw [List.filter_filter]
    apply List.filter_congr
    intro g _
    simp [not_or]
  rw [fewer]
  apply List.length_filter_lt_length_iff_exists.mpr
  exact ⟨f, by simp [unseen, known, named, fresh], by simp [named]⟩

/-- Depth first along `uses`, the first use of a feature before the others. -/
def reachableFrom (features : List Feature) : List String → List String → List Feature
  | [], _ => []
  | name :: stack, seen =>
      if name ∈ seen then reachableFrom features stack seen
      else
        match _h : featureNamed features name with
        | none => reachableFrom features stack (name :: seen)
        | some feature => feature :: reachableFrom features (feature.uses ++ stack) (name :: seen)
termination_by stack seen => ((unseen features seen).length, stack.length)
decreasing_by
  · exact .right _ (Nat.lt_succ_self _)
  · rcases Nat.lt_or_eq_of_le (unseen_length_le features seen name) with fewer | same
    · exact .left _ _ fewer
    · rw [same]
      exact .right _ (Nat.lt_succ_self _)
  · exact .left _ _ (unseen_length_lt ‹_› _h)

@[simp] theorem reachableFrom_nil (features : List Feature) (seen : List String) :
    reachableFrom features [] seen = [] := by
  rw [reachableFrom]

theorem reachableFrom_fresh {features : List Feature} {name : String} {stack seen : List String}
    (feature : Feature) (fresh : name ∉ seen) (h : featureNamed features name = some feature) :
    reachableFrom features (name :: stack) seen =
      feature :: reachableFrom features (feature.uses ++ stack) (name :: seen) := by
  rw [reachableFrom, if_neg fresh]
  split
  next none =>
    rw [h] at none
    cases none
  next found =>
    obtain rfl := Option.some.inj (h.symm.trans found)
    rfl

def reachable (features : List Feature) (feature : String) : List Feature :=
  reachableFrom features [feature] []

/-- The resource that a feature means by a name. -/
def resolveResource (features : List Feature) (feature : String) (resource : QualifiedName) :
    Option Resource :=
  match resource.feature with
  | some owner => resourceNamed features owner resource.name
  | none => (reachable features feature).findSome? fun f =>
      resourceNamed features f.name resource.name

/-- The transition that the check reads under a name. -/
def transitionNamed (lifecycle : Lifecycle) (name : String) : Option LifecycleTransition :=
  lastWhere (fun t => t.name = name) lifecycle.transitions

/-! ### Commands that share a transition -/

/-- The elements of a `BTreeSet`, in its order. -/
def sortedSet (names : List String) : List String := names.dedup.mergeSort (· ≤ ·)

def overlap (feature : Feature) (left right : Command) : Option Diagnostic :=
  let shared := sortedSet (right.triggers.filter (· ∈ left.triggers))
  if shared = [] then none
  else some
    { code := "LIFECYCLE-TRANSITION-003"
      severity := .warning
      span := right.span.or left.span
      message := "commands `" ++ left.name ++ "` and `" ++ right.name ++ "` in feature `" ++
        feature.name ++ "` both trigger lifecycle transition(s): " ++ ", ".intercalate shared ++
        ". Only one command should own each lifecycle transition." }

/-- Every command with the ones declared after it. -/
def overlapsFrom (feature : Feature) : List Command → List Diagnostic
  | [] => []
  | left :: rest => rest.filterMap (overlap feature left) ++ overlapsFrom feature rest

def checkOverlaps (features : List Feature) : List Diagnostic :=
  features.flatMap fun f => overlapsFrom f f.commands

/-! ### One command -/

def listOrNone (values : List String) : String :=
  if values = [] then "<none>" else ", ".intercalate values

def error (command : Command) (code message : String) : Diagnostic :=
  { code := code, severity := .error, message := message, span := command.span }

def assignsLifecycleField (update : UpdateEffect) (lifecycle : Option Lifecycle) : Bool :=
  update.assignments.any fun a =>
    a.field = "lifecycle_state" ∨ lifecycle.any fun l => a.field = l.discriminatorField

def noUpdates (command : Command) : Diagnostic :=
  error command "LIFECYCLE-TRANSITION-004"
    ("command `" ++ command.name ++
      "` declares `triggers` but has no `updates` block to advance.")

def assignsDirectly (command : Command) : Diagnostic :=
  error command "LIFECYCLE-TRANSITION-005"
    ("command `" ++ command.name ++ "` both declares `triggers` and assigns the lifecycle " ++
      "discriminator directly; runtime owns lifecycle advancement.")

def noLifecycle (command : Command) (resource : Resource) : Diagnostic :=
  error command "LIFECYCLE-TRANSITION-002"
    ("command `" ++ command.name ++ "` declares `triggers`, but updates resource `" ++
      resource.name ++ "` has no lifecycle block.")

def unknownTrigger (command : Command) (resource : Resource) (lifecycle : Lifecycle)
    (trigger : String) : Diagnostic :=
  let declared := sortedSet (lifecycle.transitions.map (·.name))
  error command "LIFECYCLE-TRANSITION-001"
    ("command `" ++ command.name ++ "` triggers `" ++ trigger ++ "`, but resource `" ++
      resource.name ++ "` declares no lifecycle transition with that name. " ++
      "Declared transitions: " ++ listOrNone (declared.map fun n => "`" ++ n ++ "`") ++ ".")

/-- One error for each unknown name. -/
def checkKnown (command : Command) (resource : Resource) (lifecycle : Lifecycle) :
    List Diagnostic :=
  ((command.triggers.filter fun t => transitionNamed lifecycle t = none).eraseDups).map
    (unknownTrigger command resource lifecycle)

def gap (command : Command) (left right : LifecycleTransition) : Diagnostic :=
  error command "LIFECYCLE-TRANSITION-006"
    ("command `" ++ command.name ++ "` triggers a non-contiguous lifecycle chain: `" ++
      left.name ++ "` ends at `" ++ left.toState ++ "` but `" ++ right.name ++ "` starts from " ++
      listOrNone right.froms ++ ".")

def checkPair (command : Command) (lifecycle : Lifecycle) (pair : String × String) :
    Option Diagnostic :=
  match transitionNamed lifecycle pair.1, transitionNamed lifecycle pair.2 with
  | some left, some right =>
      if left.toState ∈ right.froms then none else some (gap command left right)
  | _, _ => none

/-- A resource that is not found is no matter of this check. -/
def checkCommand (features : List Feature) (owner : Feature) (command : Command) :
    List Diagnostic :=
  if command.triggers = [] then []
  else
    match command.effect with
    | .updates update =>
        let resource := resolveResource features owner.name update.resource
        (if assignsLifecycleField update (resource.bind (·.lifecycle)) then
          [assignsDirectly command] else []) ++
          match resource with
          | none => []
          | some resource =>
              match resource.lifecycle with
              | none => [noLifecycle command resource]
              | some lifecycle =>
                  checkKnown command resource lifecycle ++
                    (command.triggers.zip command.triggers.tail).filterMap
                      (checkPair command lifecycle)
    | _ => [noUpdates command]

def check (features : List Feature) : List Diagnostic :=
  checkOverlaps features ++
    features.flatMap fun f => f.commands.flatMap (checkCommand features f)

/-! ### What a passed check gives -/

/-- The transitions that the triggers of a command name, in order. -/
def Declares (features : List Feature) (feature : Feature) (command : Command)
    (declared : List LifecycleTransition) : Prop :=
  ∃ update resource lifecycle,
    command.effect = .updates update ∧
    resolveResource features feature.name update.resource = some resource ∧
    resource.lifecycle = some lifecycle ∧
    command.triggers.Forall₂ (fun t d => transitionNamed lifecycle t = some d) declared

/-- Everything found in one command is an error. -/
theorem severity_checkCommand {features : List Feature} {owner : Feature} {command : Command}
    {d : Diagnostic} (h : d ∈ checkCommand features owner command) : d.severity = .error := by
  unfold checkCommand at h
  split at h
  · cases h
  · split at h
    · rcases List.mem_append.mp h with direct | other
      · split at direct
        · rw [List.mem_singleton.mp direct]
          rfl
        · cases direct
      · split at other
        · cases other
        · split at other
          · rw [List.mem_singleton.mp other]
            rfl
          · rcases List.mem_append.mp other with unknown | pair
            · obtain ⟨trigger, -, rfl⟩ := List.mem_map.mp unknown
              rfl
            · obtain ⟨⟨l, r⟩, -, found⟩ := List.mem_filterMap.mp pair
              simp only [checkPair] at found
              split at found
              · split at found
                · cases found
                · rw [← Option.some.inj found]
                  rfl
              · cases found
    · rw [List.mem_singleton.mp h]
      rfl

theorem check_eq_nil {features : List Feature} (alone : checkOverlaps features = [])
    (passes : ∀ f ∈ features, ∀ c ∈ f.commands, checkCommand features f c = []) :
    check features = [] := by
  unfold check
  rw [alone, List.nil_append, List.flatMap_eq_nil_iff]
  intro f hf
  rw [List.flatMap_eq_nil_iff]
  exact passes f hf

theorem checkCommand_eq_nil {features : List Feature} {owner : Feature} {command : Command}
    (noErrors : ∀ d ∈ check features, d.severity ≠ .error) (hf : owner ∈ features)
    (hc : command ∈ owner.commands) : checkCommand features owner command = [] := by
  apply List.eq_nil_iff_forall_not_mem.mpr
  intro d found
  apply noErrors d
  · apply List.mem_append_right
    exact List.mem_flatMap.mpr ⟨owner, hf, List.mem_flatMap.mpr ⟨command, hc, found⟩⟩
  · exact severity_checkCommand found

theorem known_of_checkKnown {command : Command} {resource : Resource} {lifecycle : Lifecycle}
    (h : checkKnown command resource lifecycle = []) :
    ∀ t ∈ command.triggers, (transitionNamed lifecycle t).isSome := by
  intro t ht
  rw [Option.isSome_iff_ne_none]
  intro unknown
  have listed : t ∈ (command.triggers.filter
      fun t => transitionNamed lifecycle t = none).eraseDups := by
    rw [List.mem_eraseDups, List.mem_filter]
    exact ⟨ht, decide_eq_true unknown⟩
  have mem := List.mem_map_of_mem (f := unknownTrigger command resource lifecycle) listed
  rw [show List.map _ _ = [] from h] at mem
  cases mem

theorem chain_of_pairs {command : Command} {lifecycle : Lifecycle} {triggers : List String}
    {declared : List LifecycleTransition}
    (h : triggers.Forall₂ (fun t d => transitionNamed lifecycle t = some d) declared)
    (pairs : (triggers.zip triggers.tail).filterMap (checkPair command lifecycle) = []) :
    declared.IsChain fun l r => l.toState ∈ r.froms := by
  induction h with
  | nil => exact .nil
  | cons left rest ih =>
      cases rest with
      | nil => exact .singleton _
      | cons right rest =>
          rw [List.filterMap_eq_nil_iff] at pairs
          have here := pairs _ (.head _)
          simp only [checkPair, left, right] at here
          apply List.isChain_cons_cons.mpr
          constructor
          · by_contra apart
            rw [if_neg apart] at here
            cases here
          · apply ih
            rw [List.filterMap_eq_nil_iff]
            exact fun pair hpair => pairs pair (.tail _ hpair)

/-- Without errors the triggers name transitions of the updated resource, each ending where the
next one starts: if that resource is found at all. -/
theorem declares_of_noErrors {features : List Feature} {owner : Feature} {command : Command}
    (noErrors : ∀ d ∈ check features, d.severity ≠ .error) (hf : owner ∈ features)
    (hc : command ∈ owner.commands) (nonempty : command.triggers ≠ []) :
    ∃ update, command.effect = .updates update ∧
      ∀ resource, resolveResource features owner.name update.resource = some resource →
        ∃ declared, Declares features owner command declared ∧
          declared.IsChain fun l r => l.toState ∈ r.froms := by
  have passed := checkCommand_eq_nil noErrors hf hc
  unfold checkCommand at passed
  rw [if_neg nonempty] at passed
  split at passed
  next update heffect =>
    refine ⟨update, heffect, ?_⟩
    intro resource hresource
    have found := (List.append_eq_nil_iff.mp passed).2
    simp only [hresource] at found
    cases hlifecycle : resource.lifecycle with
    | none =>
        rw [hlifecycle] at found
        cases found
    | some lifecycle =>
        rw [hlifecycle] at found
        obtain ⟨known, pairs⟩ := List.append_eq_nil_iff.mp found
        have each := forall₂_filterMap (known_of_checkKnown known)
        exact ⟨_, ⟨update, resource, lifecycle, heffect, hresource, hlifecycle, each⟩,
          chain_of_pairs each pairs⟩
  · cases passed

end Lazuli.Analyzer
