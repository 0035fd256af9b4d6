import Lazuli.Analyzer.LifecycleTransition
import Lazuli.General.Loop
import Lazuli.Runtime.Lifecycle

/-!
The `Transitions` of a generated command (`emitter/command/lifecycle.rs`).

The emitter looks the resource up by its bare name in the command's own feature, and takes the
first transition of a name. The check looks along used features and takes the last. What the
check accepted is enforced exactly when both read the same transitions.
-/

namespace Lazuli.Codegen

open General Ir Analyzer

/-! ### The emitter -/

structure TransitionAdvanceLiteral where
  froms : List String
  toState : String
  deriving DecidableEq

/-- An empty from-set is written as the empty state. -/
def advanceLiteral (t : LifecycleTransition) : TransitionAdvanceLiteral where
  froms := if t.froms = [] then [""] else t.froms
  toState := t.toState

/-- The first resource of the feature that has the name. -/
def localLifecycle (feature : Feature) (name : String) : Option Lifecycle :=
  (feature.resources.find? fun r => r.name = name).bind (·.lifecycle)

/-- Triggers without a transition are left out. -/
def transitionAdvancesForTriggers (feature : Feature) (effect : CommandEffect)
    (triggers : List String) : List TransitionAdvanceLiteral :=
  if triggers = [] then []
  else
    match effect with
    | .updates update =>
        match localLifecycle feature update.resource.name with
        | none => []
        | some lifecycle =>
            triggers.filterMap fun trigger =>
              (lifecycle.transitions.find? fun t => t.name = trigger).map advanceLiteral
    | _ => []

def TransitionAdvanceLiteral.emit (l : TransitionAdvanceLiteral) : Runtime.TransitionAdvance where
  fromState := l.froms.headD ""
  fromAny := l.froms
  toState := l.toState

def emitTransitionAdvances (literals : List TransitionAdvanceLiteral) :
    List Runtime.TransitionAdvance :=
  literals.map TransitionAdvanceLiteral.emit

/-- The `Transitions` of the command. -/
def commandTransitions (feature : Feature) (command : Command) : List Runtime.TransitionAdvance :=
  emitTransitionAdvances
    (transitionAdvancesForTriggers feature command.effect command.triggers)

/-! ### Transitions as jumps -/

def advanceJump (t : Runtime.TransitionAdvance) : Jump String := ⟨t.allowsFrom, t.toState⟩

def declaredJump (t : LifecycleTransition) : Jump String := ⟨fun s => s ∈ t.froms, t.toState⟩

/-- What the emitter writes for `e` is the transition `d`. -/
def Agrees (d e : LifecycleTransition) : Prop :=
  (∀ s, s ∈ d.froms ↔ s ∈ (advanceLiteral e).froms) ∧ d.toState = e.toState

theorem allowsFrom_emit (e : LifecycleTransition) (s : String) :
    (advanceLiteral e).emit.allowsFrom s = decide (s ∈ (advanceLiteral e).froms) := by
  have nonempty : (advanceLiteral e).emit.fromAny ≠ [] := by
    simp only [TransitionAdvanceLiteral.emit, advanceLiteral]
    split
    · exact List.cons_ne_nil _ _
    · assumption
  unfold Runtime.TransitionAdvance.allowsFrom Runtime.TransitionAdvance.froms
  rw [if_pos nonempty, Bool.eq_iff_iff]
  simp [TransitionAdvanceLiteral.emit]

theorem advanceJump_eq_iff (d e : LifecycleTransition) :
    advanceJump (advanceLiteral e).emit = declaredJump d ↔ Agrees d e := by
  unfold advanceJump declaredJump Agrees
  rw [Jump.mk.injEq, funext_iff]
  apply and_congr
  · apply forall_congr'
    intro s
    rw [allowsFrom_emit, decide_eq_decide]
    exact Iff.comm
  · exact eq_comm

/-! ### Enforced triggers -/

section Enforced

variable (features : List Feature) (feature : Feature) (command : Command)

/-- One transition for each trigger, in order, each ending where the next one starts: guarding
the first and writing the last does what all of them do. -/
def Enforced : Prop :=
  ∃ declared, Declares features feature command declared ∧
    (commandTransitions feature command).map advanceJump = declared.map declaredJump ∧
    Jump.Contiguous ((commandTransitions feature command).map advanceJump) ∧
    ∀ state, Jump.skip ((commandTransitions feature command).map advanceJump) state =
      Jump.fireAll (declared.map declaredJump) state

/-- The check finds the resource, the feature itself has a resource of that name with a
lifecycle, and under each trigger the last transition of the one is written as the first of
the other. -/
def Matched : Prop :=
  ∃ update resource lifecycle emitted,
    command.effect = .updates update ∧
    resolveResource features feature.name update.resource = some resource ∧
    resource.lifecycle = some lifecycle ∧
    localLifecycle feature update.resource.name = some emitted ∧
    ∀ trigger ∈ command.triggers, ∀ d, transitionNamed lifecycle trigger = some d →
      ∃ e, (emitted.transitions.find? fun t => t.name = trigger) = some e ∧ Agrees d e

end Enforced

/-- The jumps of the generated transitions, over the lifecycle that the emitter reads. -/
theorem commandTransitions_eq {feature : Feature} {command : Command} {update : UpdateEffect}
    {emitted : Lifecycle} (heffect : command.effect = .updates update)
    (hemitted : localLifecycle feature update.resource.name = some emitted) :
    (commandTransitions feature command).map advanceJump =
      (command.triggers.filterMap fun trigger =>
        emitted.transitions.find? fun t => t.name = trigger).map
          fun e => advanceJump (advanceLiteral e).emit := by
  unfold commandTransitions emitTransitionAdvances transitionAdvancesForTriggers
  rw [heffect]
  dsimp only
  rw [hemitted]
  split
  next none =>
    rw [none]
    rfl
  · rw [List.map_map, List.map_filterMap, List.map_filterMap]
    apply List.filterMap_congr
    intro trigger _
    rw [Option.map_map]
    rfl

theorem commandTransitions_eq_nil {feature : Feature} {command : Command} {update : UpdateEffect}
    (heffect : command.effect = .updates update)
    (hemitted : localLifecycle feature update.resource.name = none) :
    commandTransitions feature command = [] := by
  unfold commandTransitions emitTransitionAdvances transitionAdvancesForTriggers
  rw [heffect]
  dsimp only
  rw [hemitted]
  split <;> rfl

theorem sameJumps_iff {feature : Feature} {command : Command} {update : UpdateEffect}
    {lifecycle emitted : Lifecycle} {declared : List LifecycleTransition}
    (heffect : command.effect = .updates update)
    (hemitted : localLifecycle feature update.resource.name = some emitted)
    (each : command.triggers.Forall₂ (fun t d => transitionNamed lifecycle t = some d) declared) :
    (commandTransitions feature command).map advanceJump = declared.map declaredJump ↔
      ∀ trigger ∈ command.triggers, ∀ d, transitionNamed lifecycle trigger = some d →
        ∃ e, (emitted.transitions.find? fun t => t.name = trigger) = some e ∧ Agrees d e := by
  rw [commandTransitions_eq heffect hemitted, map_filterMap_eq_iff each]
  simp only [advanceJump_eq_iff]

theorem declaredJump_contiguous {declared : List LifecycleTransition}
    (chain : declared.IsChain fun l r => l.toState ∈ r.froms) :
    Jump.Contiguous (declared.map declaredJump) := by
  apply List.isChain_map_of_isChain
  · intro l r next
    exact decide_eq_true next
  · exact chain

/-- What the check passed is enforced exactly when the emitter reads the same transitions. -/
theorem enforced_iff_matched (features : List Feature)
    (noErrors : ∀ d ∈ check features, d.severity ≠ .error) (feature : Feature)
    (hf : feature ∈ features) (command : Command) (hc : command ∈ feature.commands)
    (nonempty : command.triggers ≠ []) :
    Enforced features feature command ↔ Matched features feature command := by
  constructor
  · rintro ⟨declared, ⟨update, resource, lifecycle, heffect, hresource, hlifecycle, each⟩, same, -⟩
    cases hemitted : localLifecycle feature update.resource.name with
    | none =>
        rw [commandTransitions_eq_nil heffect hemitted] at same
        have short := congrArg List.length same
        have long := each.length_eq
        have some := List.length_pos_iff.mpr nonempty
        simp only [List.map_nil, List.length_nil, List.length_map] at short
        omega
    | some emitted =>
        exact ⟨update, resource, lifecycle, emitted, heffect, hresource, hlifecycle, hemitted,
          (sameJumps_iff heffect hemitted each).mp same⟩
  · rintro ⟨update, resource, lifecycle, emitted, heffect, hresource, hlifecycle, hemitted, found⟩
    obtain ⟨update', heffect', resolved⟩ := declares_of_noErrors noErrors hf hc nonempty
    obtain rfl : update = update' := CommandEffect.updates.inj (heffect.symm.trans heffect')
    obtain ⟨declared, declares, chain⟩ := resolved resource hresource
    have each : command.triggers.Forall₂ (fun t d => transitionNamed lifecycle t = some d)
        declared := by
      obtain ⟨update', resource', lifecycle', heffect', hresource', hlifecycle', each⟩ := declares
      obtain rfl : update = update' := CommandEffect.updates.inj (heffect.symm.trans heffect')
      obtain rfl : resource = resource' := Option.some.inj (hresource.symm.trans hresource')
      obtain rfl : lifecycle = lifecycle' := Option.some.inj (hlifecycle.symm.trans hlifecycle')
      exact each
    have same := (sameJumps_iff heffect hemitted each).mpr found
    have contiguous := declaredJump_contiguous chain
    refine ⟨declared, declares, same, ?_, ?_⟩
    · rw [same]
      exact contiguous
    · intro state
      rw [same]
      exact Jump.skip_eq_fireAll contiguous state

/-! ### Local names -/

theorem resourceNamed_of_unique {features : List Feature} {feature : Feature} {resource : Resource}
    (hf : feature ∈ features) (ownName : ∀ g ∈ features, g.name = feature.name → g = feature)
    (hr : resource ∈ feature.resources)
    (onlyOne : ∀ r ∈ feature.resources, r.name = resource.name → r = resource) :
    resourceNamed features feature.name resource.name = some resource := by
  unfold resourceNamed
  rw [lastWhere_of_unique (a := (feature, resource)), Option.map_some]
  · exact List.mem_flatMap.mpr ⟨feature, hf, List.mem_map_of_mem hr⟩
  · simp
  · rintro ⟨g, r⟩ mem named
    obtain ⟨g', hg, pair⟩ := List.mem_flatMap.mp mem
    obtain ⟨r', hr', same⟩ := List.mem_map.mp pair
    cases same
    simp only [decide_eq_true_eq] at named
    obtain rfl := ownName g hg named.1
    rw [onlyOne r hr' named.2]

/-- A feature looks into itself first. -/
theorem reachable_head {features : List Feature} {feature : Feature} (hf : feature ∈ features)
    (ownName : ∀ g ∈ features, g.name = feature.name → g = feature) :
    ∃ rest, reachable features feature.name = feature :: rest := by
  have here : featureNamed features feature.name = some feature := by
    apply lastWhere_of_unique hf
    · exact decide_eq_true rfl
    · intro g hg named
      exact ownName g hg (of_decide_eq_true named)
  unfold reachable
  rw [reachableFrom_fresh _ List.not_mem_nil here]
  exact ⟨_, rfl⟩

theorem resolveResource_local {features : List Feature} {feature : Feature} {resource : Resource}
    {name : QualifiedName} (hf : feature ∈ features)
    (ownName : ∀ g ∈ features, g.name = feature.name → g = feature)
    (own : name.feature = none ∨ name.feature = some feature.name)
    (hr : resource ∈ feature.resources) (named : resource.name = name.name)
    (onlyOne : ∀ r ∈ feature.resources, r.name = resource.name → r = resource) :
    resolveResource features feature.name name = some resource := by
  have found := resourceNamed_of_unique hf ownName hr onlyOne
  rw [named] at found
  unfold resolveResource
  rcases own with bare | qualified
  · rw [bare]
    obtain ⟨rest, first⟩ := reachable_head hf ownName
    rw [first, List.findSome?_cons, found]
  · rw [qualified]
    exact found

/-- Where names are unique and every transition starts somewhere, a command on a resource of its
own feature is enforced. -/
theorem matched_of_local {features : List Feature} {feature : Feature} {command : Command}
    {update : UpdateEffect} {resource : Resource} {lifecycle : Lifecycle}
    (heffect : command.effect = .updates update) (hf : feature ∈ features)
    (ownName : ∀ g ∈ features, g.name = feature.name → g = feature)
    (own : update.resource.feature = none ∨ update.resource.feature = some feature.name)
    (hr : resource ∈ feature.resources) (named : resource.name = update.resource.name)
    (onlyOne : ∀ r ∈ feature.resources, r.name = resource.name → r = resource)
    (hlifecycle : resource.lifecycle = some lifecycle)
    (distinct : ∀ t ∈ lifecycle.transitions, ∀ t' ∈ lifecycle.transitions,
      t'.name = t.name → t' = t)
    (starts : ∀ t ∈ lifecycle.transitions, t.froms ≠ []) :
    Matched features feature command := by
  refine ⟨update, resource, lifecycle, lifecycle, heffect,
    resolveResource_local hf ownName own hr named onlyOne, hlifecycle, ?_, ?_⟩
  · unfold localLifecycle
    rw [find?_of_unique hr, Option.bind_some, hlifecycle]
    · exact decide_eq_true named
    · intro r hr' same
      rw [← named] at same
      exact onlyOne r hr' (of_decide_eq_true same)
  · intro trigger _ d hd
    have mem : d ∈ lifecycle.transitions := (lastWhere_some hd).1
    have dname : d.name = trigger := of_decide_eq_true (lastWhere_some hd).2
    refine ⟨d, ?_, ?_, rfl⟩
    · apply find?_of_unique mem
      · exact decide_eq_true dname
      · intro t ht same
        exact distinct d mem t ht ((of_decide_eq_true same).trans dname.symm)
    · intro s
      rw [advanceLiteral, if_neg (starts d mem)]

/-! ### Invoices -/

def invoice : Resource where
  name := "Invoice"
  lifecycle := some ⟨"status", [⟨"pay", ["open"], "paid"⟩]⟩

/-- `updates Invoice`, `triggers transition pay`. -/
def settle : Command where
  name := "settle"
  effect := .updates ⟨⟨none, "Invoice"⟩, [⟨"note", .string "settled"⟩], []⟩
  triggers := ["pay"]
  span := none

def billing : Feature := { name := "billing", resources := [invoice], commands := [settle] }

def orders : Feature := { name := "orders", uses := ["billing"], commands := [settle] }

theorem settle_passes {features : List Feature} {owner : Feature}
    (h : resolveResource features owner.name ⟨none, "Invoice"⟩ = some invoice) :
    checkCommand features owner settle = [] := by
  unfold checkCommand settle
  rw [if_neg (List.cons_ne_nil _ _)]
  dsimp only
  rw [h]
  decide

/-- In every list where the billing feature is the only one of its name. -/
theorem resolve_invoice {features : List Feature} (hf : billing ∈ features)
    (ownName : ∀ g ∈ features, g.name = billing.name → g = billing) :
    resolveResource features billing.name ⟨none, "Invoice"⟩ = some invoice := by
  apply resolveResource_local hf ownName (.inl rfl) (.head _) rfl
  simp [billing]

theorem billing_passes : check [billing] = [] := by
  apply check_eq_nil (by decide)
  simp only [List.forall_mem_cons, List.not_mem_nil, false_implies, implies_true, and_true]
  rintro c (_ | ⟨_, ⟨⟩⟩)
  apply settle_passes
  apply resolve_invoice (.head _)
  simp

theorem enforced_iff_matched_billing :
    Enforced [billing] billing settle ↔ Matched [billing] billing settle :=
  enforced_iff_matched [billing] (by simp [billing_passes]) billing (.head _) settle (.head _)
    (List.cons_ne_nil _ _)

/-- The check finds the invoice in the used feature; the emitter, that looks only in `orders`,
writes no transition. -/
theorem used_lifecycle_dropped :
    check [orders, billing] = [] ∧ settle ∈ orders.commands ∧ settle.triggers = ["pay"] ∧
      resolveResource [orders, billing] "orders" ⟨none, "Invoice"⟩ = some invoice ∧
      commandTransitions orders settle = [] ∧ ¬ Enforced [orders, billing] orders settle := by
  have used : reachable [orders, billing] "orders" = [orders, billing] := by
    unfold reachable
    rw [reachableFrom_fresh orders List.not_mem_nil rfl]
    change orders :: reachableFrom _ ["billing"] _ = _
    rw [reachableFrom_fresh billing (by decide) rfl]
    simp [billing]
  have found : resolveResource [orders, billing] "orders" ⟨none, "Invoice"⟩ = some invoice := by
    rw [resolveResource, used]
    rfl
  refine ⟨?_, .head _, rfl, found, rfl, ?_⟩
  · apply check_eq_nil (by decide)
    rintro f (_ | ⟨_, (_ | ⟨_, ⟨⟩⟩)⟩) c (_ | ⟨_, ⟨⟩⟩)
    · exact settle_passes found
    · apply settle_passes
      apply resolve_invoice (.tail _ (.head _))
      simp [orders, billing]
  · rintro ⟨declared, ⟨_, _, _, _, _, _, each⟩, same, -⟩
    have long := each.length_eq
    have short := congrArg List.length same
    simp only [List.length_map] at short
    rw [← short] at long
    cases long

end Lazuli.Codegen
