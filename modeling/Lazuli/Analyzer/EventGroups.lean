import Lazuli.Codegen.Delivery
import Lazuli.Codegen.Schema
import Lazuli.General.Fresh
import Lazuli.General.Loop

/-!
Events that are declared in groups (`lazuli_analyzer/src/feature.rs`, `events_p1.rs`, and the
emitters `events/mod.rs` and `command/tier4.rs`).

A group has a pattern with a star at its end, and each of its events a short name. The full name
of an event is formed in three places: where the variants of groups are hoisted among the events
of the feature, where their descriptors are emitted, and where the outbox modes are indexed for
the `emits` of commands. `KeepsIdentity` says what becomes of an event on the way, for every
feature: `keeps_identity`. A name that two declarations have is hoisted once, and a line of `emits`
has the outbox of all declarations it may mean.
-/

namespace Lazuli.Analyzer.EventGroups

open General Ir Lazuli.Runtime
open Codegen (groupEntries groupPrefix buildOutboxIndex emitEmit indexShortName OutboxIndex)

/-! ### Declarations -/

structure EventField where
  name : String
  typeRef : TypeRef
  optional : Bool
  deriving DecidableEq

inductive EventKind where
  | domain
  | trace
  deriving DecidableEq

inductive EventVariantKind where
  | committed
  | trace
  deriving DecidableEq

structure EventVariant where
  name : String
  kind : EventVariantKind
  outbox : OutboxMode
  fields : List EventField
  spanRef : Option SpanRef
  deriving DecidableEq

/-- A group whose variants are events of it, with the modes they have there. -/
structure EventGroup extends Codegen.EventGroup where
  variants : List EventVariant
  declared : ∀ variant ∈ variants,
    (variant.name, variant.outbox) ∈ groupEntries toEventGroup

structure Event where
  name : String
  kind : EventKind
  payload : List EventField
  payloadNone : Bool
  level : Option String
  outbox : OutboxMode
  previousNames : List String
  spanRef : Option SpanRef
  deriving DecidableEq

structure Feature where
  eventGroups : List EventGroup
  events : List Event

/-! ### Groups as they are parsed -/

/-- A row of a variant. What type its text stands for is known here. -/
structure EventVariantFieldDecl where
  name : String
  typeRef : TypeRef
  required : Bool
  optional : Bool
  span : SpanRef

structure EventGroupDecl where
  pattern : String
  events : List String
  eventsOutboxGuaranteed : List Bool
  eventVariants : List (List EventVariantFieldDecl)
  eventVariantKinds : List EventVariantKind

/-- A row without a modifier is required. -/
def lowerEventVariantField (decl : EventVariantFieldDecl) : EventField where
  name := decl.name
  typeRef := decl.typeRef
  optional := if decl.required then false else decl.optional

def lowerEventsOutbox (group : EventGroupDecl) : List OutboxMode :=
  if group.eventsOutboxGuaranteed.isEmpty then List.replicate group.events.length .none
  else group.eventsOutboxGuaranteed.map fun g => if g then .guaranteed else .none

/-- The variant of an event, from the lists that go along with the events. -/
def lowerEventVariant (group : EventGroupDecl) (event : String × Nat) : EventVariant where
  name := event.1
  kind := (group.eventVariantKinds[event.2]?).getD .committed
  outbox := ((lowerEventsOutbox group)[event.2]?).getD .none
  fields := ((group.eventVariants[event.2]?).map (·.map lowerEventVariantField)).getD []
  spanRef := (group.eventVariants[event.2]?).bind fun rows => rows.head?.map (·.span)

/-- Groups that were written without typed variants have none. -/
def lowerVariants (group : EventGroupDecl) : List EventVariant :=
  if group.eventVariants.isEmpty && group.eventVariantKinds.isEmpty then []
  else group.events.zipIdx.map (lowerEventVariant group)

def lowerEventGroup (group : EventGroupDecl) : EventGroup where
  pattern := group.pattern
  events := group.events
  eventsOutbox := lowerEventsOutbox group
  variants := lowerVariants group
  declared := by
    intro variant mem
    rw [lowerVariants] at mem
    split at mem
    · exact absurd mem List.not_mem_nil
    · obtain ⟨event, hevent, rfl⟩ := List.mem_map.mp mem
      exact List.mem_map_of_mem hevent

/-! ### Names -/

/-- The text before the star at the end of a pattern. -/
def patternPrefix (pattern : String) : String :=
  match pattern.toList.reverse with
  | '*' :: rest => String.ofList rest.reverse
  | _ => pattern

def eventGroupVariantFullName (pattern shortName : String) : String :=
  let lead := patternPrefix pattern
  if lead.isEmpty || lead.toList.isPrefixOf shortName.toList then shortName
  else lead ++ shortName

/-- The same name, as the emitter of events forms it. -/
def eventNameForGroup (pattern shortName : String) : String :=
  let lead := patternPrefix pattern
  if lead.isEmpty || lead.toList.isPrefixOf shortName.toList then shortName
  else lead ++ shortName

/-- The name under which the index of outbox modes has it, next to the short one. -/
theorem qualified_eq (group : Codegen.EventGroup) (shortName : String) :
    (if (groupPrefix group).toList.isPrefixOf shortName.toList then shortName
      else groupPrefix group ++ shortName) = eventNameForGroup group.pattern shortName := by
  have lead : groupPrefix group = patternPrefix group.pattern := rfl
  rw [eventNameForGroup, lead]
  by_cases empty : patternPrefix group.pattern = ""
  · rw [empty]
    rfl
  · have some : (patternPrefix group.pattern).isEmpty = false := by
      simpa [String.isEmpty_iff] using empty
    rw [some, Bool.false_or]

/-! ### Variants among the events -/

def EventVariantKind.toEventKind : EventVariantKind → EventKind
  | .committed => .domain
  | .trace => .trace

/-- The event that a variant is hoisted as. A variant without fields has an empty payload. -/
def hoistVariant (pattern : String) (variant : EventVariant) : Event where
  name := eventGroupVariantFullName pattern variant.name
  kind := variant.kind.toEventKind
  payload := variant.fields
  payloadNone := false
  level := none
  outbox := variant.outbox
  previousNames := []
  spanRef := variant.spanRef

/-- The names that exist and the events that are hoisted, after one more variant. -/
def hoistStep (pattern : String) (state : Finset String × List Event) (variant : EventVariant) :
    Finset String × List Event :=
  let fullName := eventGroupVariantFullName pattern variant.name
  if fullName ∈ state.1 then state
  else (insert fullName state.1, state.2 ++ [hoistVariant pattern variant])

def hoistEventGroupVariants (feature : Feature) : Feature :=
  let existing := (feature.events.map Event.name).toFinset
  let hoisted := feature.eventGroups.foldl
    (fun state group => group.variants.foldl (hoistStep group.pattern) state) (existing, [])
  { feature with events := feature.events ++ hoisted.2 }

/-- The variants of all groups, each with its group. -/
def Feature.pairs (feature : Feature) : List (EventGroup × EventVariant) :=
  feature.eventGroups.flatMap fun group => group.variants.map fun variant => (group, variant)

def hoistPair (pair : EventGroup × EventVariant) : Event := hoistVariant pair.1.pattern pair.2

/-- What is hoisted of a feature. -/
def Feature.hoisted (feature : Feature) : List Event :=
  fresh Event.name (feature.events.map Event.name).toFinset (feature.pairs.map hoistPair)

theorem hoist_events (feature : Feature) :
    (hoistEventGroupVariants feature).events = feature.events ++ feature.hoisted := by
  have step (group : EventGroup) (state : Finset String × List Event) :
      group.variants.foldl (hoistStep group.pattern) state =
        (group.variants.map (hoistVariant group.pattern)).foldl (takeFresh Event.name) state := by
    rw [List.foldl_map]
    rfl
  have all : feature.pairs.map hoistPair =
      feature.eventGroups.flatMap fun g => g.variants.map (hoistVariant g.pattern) := by
    rw [Feature.pairs, List.map_flatMap]
    simp only [List.map_map]
    rfl
  have run := foldl_takeFresh Event.name (feature.events.map Event.name).toFinset
    (feature.pairs.map hoistPair) []
  rw [all, List.foldl_flatMap] at run
  simp only [← step] at run
  rw [Feature.hoisted, all]
  exact congrArg (feature.events ++ ·) run

theorem hoist_pairs (feature : Feature) :
    (hoistEventGroupVariants feature).pairs = feature.pairs := rfl

theorem pair_mem {feature : Feature} {pair : EventGroup × EventVariant} :
    pair ∈ feature.pairs ↔ pair.1 ∈ feature.eventGroups ∧ pair.2 ∈ pair.1.variants := by
  simp only [Feature.pairs, List.mem_flatMap, List.mem_map]
  constructor
  · rintro ⟨group, hgroup, variant, hvariant, rfl⟩
    exact ⟨hgroup, hvariant⟩
  · rintro ⟨hgroup, hvariant⟩
    exact ⟨pair.1, hgroup, pair.2, hvariant, rfl⟩

/-- After the hoist every variant has an event under its full name. -/
theorem hoisted_name {feature : Feature} {pair : EventGroup × EventVariant}
    (mem : pair ∈ feature.pairs) :
    ∃ event ∈ (hoistEventGroupVariants feature).events, event.name = (hoistPair pair).name := by
  have candidate : hoistPair pair ∈ feature.pairs.map hoistPair := List.mem_map_of_mem mem
  rw [hoist_events]
  rcases key_mem_or_mem_fresh Event.name (feature.events.map Event.name).toFinset candidate with
    old | new
  · obtain ⟨event, hevent, name⟩ := List.mem_map.mp (List.mem_toFinset.mp old)
    exact ⟨event, List.mem_append_left _ hevent, name⟩
  · obtain ⟨event, hevent, name⟩ := List.mem_map.mp new
    exact ⟨event, List.mem_append_right _ hevent, name⟩

theorem hoisted_once {feature : Feature} {pair : EventGroup × EventVariant}
    {pre post : List (EventGroup × EventVariant)} (split : feature.pairs = pre ++ pair :: post)
    (unauthored : ∀ event ∈ feature.events, event.name ≠ (hoistPair pair).name)
    (first : ∀ earlier ∈ pre, (hoistPair earlier).name ≠ (hoistPair pair).name) :
    (hoistEventGroupVariants feature).events.filter (·.name = (hoistPair pair).name) =
      [hoistPair pair] := by
  have authored : feature.events.filter (·.name = (hoistPair pair).name) = [] := by
    rw [List.filter_eq_nil_iff]
    exact fun event hevent same => unauthored event hevent (of_decide_eq_true same)
  have new : (hoistPair pair).name ∉ (feature.events.map Event.name).toFinset := by
    rw [List.mem_toFinset, List.mem_map]
    rintro ⟨event, hevent, same⟩
    exact unauthored event hevent same
  have first' : ∀ event ∈ pre.map hoistPair, event.name ≠ (hoistPair pair).name :=
    List.forall_mem_map.mpr first
  rw [hoist_events, List.filter_append, authored, List.nil_append, Feature.hoisted, split,
    List.map_append, List.map_cons]
  exact filter_fresh new first'

theorem hoist_hoist (feature : Feature) :
    hoistEventGroupVariants (hoistEventGroupVariants feature) =
      hoistEventGroupVariants feature := by
  have nothing : (hoistEventGroupVariants feature).hoisted = [] := by
    refine fresh_eq_nil fun event hevent => ?_
    rw [hoist_pairs] at hevent
    obtain ⟨pair, hpair, rfl⟩ := List.mem_map.mp hevent
    obtain ⟨event, hevent, name⟩ := hoisted_name hpair
    rw [List.mem_toFinset, ← name]
    exact List.mem_map_of_mem hevent
  have events := hoist_events (hoistEventGroupVariants feature)
  rw [nothing, List.append_nil] at events
  exact congrArg (Feature.mk feature.eventGroups) events

/-! ### The outbox of a line of `emits` -/

/-- An event as it is declared, with the names that a line may have for it. -/
structure Declaration where
  fullName : String
  shortName : String
  outbox : OutboxMode
  deriving DecidableEq

def Declaration.Named (declaration : Declaration) (name : String) : Prop :=
  declaration.fullName = name ∨ declaration.shortName = name

def EventGroup.declarations (group : EventGroup) : List Declaration :=
  (groupEntries group.toEventGroup).map fun entry =>
    ⟨eventNameForGroup group.pattern entry.1, entry.1, entry.2⟩

def Event.declaration (event : Event) : Declaration := ⟨event.name, event.name, event.outbox⟩

def Feature.declarations (feature : Feature) : List Declaration :=
  feature.eventGroups.flatMap EventGroup.declarations ++ feature.events.map Event.declaration

def Feature.outboxIndex (feature : Feature) : OutboxIndex :=
  buildOutboxIndex (feature.eventGroups.map EventGroup.toEventGroup)
    (feature.events.map fun event => ⟨event.name, event.outbox⟩)

/-- Some guaranteed event of a list is declared under a name. -/
def Guaranteed (declarations : List Declaration) (name : String) : Prop :=
  ∃ declaration ∈ declarations, declaration.outbox = .guaranteed ∧ declaration.Named name

section Guaranteed

variable {α : Type*} {l : List α} {name : String}

theorem guaranteed_append {first second : List Declaration} :
    Guaranteed (first ++ second) name ↔ Guaranteed first name ∨ Guaranteed second name := by
  simp only [Guaranteed, List.mem_append, or_and_right, exists_or]

theorem guaranteed_map {f : α → Declaration} :
    Guaranteed (l.map f) name ↔ ∃ a ∈ l, (f a).outbox = .guaranteed ∧ (f a).Named name := by
  simp only [Guaranteed, List.mem_map]
  constructor
  · rintro ⟨_, ⟨a, mem, rfl⟩, h⟩
    exact ⟨a, mem, h⟩
  · rintro ⟨a, mem, h⟩
    exact ⟨f a, ⟨a, mem, rfl⟩, h⟩

theorem guaranteed_flatMap {f : α → List Declaration} :
    Guaranteed (l.flatMap f) name ↔ ∃ a ∈ l, Guaranteed (f a) name := by
  simp only [Guaranteed, List.mem_flatMap]
  constructor
  · rintro ⟨declaration, ⟨a, mem, inside⟩, h⟩
    exact ⟨a, mem, declaration, inside, h⟩
  · rintro ⟨a, mem, declaration, inside, h⟩
    exact ⟨declaration, ⟨a, mem, inside⟩, h⟩

end Guaranteed

theorem insert_eq_guaranteed {index : OutboxIndex} {key name : String} :
    index.insert key .guaranteed name = some .guaranteed ↔
      index name = some .guaranteed ∨ key = name := by
  by_cases same : name = key
  · rw [same, OutboxIndex.insert, Function.update_self]
    exact iff_of_true rfl (Or.inr rfl)
  · rw [OutboxIndex.insert, Function.update_of_ne same, or_iff_left (Ne.symm same)]

theorem indexShortName_iff (group : EventGroup) (index : OutboxIndex)
    (entry : String × OutboxMode) (name : String) :
    indexShortName (groupPrefix group.toEventGroup) index entry name = some .guaranteed ↔
      index name = some .guaranteed ∨ entry.2 = .guaranteed ∧
        (eventNameForGroup group.pattern entry.1 = name ∨ entry.1 = name) := by
  obtain ⟨shortName, mode⟩ := entry
  cases mode with
  | none =>
      have absent : ¬ OutboxMode.none = .guaranteed := OutboxMode.noConfusion
      rw [indexShortName, if_pos rfl, or_iff_left (absent ·.1)]
  | guaranteed =>
      have present : ¬ OutboxMode.guaranteed = .none := OutboxMode.noConfusion
      rw [indexShortName, if_neg present]
      simp only [qualified_eq, insert_eq_guaranteed, true_and]
      rw [or_assoc, or_comm (a := shortName = name)]

theorem indexGroup_iff (group : EventGroup) (index : OutboxIndex) (name : String) :
    (groupEntries group.toEventGroup).foldl (indexShortName (groupPrefix group.toEventGroup)) index
        name = some .guaranteed ↔
      index name = some .guaranteed ∨ Guaranteed group.declarations name := by
  rw [foldl_iff (P := fun index : OutboxIndex => index name = some .guaranteed)
    fun index entry => indexShortName_iff group index entry name, EventGroup.declarations,
    guaranteed_map]
  rfl

theorem indexEvent_iff (event : Event) (index : OutboxIndex) (name : String) :
    (if event.outbox = .guaranteed then index.insert event.name event.outbox else index) name =
        some .guaranteed ↔
      index name = some .guaranteed ∨
        event.outbox = .guaranteed ∧ event.declaration.Named name := by
  by_cases mode : event.outbox = .guaranteed
  · rw [if_pos mode, mode, insert_eq_guaranteed]
    simp only [true_and, Declaration.Named, Event.declaration, or_self]
  · rw [if_neg mode, or_iff_left (mode ·.1)]

theorem outboxIndex_iff (feature : Feature) (name : String) :
    feature.outboxIndex name = some .guaranteed ↔ Guaranteed feature.declarations name := by
  have grouped := foldl_iff (P := fun index : OutboxIndex => index name = some .guaranteed)
    (fun index group => indexGroup_iff group index name) (fun _ => none) feature.eventGroups
  have all := foldl_iff (P := fun index : OutboxIndex => index name = some .guaranteed)
    fun index event => indexEvent_iff event index name
  have empty : ¬ (none : Option OutboxMode) = some .guaranteed :=
    (Option.some_ne_none _).symm
  rw [Feature.outboxIndex, buildOutboxIndex, List.foldl_map, List.foldl_map, all, grouped,
    or_iff_right empty, Feature.declarations, guaranteed_append, guaranteed_flatMap, guaranteed_map]
  rfl

/-- The variants that are hoisted are declared in their groups already. -/
theorem hoist_guaranteed_iff (feature : Feature) (name : String) :
    Guaranteed (hoistEventGroupVariants feature).declarations name ↔
      Guaranteed feature.declarations name := by
  have old : feature.declarations =
      feature.eventGroups.flatMap EventGroup.declarations ++
        feature.events.map Event.declaration := rfl
  have after : (hoistEventGroupVariants feature).declarations =
      feature.declarations ++ feature.hoisted.map Event.declaration := by
    rw [Feature.declarations, hoist_events, List.map_append, ← List.append_assoc]
    rfl
  rw [after, guaranteed_append, or_iff_left_iff_imp, guaranteed_map]
  rintro ⟨event, hevent, mode, named⟩
  obtain ⟨⟨group, variant⟩, mem, rfl⟩ := List.mem_map.mp (mem_of_mem_fresh hevent)
  obtain ⟨hgroup, hvariant⟩ := pair_mem.mp mem
  have entry := group.declared variant hvariant
  rw [old, guaranteed_append, guaranteed_flatMap]
  refine Or.inl ⟨group, hgroup, _, List.mem_map_of_mem entry, mode, Or.inl ?_⟩
  exact named.elim id id

theorem emit_guaranteed_iff (feature : Feature) (name : String) :
    (emitEmit (hoistEventGroupVariants feature).outboxIndex name).outbox = .guaranteed ↔
      Guaranteed feature.declarations name := by
  rw [← hoist_guaranteed_iff, ← outboxIndex_iff]
  change (_ : Option OutboxMode).getD .none = .guaranteed ↔ _
  cases (hoistEventGroupVariants feature).outboxIndex name with
  | none => exact iff_of_false OutboxMode.noConfusion (Option.some_ne_none _).symm
  | some mode => exact Option.some_inj.symm

/-! ### Descriptors -/

/-- The full names of the events of a group with their short names, in the order of a
`BTreeSet`. -/
def sortedGroupEventNames (group : EventGroup) : List (String × String) :=
  (group.events.map fun shortName => (eventNameForGroup group.pattern shortName, shortName)).dedup
    |>.mergeSort fun a b => a.1 < b.1 || a.1 = b.1 && a.2 ≤ b.2

/-- The names under which `emit_group` writes the descriptors of a group. -/
def descriptorNames (group : EventGroup) : List String := (sortedGroupEventNames group).map Prod.fst

theorem mem_descriptorNames {group : EventGroup} {name : String} :
    name ∈ descriptorNames group ↔
      ∃ shortName ∈ group.events, name = eventNameForGroup group.pattern shortName := by
  simp only [descriptorNames, sortedGroupEventNames, List.mem_map, List.mem_mergeSort,
    List.mem_dedup]
  constructor
  · rintro ⟨_, ⟨shortName, mem, rfl⟩, rfl⟩
    exact ⟨shortName, mem, rfl⟩
  · rintro ⟨shortName, mem, rfl⟩
    exact ⟨_, ⟨shortName, mem, rfl⟩, rfl⟩

/-! ### What becomes of an event -/

/-- What holds of the events of a feature after the hoist, and of the lines of `emits` in it. -/
structure KeepsIdentity (feature : Feature) : Prop where
  /-- Every variant has an event of its full name. -/
  hoisted : ∀ pair ∈ feature.pairs, ∃ event ∈ (hoistEventGroupVariants feature).events,
    event.name = eventGroupVariantFullName pair.1.pattern pair.2.name
  /-- It is the event of the variant alone, unless an authored event or an earlier variant has
  the name. -/
  own : ∀ pre pair post, feature.pairs = pre ++ pair :: post →
    (∀ event ∈ feature.events,
      event.name ≠ eventGroupVariantFullName pair.1.pattern pair.2.name) →
    (∀ earlier ∈ pre, eventGroupVariantFullName earlier.1.pattern earlier.2.name ≠
      eventGroupVariantFullName pair.1.pattern pair.2.name) →
    ∃ event, event.kind = pair.2.kind.toEventKind ∧ event.payload = pair.2.fields ∧
      event.outbox = pair.2.outbox ∧ (hoistEventGroupVariants feature).events.filter
        (·.name = eventGroupVariantFullName pair.1.pattern pair.2.name) = [event]
  idempotent : hoistEventGroupVariants (hoistEventGroupVariants feature) =
    hoistEventGroupVariants feature
  /-- The emitter of events has the same name for a variant. -/
  named : ∀ pair ∈ feature.pairs, eventGroupVariantFullName pair.1.pattern pair.2.name =
    eventNameForGroup pair.1.pattern pair.2.name
  /-- A line is guaranteed when some event that it may mean is. -/
  guaranteed : ∀ name,
    (emitEmit (hoistEventGroupVariants feature).outboxIndex name).outbox = .guaranteed ↔
      Guaranteed feature.declarations name
  /-- A line that may mean one event only has its outbox. -/
  unambiguous : ∀ name, ∀ declaration ∈ feature.declarations, declaration.Named name →
    (∀ other ∈ feature.declarations, other.Named name → other = declaration) →
      ((emitEmit (hoistEventGroupVariants feature).outboxIndex name).outbox = .guaranteed ↔
        declaration.outbox = .guaranteed)
  /-- A line is printed as it is written, and the descriptors of groups have full names. -/
  registered : ∀ name, (emitEmit (hoistEventGroupVariants feature).outboxIndex name).name = name ∧
    ∀ group ∈ feature.eventGroups, name ∈ descriptorNames group ↔
      ∃ shortName ∈ group.events, name = eventNameForGroup group.pattern shortName

theorem keeps_identity (feature : Feature) : KeepsIdentity feature where
  hoisted := fun _ mem => hoisted_name mem
  own := fun pre pair post split unauthored first =>
    ⟨hoistPair pair, rfl, rfl, rfl, hoisted_once split unauthored first⟩
  idempotent := hoist_hoist feature
  named := fun _ _ => rfl
  guaranteed := emit_guaranteed_iff feature
  unambiguous := by
    intro name declaration mem named only
    rw [emit_guaranteed_iff]
    constructor
    · rintro ⟨other, hother, mode, otherNamed⟩
      rw [← only other hother otherNamed]
      exact mode
    · exact fun mode => ⟨declaration, mem, mode, named⟩
  registered := fun _ => ⟨rfl, fun _ _ => mem_descriptorNames⟩

/-! ### Names that clash -/

def orders : EventGroupDecl where
  pattern := "order_*"
  events := ["created", "paid"]
  eventsOutboxGuaranteed := [true, true]
  eventVariants := [[], []]
  eventVariantKinds := [.committed, .committed]

/-- A group without a prefix, with two names that orders have. -/
def catchAll : EventGroupDecl where
  pattern := "*"
  events := ["created", "order_created"]
  eventsOutboxGuaranteed := [false, false]
  eventVariants := [[], [⟨"total", .unresolved "Money", true, false, ⟨0, 5⟩⟩]]
  eventVariantKinds := [.committed, .committed]

def clashing : Feature := ⟨[orders, catchAll].map lowerEventGroup, []⟩

def total : EventField := ⟨"total", .unresolved "Money", false⟩

/-- The variant `order_created` of the catch-all group has no event, the event `created` is none
that is guaranteed and is emitted as one, and `paid` is emitted under a name without a
descriptor. -/
theorem clash :
    (∃ pair ∈ clashing.pairs, pair.2.fields = [total] ∧
      ∀ event ∈ (hoistEventGroupVariants clashing).events, event.payload ≠ [total]) ∧
    (∃ event ∈ (hoistEventGroupVariants clashing).events, event.name = "created" ∧
      event.outbox = .none ∧
      (emitEmit (hoistEventGroupVariants clashing).outboxIndex "created").outbox = .guaranteed) ∧
    (∃ declaration ∈ clashing.declarations, declaration.Named "paid" ∧
      (∀ other ∈ clashing.declarations, other.Named "paid" → other = declaration) ∧
      (emitEmit (hoistEventGroupVariants clashing).outboxIndex "paid").name = "paid" ∧
      ∀ group ∈ clashing.eventGroups, "paid" ∉ descriptorNames group) := by
  have events : (hoistEventGroupVariants clashing).events =
      [hoistVariant "order_*" (lowerEventVariant orders ("created", 0)),
        hoistVariant "order_*" (lowerEventVariant orders ("paid", 1)),
        hoistVariant "*" (lowerEventVariant catchAll ("created", 0))] := by
    rfl
  have declarations : clashing.declarations =
      [⟨"order_created", "created", .guaranteed⟩, ⟨"order_paid", "paid", .guaranteed⟩,
        ⟨"created", "created", .none⟩, ⟨"order_created", "order_created", .none⟩] := by
    rfl
  rw [events, declarations]
  refine ⟨⟨(lowerEventGroup catchAll, lowerEventVariant catchAll ("order_created", 1)), ?_⟩,
    ⟨hoistVariant "*" (lowerEventVariant catchAll ("created", 0)), ?_⟩,
    ⟨⟨"order_paid", "paid", .guaranteed⟩, ?_⟩⟩
  · refine ⟨pair_mem.mpr ⟨.tail _ (.head _), .tail _ (.head _)⟩, rfl, ?_⟩
    simp [hoistVariant, lowerEventVariant, orders, catchAll]
  · exact ⟨.tail _ (.tail _ (.head _)), rfl, rfl, rfl⟩
  · refine ⟨.tail _ (.head _), Or.inr rfl, ?_, rfl, ?_⟩
    · simp [Declaration.Named]
    · have names : ∀ decl ∈ [orders, catchAll], ∀ shortName ∈ decl.events,
          "paid" ≠ eventNameForGroup decl.pattern shortName := by decide
      refine List.forall_mem_map.mpr fun decl hdecl mem => ?_
      obtain ⟨shortName, hname, same⟩ := mem_descriptorNames.mp mem
      exact names decl hdecl shortName hname same

end Lazuli.Analyzer.EventGroups
