import Lazuli.Analyzer.RawExpr
import Lazuli.Analyzer.Synthesis
import Lazuli.Codegen.Filters

/-!
The overlays of the `crud` convention (`conventions/crud_overlay.rs`, `crud.rs`, `fields.rs`).

A `crud` block changes the commands that the convention builds from the fields of a resource:
`mergeCreate`, `mergeUpdate` and `mergeDelete`. The command is the one with these clauses that could
have been written by hand (`synthesizeCreate_eq_written`). An assignment is added to those of the
fields, so a column is bound twice where its field is not excluded (`merge_exact`).
-/

namespace Lazuli.Analyzer.CrudOverlay

open Ir
open Codegen (asciiLower)

/-! ### The declarations -/

/-- The right-hand side is the text that was written. -/
structure AssignmentDecl where
  field : String
  value : List Char

structure CrudEffectOverlayAst where
  policy : Option (List Char) := none
  validate : List String := []
  inputExcludes : List String := []
  assigns : List AssignmentDecl := []
  emits : List String := []

structure ResolvedEffectOverlay where
  policy : Option PolicyRef
  validate : List String
  inputExcludes : List String
  assigns : List Assignment
  emits : List String

/-- `@<rest>` is an atom, anything else a local name. -/
def lowerPolicyAtom : List Char → PolicyRef
  | '@' :: rest => .atom (String.ofList rest)
  | name => .localRef (String.ofList name)

def lowerAssignment (a : AssignmentDecl) : Assignment where
  field := a.field
  value := lowerRawExpr a.value

def resolveEffectOverlay (ast : CrudEffectOverlayAst) : ResolvedEffectOverlay where
  policy := ast.policy.map lowerPolicyAtom
  validate := ast.validate
  inputExcludes := ast.inputExcludes
  assigns := ast.assigns.map lowerAssignment
  emits := ast.emits

/-! ### The commands of the convention -/

inductive CommandKind where
  | create
  | update
  | delete
  | returns
  deriving DecidableEq

structure Command extends Ir.Command where
  kind : CommandKind
  emits : List String
  rateLimit : Option String
  auditSubjects : List String

def isTenantField (r : Resource) (f : Field) : Bool :=
  let hasUserUnique := r.fields.any fun f =>
    f.name = "user" && f.required && f.unique && isNamedType "User" f.typeRef
  f.name = "org" || hasUserUnique && f.name = "user"

def isAutoField (r : Resource) (f : Field) : Bool :=
  f.name ∈ ["id", "created_at", "updated_at"] ||
    r.lifecycle.any fun lifecycle => lifecycle.discriminatorField = f.name

/-- The required fields and the others, without those that the runtime or the database fills. -/
def categorizeFields (r : Resource) : List Field × List Field :=
  let written := r.fields.filter fun f => !isTenantField r f && !isAutoField r f
  (written.filter (·.required), written.filter (!·.required))

def createInputFields (r : Resource) : List (Field × Bool) :=
  (categorizeFields r).1.map (·, true) ++ (categorizeFields r).2.map (·, false)

/-- An update may leave every field out. -/
def updateInputFields (r : Resource) : List (Field × Bool) :=
  (categorizeFields r).1.map (·, false) ++ (categorizeFields r).2.map (·, false)

def inputToCommandInput (fields : List (Field × Bool)) : CommandInput :=
  if fields.isEmpty then .empty
  else .typed (fields.map fun (f, required) => ⟨f.name, f.typeRef, required, false⟩)

def inputFieldAssignments (fields : List (Field × Bool)) : List Assignment :=
  fields.map fun (f, _) => ⟨f.name, .path ⟨["input", f.name]⟩⟩

def crudWriteRateLimit : String := "100 per 10 minutes per ip"

def defaultSynthCommand (rateLimit : String) : Command where
  name := ""
  effect := .none
  triggers := []
  span := none
  policy := .localRef "authenticated"
  kind := .returns
  emits := []
  rateLimit := some rateLimit
  auditSubjects := ["default"]

def idRoute : List RouteSlot := [⟨"id", .builtin .id⟩]

def buildCreateCommand (name resource : String) (inputFields : List (Field × Bool)) : Command :=
  { defaultSynthCommand crudWriteRateLimit with
    name := name
    kind := .create
    input := inputToCommandInput inputFields
    effect := .creates ⟨⟨none, resource⟩, true, inputFieldAssignments inputFields⟩ }

def buildUpdateCommand (name resource : String) (inputFields : List (Field × Bool)) : Command :=
  { defaultSynthCommand crudWriteRateLimit with
    name := name
    kind := .update
    route := idRoute
    input := inputToCommandInput inputFields
    effect := .updates ⟨⟨none, resource⟩, inputFieldAssignments inputFields, []⟩ }

def buildDeleteCommand (name resource : String) : Command :=
  { defaultSynthCommand crudWriteRateLimit with
    name := name
    kind := .delete
    route := idRoute
    effect := .deletes ⟨⟨none, resource⟩, []⟩ }

/-! ### Merging -/

def dropSlots (drop : List String) : CommandInput → CommandInput
  | .typed slots =>
      let slots := slots.filter fun s => s.name ∉ drop
      if slots.isEmpty then .empty else .typed slots
  | input => input

def dropAssignments (drop : List String) : CommandEffect → CommandEffect
  | .creates e => .creates { e with assignments := e.assignments.filter fun a => a.field ∉ drop }
  | .updates e => .updates { e with assignments := e.assignments.filter fun a => a.field ∉ drop }
  | effect => effect

/-- Excluding a field also takes its assignment away. -/
def applyInputExcludes (cmd : Command) (excludes : List String) : Command :=
  if excludes.isEmpty then cmd
  else
    { cmd with
      input := dropSlots excludes cmd.input
      effect := dropAssignments excludes cmd.effect }

def extendCreates (assigns : List Assignment) : CommandEffect → CommandEffect
  | .creates e => .creates { e with assignments := e.assignments ++ assigns }
  | effect => effect

def extendUpdates (assigns : List Assignment) : CommandEffect → CommandEffect
  | .updates e => .updates { e with assignments := e.assignments ++ assigns }
  | effect => effect

/-- What the merges of a create and an update have in common. -/
def mergeWith (extend : List Assignment → CommandEffect → CommandEffect) (cmd : Command)
    (overlay : ResolvedEffectOverlay) : Command :=
  let cmd := applyInputExcludes cmd overlay.inputExcludes
  { cmd with
    policy := overlay.policy.getD cmd.policy
    effect := extend overlay.assigns cmd.effect
    emits := cmd.emits ++ overlay.emits }

def mergeCreate : Command → ResolvedEffectOverlay → Command := mergeWith extendCreates

def mergeUpdate : Command → ResolvedEffectOverlay → Command := mergeWith extendUpdates

/-- A delete has no input and no assignments. -/
def mergeDelete (cmd : Command) (overlay : ResolvedEffectOverlay) : Command :=
  { cmd with
    policy := overlay.policy.getD cmd.policy
    emits := cmd.emits ++ overlay.emits }

/-! ### The pass -/

def synthesizeCreate (r : Resource) (scope : Option OwnerScopeSql)
    (overlay : Option ResolvedEffectOverlay) : Command :=
  let cmd := { buildCreateCommand (Synthesis.createName r) r.name (createInputFields r) with
    ownerScopeSql := scope }
  match overlay with
  | some eff => mergeCreate cmd eff
  | none => cmd

/-- Only a create keeps the check of the owner. -/
def synthesizeUpdate (r : Resource) (scope : Option OwnerScopeSql)
    (overlay : Option ResolvedEffectOverlay) : Command :=
  let cmd := { buildUpdateCommand (Synthesis.updateName r) r.name (updateInputFields r) with
    ownerScopeSql := scope.map fun scope => { scope with cteOwnerCheck := none } }
  match overlay with
  | some eff => mergeUpdate cmd eff
  | none => cmd

def synthesizeDelete (r : Resource) (scope : Option OwnerScopeSql)
    (overlay : Option ResolvedEffectOverlay) : Command :=
  let cmd := { buildDeleteCommand (Synthesis.deleteName r) r.name with
    ownerScopeSql := scope.map fun scope => { scope with cteOwnerCheck := none } }
  match overlay with
  | some eff => mergeDelete cmd eff
  | none => cmd

/-! ### The columns of the emitted bindings -/

def assignmentsOf : CommandEffect → List Assignment
  | .creates e => e.assignments
  | .updates e => e.assignments
  | _ => []

/-- The key of `format_binding_row`. -/
def column (a : Assignment) : String := asciiLower a.field

inductive LifecycleStateKind where
  | initial
  | intermediate
  | terminal
  deriving DecidableEq

structure LifecycleState where
  name : String
  kind : LifecycleStateKind

def initialLifecycleState (states : List LifecycleState) : Option String :=
  ((states.find? fun state => state.kind = .initial).or states.head?).map (·.name)

/-- A create binds the first state of the lifecycle, unless the author has. -/
def lifecycleInitialBinding (assignments : List Assignment) (lifecycle : Option Lifecycle)
    (states : List LifecycleState) : Option (String × String) := do
  let lifecycle ← lifecycle
  let field := asciiLower lifecycle.discriminatorField
  if assignments.any fun a => asciiLower a.field = field then none
  else (initialLifecycleState states).map fun initial => (field, initial)

def createColumns (cmd : Command) (lifecycle : Option Lifecycle) (states : List LifecycleState) :
    List String :=
  (assignmentsOf cmd.effect).map column ++
    ((lifecycleInitialBinding (assignmentsOf cmd.effect) lifecycle states).map Prod.fst).toList

def updateColumns (cmd : Command) : List String := (assignmentsOf cmd.effect).map column

/-! ### The commands by hand -/

/-- The input fields that are left. -/
def keptFields (fields : List (Field × Bool)) (ast : CrudEffectOverlayAst) : List (Field × Bool) :=
  fields.filter fun f => f.1.name ∉ ast.inputExcludes

/-- A command with the clauses of the overlay and no overlay: its input has the fields that are
left, and its effect binds them and then what is assigned. -/
def written (cmd : Command) (fields : List (Field × Bool)) (ast : CrudEffectOverlayAst)
    (effect : List Assignment → CommandEffect) : Command :=
  { cmd with
    input := inputToCommandInput (keptFields fields ast)
    effect := effect
      (inputFieldAssignments (keptFields fields ast) ++ ast.assigns.map lowerAssignment)
    policy := (ast.policy.map lowerPolicyAtom).getD (.localRef "authenticated")
    emits := ast.emits }

def writtenCreate (r : Resource) (scope : Option OwnerScopeSql) (ast : CrudEffectOverlayAst) :
    Command :=
  written { defaultSynthCommand crudWriteRateLimit with
      name := Synthesis.createName r
      kind := .create
      ownerScopeSql := scope }
    (createInputFields r) ast fun assignments => .creates ⟨⟨none, r.name⟩, true, assignments⟩

def writtenUpdate (r : Resource) (scope : Option OwnerScopeSql) (ast : CrudEffectOverlayAst) :
    Command :=
  written { defaultSynthCommand crudWriteRateLimit with
      name := Synthesis.updateName r
      kind := .update
      route := idRoute
      ownerScopeSql := scope.map fun scope => { scope with cteOwnerCheck := none } }
    (updateInputFields r) ast fun assignments => .updates ⟨⟨none, r.name⟩, assignments, []⟩

section Merge

variable {fields : List (Field × Bool)} {drop : List String}

theorem filter_inputFieldAssignments :
    (inputFieldAssignments fields).filter (fun a => a.field ∉ drop) =
      inputFieldAssignments (fields.filter fun f => f.1.name ∉ drop) := by
  rw [inputFieldAssignments, List.filter_map]
  rfl

theorem dropSlots_inputToCommandInput : dropSlots drop (inputToCommandInput fields) =
    inputToCommandInput (fields.filter fun f => f.1.name ∉ drop) := by
  unfold inputToCommandInput
  cases fields with
  | nil => rfl
  | cons f fields =>
      rw [List.isEmpty_cons, if_neg Bool.false_ne_true, dropSlots, List.filter_map,
        List.isEmpty_map]
      rfl

theorem keptFields_nil (fields : List (Field × Bool)) :
    fields.filter (fun f => f.1.name ∉ ([] : List String)) = fields :=
  List.filter_eq_self.mpr fun _ _ => decide_eq_true List.not_mem_nil

/-- The merge of a command that binds its input fields. -/
theorem mergeWith_eq_written {extend : List Assignment → CommandEffect → CommandEffect}
    (effect : List Assignment → CommandEffect) (cmd : Command) (ast : CrudEffectOverlayAst)
    (extends_ : ∀ rows assigns, extend assigns (effect rows) = effect (rows ++ assigns))
    (drops : ∀ rows, dropAssignments ast.inputExcludes (effect rows) =
      effect (rows.filter fun a => a.field ∉ ast.inputExcludes))
    (input : cmd.input = inputToCommandInput fields)
    (binds : cmd.effect = effect (inputFieldAssignments fields))
    (policy : cmd.policy = .localRef "authenticated") (emits : cmd.emits = []) :
    mergeWith extend cmd (resolveEffectOverlay ast) = written cmd fields ast effect := by
  have excluded : applyInputExcludes cmd ast.inputExcludes = { cmd with
      input := inputToCommandInput (keptFields fields ast)
      effect := effect (inputFieldAssignments (keptFields fields ast)) } := by
    unfold applyInputExcludes
    split
    case isTrue none =>
      have all : keptFields fields ast = fields := by
        rw [keptFields, List.isEmpty_iff.mp none]
        exact keptFields_nil fields
      rw [all, ← input, ← binds]
    case isFalse =>
      rw [input, binds, dropSlots_inputToCommandInput, drops, filter_inputFieldAssignments]
      rfl
  unfold mergeWith written
  simp only [resolveEffectOverlay, excluded, extends_, policy, emits, List.nil_append]

/-- **The overlaid command is the one that could have been written.** -/
theorem synthesizeCreate_eq_written (r : Resource) (scope : Option OwnerScopeSql)
    (ast : CrudEffectOverlayAst) :
    synthesizeCreate r scope (some (resolveEffectOverlay ast)) = writtenCreate r scope ast := by
  let cmd := buildCreateCommand (Synthesis.createName r) r.name (createInputFields r)
  exact mergeWith_eq_written (fun rows => .creates ⟨⟨none, r.name⟩, true, rows⟩)
    { cmd with ownerScopeSql := scope } ast (fun _ _ => rfl) (fun _ => rfl) rfl rfl rfl rfl

theorem synthesizeUpdate_eq_written (r : Resource) (scope : Option OwnerScopeSql)
    (ast : CrudEffectOverlayAst) :
    synthesizeUpdate r scope (some (resolveEffectOverlay ast)) = writtenUpdate r scope ast := by
  let cmd := buildUpdateCommand (Synthesis.updateName r) r.name (updateInputFields r)
  exact mergeWith_eq_written (fun rows => .updates ⟨⟨none, r.name⟩, rows, []⟩)
    { cmd with ownerScopeSql := scope.map fun scope => { scope with cteOwnerCheck := none } } ast
    (fun _ _ => rfl) (fun _ => rfl) rfl rfl rfl rfl

end Merge

/-! ### The columns -/

/-- No two fields that are left and no two assignments have one column, and no assignment has that
of a field that is left. -/
structure Apart (fields : List (Field × Bool)) (ast : CrudEffectOverlayAst) : Prop where
  kept : ((keptFields fields ast).map fun f => asciiLower f.1.name).Nodup
  assigns : (ast.assigns.map fun a => asciiLower a.field).Nodup
  disjoint : ∀ f ∈ keptFields fields ast, ∀ a ∈ ast.assigns,
    asciiLower f.1.name ≠ asciiLower a.field

section Columns

variable {fields : List (Field × Bool)} {ast : CrudEffectOverlayAst}

theorem nodup_written_iff :
    ((inputFieldAssignments (keptFields fields ast) ++ ast.assigns.map lowerAssignment).map
      column).Nodup ↔ Apart fields ast := by
  have rows : (inputFieldAssignments (keptFields fields ast)).map column =
      (keptFields fields ast).map fun f => asciiLower f.1.name := by
    rw [inputFieldAssignments, List.map_map]
    rfl
  have assigned : (ast.assigns.map lowerAssignment).map column =
      ast.assigns.map fun a => asciiLower a.field := by
    rw [List.map_map]
    rfl
  rw [List.map_append, rows, assigned, List.nodup_append]
  constructor
  · rintro ⟨kept, assigns, disjoint⟩
    exact ⟨kept, assigns, fun f hf a ha =>
      disjoint _ (List.mem_map_of_mem hf) _ (List.mem_map_of_mem ha)⟩
  · rintro ⟨kept, assigns, disjoint⟩
    refine ⟨kept, assigns, fun c hc d hd => ?_⟩
    obtain ⟨f, hf, rfl⟩ := List.mem_map.mp hc
    obtain ⟨a, ha, rfl⟩ := List.mem_map.mp hd
    exact disjoint f hf a ha

/-- The column of the lifecycle is bound only where no assignment binds it. -/
theorem nodup_createColumns (cmd : Command) (lifecycle : Option Lifecycle)
    (states : List LifecycleState) :
    (createColumns cmd lifecycle states).Nodup ↔ ((assignmentsOf cmd.effect).map column).Nodup := by
  unfold createColumns
  cases binding : lifecycleInitialBinding (assignmentsOf cmd.effect) lifecycle states with
  | none => rw [Option.map_none, Option.toList_none, List.append_nil]
  | some row =>
      obtain ⟨lifecycle, -, free⟩ := Option.bind_eq_some_iff.mp binding
      dsimp only at free
      split at free
      · cases free
      · rename_i fresh
        obtain ⟨initial, -, rfl⟩ := Option.map_eq_some_iff.mp free
        rw [Option.map_some, Option.toList_some, List.nodup_append]
        refine ⟨And.left, fun nodup => ⟨nodup, List.nodup_singleton _, ?_⟩⟩
        intro c hc d hd
        obtain rfl := List.mem_singleton.mp hd
        obtain ⟨a, ha, rfl⟩ := List.mem_map.mp hc
        intro same
        exact fresh (List.any_eq_true.mpr ⟨a, ha, decide_eq_true same⟩)

/-- **The merge is exact**: the overlaid commands are those that could have been written, and they
bind each column once where the assignments keep apart from the fields that are left. -/
theorem merge_exact (r : Resource) (scope : Option OwnerScopeSql) (lifecycle : Option Lifecycle)
    (states : List LifecycleState) (ast : CrudEffectOverlayAst) :
    let create := synthesizeCreate r scope (some (resolveEffectOverlay ast))
    let update := synthesizeUpdate r scope (some (resolveEffectOverlay ast))
    create = writtenCreate r scope ast ∧ update = writtenUpdate r scope ast ∧
      ((createColumns create lifecycle states).Nodup ↔ Apart (createInputFields r) ast) ∧
      ((updateColumns update).Nodup ↔ Apart (updateInputFields r) ast) := by
  refine ⟨synthesizeCreate_eq_written r scope ast, synthesizeUpdate_eq_written r scope ast, ?_, ?_⟩
  · rw [nodup_createColumns, synthesizeCreate_eq_written]
    exact nodup_written_iff
  · rw [updateColumns, synthesizeUpdate_eq_written]
    exact nodup_written_iff

/-- An assignment to a field that is not excluded is a second one. -/
theorem assigned_twice :
    ¬ ∀ (r : Resource) (ast : CrudEffectOverlayAst),
      (updateColumns (synthesizeUpdate r none (some (resolveEffectOverlay ast)))).Nodup := by
  intro all
  let category : Field := { name := "category", typeRef := .builtin .text, required := true }
  have once := all { name := "Customer", fields := [category] }
    { assigns := [⟨"category", "input.category_id".toList⟩] }
  rw [updateColumns, synthesizeUpdate_eq_written] at once
  have apart := (nodup_written_iff.mp once).disjoint (category, false) List.mem_cons_self _
    List.mem_cons_self
  exact apart rfl

end Columns

end Lazuli.Analyzer.CrudOverlay
