import Lazuli.Codegen.PolicyCorrect
import Lazuli.Codegen.Schema

/-!
The rows that a command may write, as far as its policy says
(`emitter/command/scope.rs`, `emit_p1.rs`).

The policy is flattened to a list of atoms. Each atom of `@scope` that finds a column on the
resource of the effect becomes one more condition of the statement; an owner is also found one
relation away.
-/

namespace Lazuli.Codegen

open Ir

/-! ### Names -/

def commandPascalToSnake (s : String) : String :=
  String.ofList <| s.toList.zipIdx.flatMap fun (ch, i) =>
    if ch.isUpper then (if i > 0 then ['_'] else []) ++ [ch.toLower] else [ch]

/-! ### Columns -/

/-- A condition on a column; `via` is the table and the column of a relation to an owner. -/
structure ScopeBinding where
  atom : String
  column : String
  ctxPath : String
  via : Option (String × String)
  deriving DecidableEq

def ownerColumns : List String := ["user_id", "user", "owner_id", "owner"]

def sameOrgColumns : List String := ["org_id", "org", "tenant_id", "tenant"]

/-- The first of the names that is a field. -/
def findScopeColumn (resource : Resource) (priority : List String) : Option String :=
  priority.find? fun candidate => resource.fields.any fun f => f.name = candidate

structure OwnerViaRelation where
  fkColumn : String
  relatedTable : String
  relatedOwnerColumn : String
  deriving DecidableEq

/-- The name that a type may refer to a resource by. -/
def relatedName : TypeRef → Option String
  | .userDefined qname => some qname.name
  | .unresolved name => some name
  | _ => none

/-- The other resource of the feature that a field refers to, with its owner column. -/
def ownerVia (resource : Resource) (feature : Feature) (field : Field) :
    Option (Resource × String) :=
  (relatedName field.typeRef).bind fun name =>
    if name = resource.name then none
    else
      (feature.resources.find? fun r => r.name = name).bind fun related =>
        (findScopeColumn related ownerColumns).map fun column => (related, column)

/-- The first field that has one. -/
def ownerRelation (resource : Resource) (feature : Feature) :
    Option (Field × Resource × String) :=
  resource.fields.findSome? fun field =>
    (ownerVia resource feature field).map fun owner => (field, owner)

def findOwnerViaRelation (resource : Resource) (feature : Feature) : Option OwnerViaRelation :=
  (ownerRelation resource feature).map fun (field, related, column) =>
    { fkColumn := field.name, relatedTable := related.name, relatedOwnerColumn := column }

/-! ### Atoms -/

/-- `{:?}` of a text. -/
def debugText (s : String) : String :=
  "\"" ++ String.ofList (s.toList.flatMap fun c =>
    match c with
    | '"' => ['\\', '"']
    | '\\' => ['\\', '\\']
    | '\n' => ['\\', 'n']
    | '\r' => ['\\', 'r']
    | '\t' => ['\\', 't']
    | c => [c]) ++ "\""

/-- The literal that an atom of an expression is printed as. -/
def atomLiteral (atom : Runtime.PolicyAtom) : String :=
  "\x7bNamespace: " ++ debugText atom.ns ++ ", Name: " ++ debugText atom.name ++ "\x7d"

def pushNew (atoms : List String) (atom : String) : List String :=
  if atom ∈ atoms then atoms else atoms ++ [atom]

/-- The atoms that the reference names. -/
def referenceAtoms (policies : Policies) : PolicyRef → List String
  | .localRef name => ((policies.find name).map (·.atoms)).getD []
  | .atom atom => ["@" ++ atom]
  | .external _ _ | .unresolved _ | .none => []

/-- What is printed for an expression goes in as it is printed. -/
def commandPolicyAtoms (command : Command) (policies : Policies) : List String :=
  (referenceAtoms policies command.policy ++
    (command.policyExpr.map fun expr => (walkPolicyExprAtoms expr).map atomLiteral).getD []).foldl
      pushNew []

/-! ### Bindings -/

def directBinding (atom column ctxPath : String) : ScopeBinding :=
  { atom, column, ctxPath, via := none }

/-- The condition of one atom. -/
def atomBinding (resource : Resource) (feature : Feature) (atom : String) :
    Option ScopeBinding :=
  match atom with
  | "@scope.owner" =>
      match findScopeColumn resource ownerColumns with
      | some column => some (directBinding atom column "user.id")
      | none =>
          (findOwnerViaRelation resource feature).map fun via =>
            { atom, column := via.fkColumn, ctxPath := "user.id"
              via := some (via.relatedTable, via.relatedOwnerColumn) }
  | "@scope.same_org" =>
      (findScopeColumn resource sameOrgColumns).map fun column =>
        directBinding atom column "user.org_id"
  | "@scope.self" => some (directBinding atom "id" "user.id")
  | _ => none

/-- The resource whose rows are written, by a name that may have a feature. -/
def writtenResource : CommandEffect → Option QualifiedName
  | .updates u => some u.resource
  | .deletes d => some d.resource
  | _ => none

/-- A name of another feature names no resource of this one. -/
def localResource (feature : Feature) (qname : QualifiedName) : Option Resource :=
  if qname.feature.any (· ≠ feature.name) then none
  else feature.resources.find? fun r => r.name = qname.name

/-- The resource of its own feature that a command updates or deletes from. -/
def targetResource (command : Command) (feature : Feature) : Option Resource :=
  (writtenResource command.effect).bind (localResource feature)

def resolveScopeBindings (command : Command) (feature : Feature) : List ScopeBinding :=
  match targetResource command feature with
  | none => []
  | some resource =>
      (commandPolicyAtoms command feature.policies).filterMap (atomBinding resource feature)

/-- The condition that the analyzer derived from an owner axis. -/
def ownerScopeBinding (scope : OwnerScopeSql) : ScopeBinding where
  atom := "@owner_axis"
  column := scope.fieldName
  ctxPath := "user.id"
  via := some (commandPascalToSnake scope.fkTarget, scope.throughColumn)

/-- A column that an atom of the policy binds already is not bound again. -/
def scopeBindings (command : Command) (feature : Feature) : List ScopeBinding :=
  let bindings := resolveScopeBindings command feature
  bindings ++
    ((command.ownerScopeSql.map ownerScopeBinding).filter fun b =>
      !bindings.any fun other => other.column = b.column).toList

/-- What the insertion of a row checks of the owner first. -/
structure OwnerCheckSpec where
  fkColumn : String
  relatedTable : String
  throughColumn : String
  deriving DecidableEq

def ownerCheckSpec (command : Command) : Option OwnerCheckSpec :=
  (command.ownerScopeSql.filter fun scope => scope.cteOwnerCheck.isSome).map fun scope =>
    { fkColumn := scope.fieldName
      relatedTable := commandPascalToSnake scope.fkTarget
      throughColumn := scope.throughColumn }

/-! ### Lemmas -/

theorem mem_foldl_pushNew {atom : String} (atoms acc : List String) :
    atom ∈ atoms.foldl pushNew acc ↔ atom ∈ acc ∨ atom ∈ atoms := by
  induction atoms generalizing acc with
  | nil => simp
  | cons a atoms ih =>
      have hpush : atom ∈ pushNew acc a ↔ atom ∈ acc ∨ atom = a := by
        unfold pushNew
        split
        next ha =>
          constructor
          · exact .inl
          · rintro (h | rfl)
            · exact h
            · exact ha
        · simp
      rw [List.foldl_cons, ih, hpush, List.mem_cons, or_assoc]

/-- An atom of an expression is printed in braces. -/
theorem atomLiteral_ne (atom : Runtime.PolicyAtom) (name : String) :
    atomLiteral atom ≠ "@" ++ name := by
  intro same
  have heads := congrArg (fun s => s.toList.head?) same
  simp [atomLiteral] at heads

/-- The atoms that are written with an at sign come from the reference. -/
theorem mem_commandPolicyAtoms {command : Command} {policies : Policies} {name : String} :
    "@" ++ name ∈ commandPolicyAtoms command policies ↔
      "@" ++ name ∈ referenceAtoms policies command.policy := by
  rw [commandPolicyAtoms, mem_foldl_pushNew, List.mem_append]
  have hexpr : "@" ++ name ∉
      (command.policyExpr.map fun expr => (walkPolicyExprAtoms expr).map atomLiteral).getD [] := by
    cases command.policyExpr with
    | none => simp
    | some expr =>
        intro hmem
        obtain ⟨atom, -, same⟩ := List.mem_map.mp hmem
        exact atomLiteral_ne atom name same
  simp [hexpr]

end Lazuli.Codegen
