import Lazuli.Codegen.Casing
import Lazuli.Codegen.Schema

/-!
The filters of a query, lowered to a column and a source (`emitter/query/filters.rs`,
`pascal_to_snake` in `util.rs`).

The emitter writes the call of a factory of the runtime; the model keeps the call. Which side of
an equality is the column is told by the head of its path, and a column that a semantic name
stands for is put in its place.
-/

namespace Lazuli.Codegen

open Ir
open Lazuli.Runtime (pascalCase)

/-! ### Sources -/

inductive Constant where
  | string (s : String)
  | integer (n : Int)
  | boolean (b : Bool)
  | nil
  deriving DecidableEq

/-- The factories of the runtime. -/
inductive SourceCall where
  | fromInput (path : String)
  | fromCtx (path : String)
  | fromTarget (path : String)
  | fromConst (value : Constant)
  | fromFn (name : String) (args : List SourceCall)
  | fromCtxOwnedVia (relatedTable ownerColumn path : String)

def inputSourcePath (segments : List String) : String :=
  ".".intercalate (segments.map pascalCase)

def formatPathSource (segments : List String) : SourceCall :=
  match segments with
  | "params" :: rest | "input" :: rest | "route" :: rest => .fromInput (inputSourcePath rest)
  | "ctx" :: rest => .fromCtx (".".intercalate rest)
  | "target" :: rest => .fromTarget (inputSourcePath rest)
  | segments => .fromInput (inputSourcePath segments)

mutual

/-- The literals of an enum have no type in a filter. -/
def formatSourceExpr : Expr → SourceCall
  | .path p => formatPathSource p.segments
  | .string s => .fromConst (.string s)
  | .integer n => .fromConst (.integer n)
  | .boolean b => .fromConst (.boolean b)
  | .enum variant => .fromConst (.string variant)
  | .nil => .fromConst .nil
  | .fnCall name args => .fromFn name (formatSourceExprs args)

def formatSourceExprs : List Expr → List SourceCall
  | [] => []
  | arg :: args => formatSourceExpr arg :: formatSourceExprs args

end

/-! ### Columns -/

/-- The path of a value and not of a column. -/
def isSourcePath (segments : List String) : Bool :=
  segments.head?.any (· ∈ ["params", "input", "ctx", "target", "route"])

def asciiLower (s : String) : String := String.ofList (s.toList.map Char.toLower)

def columnFromSegments (segments : List String) : String :=
  let trimmed := if segments.head? = some "self" then segments.tail else segments
  match trimmed with
  | [] => ""
  | [one] => asciiLower one
  | [head, "id"] => asciiLower head ++ "_id"
  | many => "_".intercalate (many.map asciiLower)

def isFkField (field : Field) : Bool :=
  match field.typeRef with
  | .userDefined _ => true
  | _ => false

def resourceHasColumn (feature : Feature) (resource : Resource) (column : String) : Bool :=
  column = "id" || (effectiveTenancy feature resource = .org && column = "org_id") ||
    resource.fields.any fun field => field.name = column

/-- The column that a name stands for: itself, the reference `user` for `user_id`, or the column
`org_id` for `org`. -/
def normalizeResourceColumn (feature : Feature) (resource : Option Resource) (column : String) :
    String :=
  match resource with
  | none => column
  | some resource =>
      if resourceHasColumn feature resource column then column
      else
        match column.toList.dropSuffix? "_id".toList with
        | some stem =>
            if resource.fields.any fun field =>
                field.name = String.ofList stem && isFkField field then
              String.ofList stem
            else column
        | none =>
            if !resource.fields.any (fun field => field.name = column) &&
                resourceHasColumn feature resource (column ++ "_id") then
              column ++ "_id"
            else column

def columnFromExpr (feature : Feature) (resource : Option Resource) : Expr → Option String
  | .path p =>
      if isSourcePath p.segments then none
      else some (normalizeResourceColumn feature resource (columnFromSegments p.segments))
  | _ => none

/-! ### Rules -/

def pascalToSnake (s : String) : String :=
  String.ofList <| s.toList.zipIdx.flatMap fun (ch, i) =>
    if ch.isUpper then (if i > 0 then ['_'] else []) ++ [ch.toLower] else [ch]

/-- The path is `ctx.actor.user_id`. -/
def isCtxUser (p : Path) : Bool :=
  p.segments.head? = some "ctx" && ".".intercalate p.segments.tail = "actor.user_id"

/-- A reference to another resource than `User`, compared with the user of the context. -/
def ownedViaSource (column : String) (rhs : Expr) (resource : Option Resource) :
    Option SourceCall :=
  (resource.bind fun r => r.fields.find? fun f => f.name = column).bind fun field =>
    match field.typeRef, rhs with
    | .userDefined qname, .path p =>
        if qname.name = "User" || !isCtxUser p then none
        else some (.fromCtxOwnedVia (pascalToSnake qname.name) "user" "actor.user_id")
    | _, _ => none

/-- A column and the source of its value. -/
structure FilterRule where
  column : String
  when : SourceCall

def onlyComparisons : String := "FilterRule only supports comparison predicates today."

def onlyEquality : String := "FilterRule only supports equality predicates today."

def noColumnSide : String := "filter predicate has no column side."

/-- A guarded filter takes its value from the guard. -/
def filterSource (filter : Filter) (column : String) (value : Expr) (resource : Option Resource) :
    SourceCall :=
  match filter.when with
  | some param => .fromInput (inputSourcePath [param])
  | none => (ownedViaSource column value resource).getD (formatSourceExpr value)

def filterRule (filter : Filter) (feature : Feature) (resource : Option Resource) :
    Except String FilterRule :=
  match filter.predicate with
  | .comparison left .eq right =>
      match columnFromExpr feature resource left, columnFromExpr feature resource right with
      | some column, _ => .ok ⟨column, filterSource filter column right resource⟩
      | none, some column => .ok ⟨column, filterSource filter column left resource⟩
      | none, none => .error noColumnSide
  | .comparison _ _ _ => .error onlyEquality
  | _ => .error onlyComparisons

/-- The analyzer's owner check of a query, as one more filter. -/
def ownerScopeFilterEntry (scope : OwnerScopeSql) : FilterRule where
  column := scope.fieldName
  when := .fromCtxOwnedVia (pascalToSnake scope.fkTarget) scope.throughColumn "user.id"

/-- An entry of the list, or the comment that stands in its place. -/
inductive FilterEntry where
  | rule (rule : FilterRule)
  | todo (message : String)

def filterEntry (feature : Feature) (resource : Option Resource) (filter : Filter) :
    FilterEntry :=
  match filterRule filter feature resource with
  | .ok rule => .rule rule
  | .error message => .todo message

def emitFilters (feature : Feature) (resource : Option Resource) (filters : List Filter)
    (ownerScope : Option OwnerScopeSql) : List FilterEntry :=
  filters.map (filterEntry feature resource) ++
    (ownerScope.map fun scope => .rule (ownerScopeFilterEntry scope)).toList

end Lazuli.Codegen
