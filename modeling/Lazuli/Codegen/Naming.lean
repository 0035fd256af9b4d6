import Lazuli.Codegen.Casing
import Lazuli.Codegen.Schema

/-!
The package-level identifiers of a feature (`emitter/command/naming.rs`, `emitter/query/list.rs`,
`lookup.rs`, `sql.rs`, `util.rs`, `emitter/resource`, `emitter/enums`).

Every feature is one Go package. A command is named by its verb, the resource behind it and the
other words of its name; the queries `list` and `by_…` take the resource that their names score
best for.
-/

namespace Lazuli.Codegen

open Ir Lazuli.Runtime

/-! ### Commands -/

/-- The parts between underscores. -/
def nameParts (s : String) : List String := (s.toList.splitOn '_').map String.ofList

def verb (shortName : String) : String := (nameParts shortName).headD ""

def modifierWords (shortName : String) : List String := (nameParts shortName).tail

def commandInputStructName (shortName resourcePascal : String) : String :=
  pascalCase (verb shortName) ++ resourcePascal ++
    String.join ((modifierWords shortName).map pascalCase) ++ "Input"

def commandVarName (shortName resourcePascal : String) : String :=
  String.ofList ((verb shortName).toList.map Char.toLower) ++ resourcePascal ++
    String.join ((modifierWords shortName).map pascalCase)

def commandHandlerFuncName (shortName : String) : String := "Handle" ++ pascalCase shortName

/-- The type that the effect of a command names. -/
def effectType (c : CommandDecl) : Option String :=
  match c.effect with
  | .creates e => some e.resource.name
  | .updates e => some e.resource.name
  | .deletes e => some e.resource.name
  | .reorders e => some e.resource.name
  | .returns =>
      match c.returnType with
      | .userDefined q => some q.name
      | .enumRef q => some q.name
      | _ => none
  | .none => none

def effectResourcePascal (c : CommandDecl) : String := ((effectType c).map pascalCase).getD "Result"

/-- An input struct is declared unless there is nothing to put in it. -/
def hasInputStruct (c : CommandDecl) : Bool :=
  match c.input with
  | .typed _ | .short _ => true
  | .empty => !c.route.isEmpty

/-! ### The resource of a query -/

/-- `split_ident_tokens` from some character on. -/
def splitIdentTokensFrom (prevLowerOrDigit : Bool) (current : List Char) :
    List Char → List (List Char)
  | [] => flush current
  | ch :: rest =>
      if ch = '_' ∨ ch = '-' ∨ ch = ' ' then
        flush current ++ splitIdentTokensFrom false [] rest
      else
        let lowerOrDigit := ch.isLower || ch.isDigit
        if ch.isUpper && prevLowerOrDigit && !current.isEmpty then
          flush current ++ splitIdentTokensFrom lowerOrDigit [ch] rest
        else splitIdentTokensFrom lowerOrDigit (current ++ [ch]) rest

def splitIdentTokens (s : String) : List (List Char) :=
  (splitIdentTokensFrom false [] s.toList).map fun word => word.map Char.toLower

def plural (word : List Char) : List Char :=
  match word.getLast? with
  | some 'y' => word.dropLast ++ ['i', 'e', 's']
  | some 's' => word ++ ['e', 's']
  | _ => word ++ ['s']

/-- Ten for each token of the resource in the name of the query, fifty more for the last. -/
def resourceScore (queryName : String) (resource : Resource) : Nat :=
  let queryTokens := splitIdentTokens queryName
  let tokens := splitIdentTokens resource.name
  let named (token : List Char) := queryTokens.any fun q => q = token || q = plural token
  10 * tokens.countP named + if (tokens.getLast?.any named) then 50 else 0

/-- The best score, and of two equal ones the smaller name. -/
def resourceForQuery (f : FeatureDecl) (queryName : String) : Option Resource :=
  match f.resources.insertionSort fun a b => a.name ≤ b.name with
  | [] => none
  | first :: rest =>
      some (rest.foldl (fun best r =>
        if resourceScore queryName r < resourceScore queryName best ∨
            resourceScore queryName r = resourceScore queryName best ∧ best.name < r.name then best
        else r) first)

def resourceAxis (f : FeatureDecl) (queryName : String) : String :=
  ((resourceForQuery f queryName).map fun r => pascalCase r.name).getD "Result"

/-! ### Queries -/

def pluralPascal (s : String) : String := String.ofList (plural s.toList)

/-- The name is `by` or begins with `by_`. -/
def isByName (name : String) : Bool := name = "by" || ['b', 'y', '_'].isPrefixOf name.toList

def listArgsStructName (queryName resourcePascal : String) : String :=
  if queryName = "list" then "List" ++ pluralPascal resourcePascal ++ "Args"
  else pascalCase queryName ++ "Args"

def listVarName (queryName resourcePascal : String) : String :=
  if queryName = "list" then "list" ++ pluralPascal resourcePascal else lowerCamel queryName

def lookupArgsStructName (queryName resourcePascal : String) : String :=
  if isByName queryName then resourcePascal ++ pascalCase queryName ++ "Args"
  else pascalCase queryName ++ "Args"

def lookupVarName (queryName resourcePascal : String) : String :=
  if isByName queryName then lowerCamel resourcePascal ++ pascalCase queryName
  else lowerCamel queryName

def queryArgsStructName (f : FeatureDecl) (q : Query) : String :=
  match q.kind with
  | .list => listArgsStructName q.name (resourceAxis f q.name)
  | .lookup => lookupArgsStructName q.name (resourceAxis f q.name)
  | .sql => pascalCase q.name ++ "Args"

def queryVarName (f : FeatureDecl) (q : Query) : String :=
  match q.kind with
  | .list => listVarName q.name (resourceAxis f q.name)
  | .lookup => lookupVarName q.name (resourceAxis f q.name)
  | .sql => lowerCamel q.name

/-! ### The package -/

def resourceVarName (r : Resource) : String := lowerCamel r.name ++ "Resource"

/-- The names of the types that a feature declares. -/
def typeNames (f : FeatureDecl) : List String :=
  f.resources.map (·.name) ++ f.records.map (·.name) ++ f.enums.map (·.name)

/-- The types of a feature and its functions. -/
def exportedIdentifiers (f : FeatureDecl) : List String :=
  (typeNames f).map pascalCase ++
    (f.commands.filter hasInputStruct).map (fun c =>
      commandInputStructName c.name (effectResourcePascal c)) ++
    f.queries.map (queryArgsStructName f) ++
    f.commands.map fun c => commandHandlerFuncName c.name

def variableIdentifiers (f : FeatureDecl) : List String :=
  f.resources.map resourceVarName ++
    f.commands.map (fun c => commandVarName c.name (effectResourcePascal c)) ++
    f.queries.map (queryVarName f)

/-- What is declared for a feature, in no particular order. -/
def identifiers (f : FeatureDecl) : List String := exportedIdentifiers f ++ variableIdentifiers f

end Lazuli.Codegen
