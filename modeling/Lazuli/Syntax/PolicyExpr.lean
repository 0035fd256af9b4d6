import Lazuli.General.Text

/-!
The grammar of policy expressions (`crates/lazuli_syntax/src/parser/lzx/policy_expr`).

Texts are lists of characters, and the position of the parser is the text that is left.
`parseUnary` recurses on the depth of nesting and `parseMore` on the number of terms that may still
come; neither limit is met, since every round reads a character (`parsePolicyExpr_ne_depth`).
-/

namespace Lazuli.Syntax

open Lazuli.General

/-! ### Trees -/

structure PolicyAtomAst where
  ns : List Char
  name : List Char
  args : Option (List Char)
  deriving DecidableEq

inductive PolicyExprAst where
  | authenticated
  | hasRole (name : List Char)
  | hasPermission (perm : List Char)
  | atom (atom : PolicyAtomAst)
  | and (terms : List PolicyExprAst)
  | or (terms : List PolicyExprAst)
  | not (inner : PolicyExprAst)

inductive ParseError where
  | unbalancedParens
  | roleMissing
  | permissionMissing
  | permissionShape (perm : List Char)
  | atomStart
  | atomArgsOpen
  | atomArgsEmpty
  | atomShape
  | atomNamespace (ns : List Char)
  | atomName (name : List Char)
  | unexpected (remaining : List Char)
  | trailing (remaining : List Char)
  | depth
  deriving DecidableEq

/-- The text of the error, which `depth` does not have. -/
def ParseError.message : ParseError → Option String
  | unbalancedParens => "unbalanced parens in policy expression (expected `)`)"
  | roleMissing => "`has_role` requires an identifier (e.g. `has_role manager`)"
  | permissionMissing =>
      "`has_permission` requires a permission ref (e.g. `has_permission users:read`)"
  | permissionShape perm => "`has_permission` argument `" ++ String.ofList perm ++
      "` must be 2-4 colon-separated lowercase segments"
  | atomStart => "policy atoms start with `@` (e.g. `@scope.workspace_admin`)"
  | atomArgsOpen => "policy atom arguments must be closed with `)`"
  | atomArgsEmpty => "policy atom arguments cannot be empty"
  | atomShape => "policy atom must include a namespace and name (`@<ns>.<name>`)"
  | atomNamespace ns => "policy atom namespace `" ++ String.ofList ns ++
      "` is not in the closed catalog (`scope` | `role` | `actor` | `mfa` | `session` | " ++
      "`rate_budget` | `time`)"
  | atomName name => "policy atom name `" ++ String.ofList name ++ "` must be kebab/snake case"
  | unexpected remaining =>
      "expected `authenticated`, `has_role`, `has_permission`, `not`, `(`, or " ++
      "`@<ns>.<name>` in policy expression; found `" ++ String.ofList remaining ++ "`"
  | trailing remaining =>
      "unexpected trailing input in policy expression: `" ++ String.ofList remaining ++ "`"
  | depth => none

/-! ### Tokens -/

/-- `u8::is_ascii_whitespace`. -/
def isAsciiWhitespace (c : Char) : Bool := c ∈ [' ', '\t', '\n', '\x0c', '\r']

def skipWs (s : List Char) : List Char := s.dropWhile isAsciiWhitespace

/-- Whether a keyword is next, before white space, a parenthesis or the end, and what is left. -/
def consumeKeyword (kw s : List Char) : Bool × List Char :=
  let rest := skipWs s
  if kw <+: rest then
    match rest.drop kw.length with
    | [] => (true, [])
    | c :: after =>
        if isAsciiWhitespace c || c = '(' || c = ')' then (true, c :: after) else (false, rest)
  else (false, rest)

def consumeChar (c : Char) (s : List Char) : Bool × List Char :=
  match skipWs s with
  | [] => (false, [])
  | d :: rest => if d = c then (true, rest) else (false, d :: rest)

/-- A token of given characters, of which the first one is no digit. -/
def readToken (letter : Char → Bool) (s : List Char) : Option (List Char × List Char) :=
  match skipWs s with
  | [] => none
  | c :: rest =>
      if letter c then
        some (c :: rest.takeWhile (fun d => letter d || d.isDigit),
          rest.dropWhile (fun d => letter d || d.isDigit))
      else none

def readIdent : List Char → Option (List Char × List Char) :=
  readToken fun c => c.isLower || c = '_'

def readPermissionRef : List Char → Option (List Char × List Char) :=
  readToken fun c => c.isLower || c = '_' || c = ':'

def isAtomChar (c : Char) : Bool := c.isLower || c.isDigit || c = '_' || c = '-' || c = '.'

/-- An `@<ns>.<name>` token, and behind it one suffix in parentheses. -/
def readAtomToken (s : List Char) : Option (List Char × List Char) :=
  match skipWs s with
  | '@' :: rest =>
      let body := rest.takeWhile isAtomChar
      if body = [] then none
      else
        match rest.dropWhile isAtomChar with
        | '(' :: inside =>
            let args := inside.takeWhile (· ≠ ')')
            match inside.dropWhile (· ≠ ')') with
            | [] => some ('@' :: body ++ '(' :: args, [])
            | closing :: after => some ('@' :: body ++ '(' :: args ++ [closing], after)
        | after => some ('@' :: body, after)
  | _ => none

/-! ### Atoms -/

/-- Two to four segments of lower case letters, digits and underscores, each begun by a letter. -/
def isValidPermissionRef (s : List Char) : Bool :=
  let segments := s.splitOn ':'
  2 ≤ segments.length && segments.length ≤ 4 && segments.all fun seg =>
    match seg with
    | [] => false
    | first :: chars => first.isLower && chars.all fun c => c.isLower || c.isDigit || c = '_'

def isKebabOrSnakeIdent : List Char → Bool
  | [] => false
  | first :: chars =>
      first.isLower && chars.all fun c => c.isLower || c.isDigit || c = '_' || c = '-'

/-- The closed catalog of namespaces. -/
def atomNamespaces : List (List Char) :=
  ["scope", "role", "actor", "mfa", "session", "rate_budget", "time"].map String.toList

/-- What is before the first such character and what is after it (`str::split_once`). -/
def splitOnce (c : Char) (s : List Char) : Option (List Char × List Char) :=
  match s.dropWhile (· ≠ c) with
  | [] => none
  | _ :: tail => some (s.takeWhile (· ≠ c), tail)

/-- The namespace and the name, which must be in the catalog and well formed. -/
def parseAtomBody (body : List Char) (args : Option (List Char)) :
    Except ParseError PolicyAtomAst :=
  match splitOnce '.' body with
  | none => .error .atomShape
  | some (ns, name) =>
      if ns ∉ atomNamespaces then .error (.atomNamespace ns)
      else if isKebabOrSnakeIdent name then .ok ⟨ns, name, args⟩
      else .error (.atomName name)

def parsePolicyAtom (value : List Char) : Except ParseError PolicyAtomAst :=
  match Text.trim value with
  | '@' :: body =>
      match splitOnce '(' body with
      | some (head, tail) =>
          if tail.getLast? ≠ some ')' then .error .atomArgsOpen
          else if Text.trim tail.dropLast = [] then .error .atomArgsEmpty
          else parseAtomBody (Text.trim head) (some (Text.trim tail.dropLast))
      | none => parseAtomBody (Text.trim body) none
  | _ => .error .atomStart

/-! ### Expressions -/

abbrev Parser (α : Type) := List Char → Except ParseError (α × List Char)

/-- The terms behind the first one, each after the keyword. -/
def parseMore (kw : List Char) (term : Parser PolicyExprAst) : Nat → Parser (List PolicyExprAst)
  | 0, _ => .error .depth
  | n + 1, s =>
      match consumeKeyword kw s with
      | (false, rest) => .ok ([], rest)
      | (true, rest) =>
          match term rest with
          | .error e => .error e
          | .ok (t, rest) =>
              match parseMore kw term n rest with
              | .error e => .error e
              | .ok (ts, rest) => .ok (t :: ts, rest)

/-- A single term stands for itself. -/
def collect (combine : List PolicyExprAst → PolicyExprAst) (t : PolicyExprAst) :
    List PolicyExprAst → PolicyExprAst
  | [] => t
  | ts => combine (t :: ts)

/-- Terms with a keyword between them. -/
def parseTerms (kw : List Char) (combine : List PolicyExprAst → PolicyExprAst)
    (term : Parser PolicyExprAst) : Parser PolicyExprAst := fun s =>
  match term s with
  | .error e => .error e
  | .ok (t, rest) =>
      match parseMore kw term (rest.length + 1) rest with
      | .error e => .error e
      | .ok (ts, rest) => .ok (collect combine t ts, rest)

def parseAnd (unary : Parser PolicyExprAst) : Parser PolicyExprAst :=
  parseTerms "and".toList .and unary

def parseOr (unary : Parser PolicyExprAst) : Parser PolicyExprAst :=
  parseTerms "or".toList .or (parseAnd unary)

/-- What may stand behind `has_role`. -/
def parseRole (s : List Char) : Except ParseError (PolicyExprAst × List Char) :=
  match readIdent s with
  | none => .error .roleMissing
  | some (name, rest) => .ok (.hasRole name, rest)

/-- What may stand behind `has_permission`. -/
def parsePermission (s : List Char) : Except ParseError (PolicyExprAst × List Char) :=
  match readPermissionRef s with
  | none => .error .permissionMissing
  | some (perm, rest) =>
      if isValidPermissionRef perm then .ok (.hasPermission perm, rest)
      else .error (.permissionShape perm)

def parseAtom (unary : Parser PolicyExprAst) : Parser PolicyExprAst := fun s =>
  match consumeChar '(' s with
  | (true, rest) =>
      match parseOr unary rest with
      | .error e => .error e
      | .ok (inner, rest) =>
          match consumeChar ')' rest with
          | (true, rest) => .ok (inner, rest)
          | (false, _) => .error .unbalancedParens
  | (false, rest) =>
      match consumeKeyword "authenticated".toList rest with
      | (true, rest) => .ok (.authenticated, rest)
      | (false, rest) =>
          match consumeKeyword "has_role".toList rest with
          | (true, rest) => parseRole rest
          | (false, rest) =>
              match consumeKeyword "has_permission".toList rest with
              | (true, rest) => parsePermission rest
              | (false, rest) =>
                  match readAtomToken rest with
                  | none => .error (.unexpected rest)
                  | some (token, rest) =>
                      match parsePolicyAtom token with
                      | .error e => .error e
                      | .ok atom => .ok (.atom atom, rest)

def parseUnary : Nat → Parser PolicyExprAst
  | 0, _ => .error .depth
  | n + 1, s =>
      match consumeKeyword "not".toList s with
      | (true, rest) =>
          match parseUnary n rest with
          | .error e => .error e
          | .ok (inner, rest) => .ok (.not inner, rest)
      | (false, rest) => parseAtom (parseUnary n) rest

/-- A whole text: `parse_or`, and then `is_at_end`. -/
def parsePolicyExpr (s : List Char) : Except ParseError PolicyExprAst :=
  match parseOr (parseUnary (s.length + 1)) s with
  | .error e => .error e
  | .ok (expr, rest) => if skipWs rest = [] then .ok expr else .error (.trailing rest)

end Lazuli.Syntax
