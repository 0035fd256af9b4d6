import Lazuli.General.Find
import Lazuli.General.Lines

/-!
The lines that waive a rule (`crates/lazuli_syntax/src/parser/lzi/doctor_allow.rs`).

A waiver is a line `@doctor.allow(CODE, reason: "...")`, or a comment with `doctor:allow CODE`.
`parse` reads the first form and tells what is wrong with it, `recognizeNodeLine` reads it and
never complains, and `recognizeLegacyCommentLine` reads the second.
-/

namespace Lazuli.Doctor

open General Text Lines Find

/-! ### Texts -/

def trimStart (s : List Char) : List Char := s.dropWhile isWhitespace

def trimEnd (s : List Char) : List Char := s.rdropWhile isWhitespace

/-- `to_ascii_lowercase`. -/
def lower (s : List Char) : List Char := s.map Char.toLower

/-- The text up to the next quote, in a text that a quote opens. -/
def unquote (s : List Char) : Option (List Char) := do
  let inner ← s.dropPrefix? ['"']
  (cut '"' inner).map Prod.fst

/-! ### Nodes -/

def nodeHead : List Char := "@doctor.allow".toList

def isNodeLine (trimmed : List Char) : Bool :=
  match trimmed.dropPrefix? nodeHead with
  | some rest => (trimStart rest).head? = some '('
  | none => false

def extractReasonValue (clause : List Char) : Option (List Char) := do
  let afterKey ← (trim clause).dropPrefix? "reason".toList
  let afterColon ← (trimStart afterKey).dropPrefix? [':']
  unquote (trimStart afterColon)

def parseArgsLoose (args : List Char) : Option (List Char × Option (List Char)) :=
  let args := trim args
  let (code, rest) := match cut ',' args with
    | some (code, rest) => (trim code, some (trim rest))
    | none => (args, none)
  if code = [] ∨ ':' ∈ code then none else some (code, rest.bind extractReasonValue)

def recognizeNodeLine (line : List Char) : Option (List Char × Option (List Char)) := do
  let trimmed := trimStart line
  if isNodeLine trimmed then
    let rest ← trimmed.dropPrefix? nodeHead
    let inner ← (trimStart rest).dropPrefix? ['(']
    let args ← (cutLast ')' inner).map Prod.fst
    parseArgsLoose args
  else none

/-! ### Nodes, with complaints -/

structure Span where
  start : Nat
  stop : Nat
  deriving DecidableEq

structure SourceLine where
  text : List Char
  start : Nat
  stop : Nat

structure ParseError where
  message : String
  span : Span
  deriving DecidableEq

def SourceLine.span (line : SourceLine) : Span := ⟨line.start, max line.stop (line.start + 1)⟩

def lineError (line : SourceLine) (message : String) : ParseError := ⟨message, line.span⟩

inductive DoctorAllowScope where
  | file
  | construct (line : Nat)
  deriving DecidableEq

structure DoctorAllowDecl where
  code : List Char
  reason : Option (List Char)
  scope : DoctorAllowScope
  legacy : Bool
  span : Option Span
  deriving DecidableEq

structure TargetArgDecl where
  name : List Char
  value : List Char
  span : Span

def splitCallSignature (line : SourceLine) (rest : List Char) :
    Except ParseError (List Char × List Char) :=
  let rest := trimEnd rest
  match cut '(' rest with
  | some (query, args) =>
      if rest.getLast? = some ')' then .ok (trim query, trim args.dropLast)
      else .error (lineError line
        "call expression must end with `)` (e.g. `query.by_id(id: route.id)`)")
  | none => .ok (trim rest, [])

/-- How much deeper what follows is nested. -/
def nesting (c : Char) : Int :=
  if c = '(' ∨ c = '[' then 1 else if c = ')' ∨ c = ']' then -1 else 0

/-- Commas in a string, in parentheses or in brackets do not split. -/
def splitTopLevelCommas (depth : Int) (inString : Bool) : List Char → List (List Char)
  | [] => [[]]
  | c :: rest =>
      if c = '"' then (splitTopLevelCommas depth (!inString) rest).modifyHead (c :: ·)
      else if inString then (splitTopLevelCommas depth inString rest).modifyHead (c :: ·)
      else if c = ',' ∧ depth = 0 then [] :: splitTopLevelCommas depth inString rest
      else (splitTopLevelCommas (depth + nesting c) inString rest).modifyHead (c :: ·)

def parseNamedArg (line : SourceLine) (piece : List Char) : Except ParseError TargetArgDecl :=
  match cut ':' piece with
  | none => .error (lineError line
      "call arguments use `<name>: <expr>` (e.g. `id: route.id`)")
  | some (name, value) =>
      if trim name = [] then .error (lineError line "call argument requires a name before `:`")
      else .ok ⟨trim name, trim value, ⟨line.start, line.stop⟩⟩

def parseNamedArgs (line : SourceLine) (text : List Char) :
    Except ParseError (List TargetArgDecl) :=
  let text := trim text
  if text = [] then .ok []
  else (((splitTopLevelCommas 0 false text).map trim).filter (· ≠ [])).mapM (parseNamedArg line)

def unquoteReason (line : SourceLine) (value : List Char) : Except ParseError (List Char) :=
  match (trim value).dropPrefix? ['"'] with
  | none => .error (lineError line "`reason` value must be a `\"...\"` string literal")
  | some inner =>
      match cut '"' inner with
      | none => .error (lineError line "`reason` string literal is missing its closing quote")
      | some (reason, _) => .ok reason

/-- The last reason is the one that counts. -/
def parseReason (line : SourceLine) (_ : Option (List Char)) (arg : TargetArgDecl) :
    Except ParseError (Option (List Char)) :=
  if arg.name = "reason".toList then (unquoteReason line arg.value).map some
  else .error (lineError line
    "`@doctor.allow(...)` only accepts a `reason: \"...\"` named argument")

/-- The code, and what stands behind the comma. -/
def splitCode (args : List Char) : List Char × List Char :=
  match cut ',' args with
  | some (code, rest) => (trim code, trim rest)
  | none => (trim args, [])

/-- What `parse` does behind the parentheses. -/
def parseArgs (line : SourceLine) (args : List Char) :
    Except ParseError (List Char × Option (List Char)) := do
  let (code, named) := splitCode args
  if trim args = [] then
    .error (lineError line ("`@doctor.allow(...)` requires a rule code, " ++
      "e.g. `@doctor.allow(LZI-FILE-SIZE-001, reason: \"why\")`"))
  else if code = [] then .error (lineError line "`@doctor.allow(...)` requires a rule code")
  else if ':' ∈ code then
    .error (lineError line
      "the first `@doctor.allow(...)` argument is the bare rule code (no `:`)")
  else
    let arguments ← parseNamedArgs line named
    let reason ← arguments.foldlM (parseReason line) none
    .ok (code, reason)

def parse (line : SourceLine) (scope : DoctorAllowScope) : Except ParseError DoctorAllowDecl :=
  match (trimStart line.text).dropPrefix? nodeHead with
  | none => .error (lineError line "expected `@doctor.allow(...)` waiver annotation")
  | some rest => do
      let (head, args) ← splitCallSignature line rest
      if head ≠ [] then
        .error (lineError line ("`@doctor.allow` takes its code in parentheses, " ++
          "e.g. `@doctor.allow(CODE, reason: \"why\")`"))
      else
        let (code, reason) ← parseArgs line args
        .ok ⟨code, reason, scope, false, some line.span⟩

/-! ### Comments -/

def keyword : List Char := "doctor:allow".toList

def extractReasonAfter (afterKeyword : List Char) : Option (List Char) := do
  let rest ← (cut '"' afterKeyword).map Prod.snd
  (cut '"' rest).map Prod.fst

/-- The reason, in the text that begins with the code. -/
def legacyReason (after : List Char) : Option (List Char) :=
  (find "reason".toList (lower after)).bind fun rpos =>
    extractReasonAfter (after.drop (rpos + "reason".length))

def recognizeLegacyCommentLine (line : List Char) : Option (List Char × Option (List Char)) := do
  let pos ← find keyword (lower line)
  if '#' ∈ line.take pos then
    let after := trimStart (line.drop (pos + keyword.length))
    let code ← (words after).head?
    some (code, legacyReason after)
  else none

end Lazuli.Doctor
