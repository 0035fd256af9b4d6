import Mathlib.Data.List.Basic

/-!
The request context and the error envelope (`runtime/go/lazuli/ctx.go`, `error.go`).

Of the context this keeps what policies, scoping, bindings and cache keys read. Ids are
integers, a time is an integer number of nanoseconds, and Go's zero time is `none`.
-/

namespace Lazuli.Runtime

/-- The kind of caller. A context that nobody filled in has the empty text. -/
abbrev Actor := String

def ActorUser : Actor := "user"
def ActorSystem : Actor := "system"
def ActorAnonymous : Actor := "anonymous"

structure User where
  id : Int
  orgID : Int
  roles : List String
  deriving DecidableEq

structure Tenant where
  orgID : Int
  deriving DecidableEq

structure Ctx where
  actor : Actor
  user : Option User
  tenant : Option Tenant
  now : Option Int
  deriving DecidableEq

/-! ### Errors -/

def CodeInternal : String := "internal"
def CodePolicyDenied : String := "policy_denied"
def CodeBadRequest : String := "bad_request"
def CodeNotFound : String := "not_found"
def CodeTenantMismatch : String := "tenant_mismatch"
def CodeLifecycleStateMismatch : String := "lifecycle_state_mismatch"

/-- The sentinel errors an envelope wraps. -/
inductive Sentinel where
  | tenantRequired
  | lifecycleStateMismatch
  deriving DecidableEq

structure Error where
  status : Nat
  code : String
  message : String
  messageKey : String := ""
  cause : Option Sentinel := none
  deriving DecidableEq

/-- The envelope that hides what went wrong; `what` is all a client sees. -/
def internalServerError (what : String) : Error :=
  { status := 500, code := CodeInternal, message := what }

def tenantRequiredError : Error :=
  { status := 500, code := CodeInternal, message := "internal server error"
    cause := some .tenantRequired }

end Lazuli.Runtime

/-!
Go values behind an `any`, and the dotted paths that read them
(`readPath`, `resolveField`, `pascalCase` in `runtime/go/lazuli/handle.go`).

A command input is a flat generated struct: each field has its Go name, its raw `json`
tag, and a slot that holds the value or points to it. `readPath` is the only way the
runtime looks inside.
-/

namespace Lazuli.Runtime

mutual

/-- What an `any` holds. The two pointers are not nil. `list` is a slice of `any`, of strings or
of 64-bit integers, and `nilList` a nil one. `other` is a value of any kind the runtime does not
look into (unsigned, float, another slice, map, another pointer, ...): what `%v` prints for it,
and whether it is nil or the zero value of its kind. -/
inductive Value where
  | nil
  | bool (b : Bool)
  | int (n : Int)
  | string (s : String)
  | stringPointer (s : String)
  | time (ns : Int)
  | bytes (b : List UInt8)
  | bytesPointer (b : List UInt8)
  | list (items : Items)
  | nilList
  | struct (fields : Fields)
  | other (text : String) (zero : Bool)
  deriving DecidableEq

/-- A place of a struct, or an argument: a value, or a pointer to one. -/
inductive Slot where
  | direct (v : Value)
  | nilPointer
  | pointer (v : Value)
  deriving DecidableEq

inductive Fields where
  | nil
  | cons (name json : String) (slot : Slot) (rest : Fields)
  deriving DecidableEq

inductive Items where
  | nil
  | cons (v : Value) (rest : Items)
  deriving DecidableEq

end

def Items.toList : Items → List Value
  | .nil => []
  | .cons v rest => v :: rest.toList

/-! ### Field names -/

def isLower (r : Char) : Bool := 'a' ≤ r ∧ r ≤ 'z'

def isDigit (r : Char) : Bool := '0' ≤ r ∧ r ≤ '9'

def isUpper (r : Char) : Bool := 'A' ≤ r ∧ r ≤ 'Z'

theorem isLower_eq : isLower = Char.isLower := by
  funext c
  exact Bool.decide_and _ _

theorem isDigit_eq : isDigit = Char.isDigit := by
  funext c
  exact Bool.decide_and _ _

theorem isUpper_eq : isUpper = Char.isUpper := by
  funext c
  exact rfl

/-- The word built so far, unless there is none. -/
def flush (current : List Char) : List (List Char) :=
  if current.isEmpty then [] else [current]

theorem flush_eq {current : List Char} (h : current ≠ []) : flush current = [current] := by
  cases current with
  | nil => exact absurd rfl h
  | cons c current => rfl

/-- `splitWords` from some character on: `prev` is the one before it, `current` the word
being built. -/
def splitWordsFrom (prev : Option Char) (current : List Char) : List Char → List (List Char)
  | [] => flush current
  | ch :: rest =>
      if ch = '_' ∨ ch = '-' then flush current ++ splitWordsFrom (some ch) [] rest
      else if isUpper ch then
        let prevLower := prev.any fun r => isLower r || isDigit r
        let nextLower := rest.head?.any isLower
        if !current.isEmpty && (prevLower || nextLower) then
          -- the middle of a run of capitals stays in the word
          if !nextLower then splitWordsFrom (some ch) (current ++ [ch]) rest
          else flush current ++ splitWordsFrom (some ch) [ch] rest
        else splitWordsFrom (some ch) (current ++ [ch]) rest
      else splitWordsFrom (some ch) (current ++ [ch]) rest

def splitWords (s : String) : List (List Char) := splitWordsFrom none [] s.toList

def isAcronym (word : List Char) : Bool :=
  (String.ofList (word.map Char.toLower)) ∈
    ["id", "url", "uri", "api", "html", "json", "sql", "ttl", "uuid"]

def capitalized (word : List Char) : List Char :=
  match word with
  | [] => []
  | first :: rest =>
      if isAcronym word then word.map Char.toUpper else first.toUpper :: rest

def pascalCase (s : String) : String :=
  String.ofList ((splitWords s).flatMap capitalized)

/-- The name in a `json` tag, without the options after the first comma. -/
def jsonTagName (tag : String) : String :=
  if tag = "" ∨ tag = "-" then ""
  else String.ofList (tag.toList.takeWhile (· ≠ ','))

def equalFold (s t : String) : Bool :=
  s.toList.map Char.toLower = t.toList.map Char.toLower

/-! ### Paths -/

/-- The first field whose name and tag satisfy `p`. -/
def Fields.find (p : String → String → Bool) : Fields → Option Slot
  | .nil => none
  | .cons name json slot rest => if p name json then some slot else rest.find p

/-- The four attempts, in order: the exact name, the name the emitter makes of it, the
wire key, and the name up to case. -/
def resolveField (fields : Fields) (part : String) : Option Slot :=
  (fields.find fun name _ => name = part) <|>
  (fields.find fun name _ => name = pascalCase part) <|>
  (fields.find fun _ json => jsonTagName json = part) <|>
  (fields.find fun name _ => equalFold name part)

def pathHitNonStruct (path : String) : Error :=
  { status := 500, code := CodeInternal
    message := "input path " ++ path ++ " hit non-struct value" }

def fieldNotFound (path : String) : Error :=
  { status := 400, code := CodeBadRequest, message := "input field not found: " ++ path }

/-- One step for each part of the path. -/
def walkPath (path : String) (v : Slot) : List String → Except Error Slot
  | [] => .ok v
  | part :: parts =>
      match v with
      | .direct (.struct fields) =>
          match resolveField fields part with
          | none => .error (fieldNotFound path)
          | some field => walkPath path field parts
      | _ => .error (pathHitNonStruct path)

def splitPath (path : String) : List String :=
  (path.toList.splitOn '.').map String.ofList

/-- A pointer is followed at the start and at the end, never in between. -/
def readPath (v : Slot) (path : String) : Except Error Value :=
  let v := match v with
    | .pointer target => .direct target
    | .nilPointer => .direct .nil
    | .direct v => .direct v
  match walkPath path v (splitPath path) with
  | .error err => .error err
  | .ok .nilPointer => .ok .nil
  | .ok (.pointer target) => .ok target
  | .ok (.direct value) => .ok value

example : readPath (.pointer (.struct (.cons "AgencyID" "agency_id,omitempty"
    (.pointer (.int 7)) .nil))) "agency_id" = .ok (.int 7) := by decide

/-! ### Zero values and printing -/

mutual

def Value.isZero : Value → Bool
  | .nil => true
  | .bool b => !b
  | .int n => n = 0
  | .string s => s = ""
  | .stringPointer _ => false
  | .time _ => false
  | .bytes _ => false
  | .bytesPointer _ => false
  | .list _ => false
  | .nilList => true
  | .struct fields => fields.allZero
  | .other _ zero => zero

def Slot.isZero : Slot → Bool
  | .direct v => v.isZero
  | .nilPointer => true
  | .pointer _ => false

def Fields.allZero : Fields → Bool
  | .nil => true
  | .cons _ _ slot rest => slot.isZero && rest.allZero

end

/-- An optional filter whose argument is this is left out. -/
def isNilOrZero (v : Value) : Bool := v.isZero

mutual

/-- What `%v` prints. An address is not a value of this model, so a pointer that is not
followed prints as a bare `0x`. -/
def Value.text : Value → String
  | .nil => "<nil>"
  | .bool b => if b then "true" else "false"
  | .int n => toString n
  | .string s => s
  | .stringPointer _ => "0x"
  | .time ns => toString ns
  | .bytes b => "[" ++ " ".intercalate (b.map toString) ++ "]"
  | .bytesPointer b => "&[" ++ " ".intercalate (b.map toString) ++ "]"
  | .list items => "[" ++ items.text ++ "]"
  | .nilList => "[]"
  | .struct fields => "\x7b" ++ fields.text ++ "\x7d"
  | .other text _ => text

def Slot.text : Slot → String
  | .direct v => v.text
  | .nilPointer => "<nil>"
  | .pointer _ => "0x"

def Fields.text : Fields → String
  | .nil => ""
  | .cons _ _ slot .nil => slot.text
  | .cons _ _ slot rest => slot.text ++ " " ++ rest.text

def Items.text : Items → String
  | .nil => ""
  | .cons v .nil => v.text
  | .cons v rest => v.text ++ " " ++ rest.text

end

/-- The slices of ids that `reorder` takes. -/
def toAnySlice : Value → Option (List Value)
  | .list items => some items.toList
  | .nilList => some []
  | _ => none

end Lazuli.Runtime
