import Lazuli.General.GoDuration
import Lazuli.General.Program
import Lazuli.General.Text
import Mathlib.Algebra.Group.Nat.Defs

/-!
Pollers (`runtime/go/lazuli/poller/contract.go`, `handle.go`, and `EvalPredicate` in
`dispatcher.go`).

`ResolveOne` is a program over the `QueryRunner` of a database, the handler of the author and
the event bus. A row keeps the three cursor fields apart from its other columns, so no column
that a result or a quirk writes can be one of them.
-/

namespace Lazuli.Poller

open Lazuli.General

/-! ### Backoff -/

/-- A cap of zero or less is no cap. -/
def capped (cap d : Int) : Int := if 0 < cap ∧ cap < d then cap else d

inductive Backoff where
  | fixed (base : Int)
  | linear (base cap : Int)
  | exponential (base cap : Int)
  deriving DecidableEq

/-- The loop of `Exponential.NextDelay`, with the rounds that are left. -/
def doubleDelay (cap : Int) : Nat → Int → Int
  | 0, d => capped cap d
  | rounds + 1, d =>
      if 0 < cap ∧ cap ≤ d then cap
      else
        let d := wrap64 (d * 2)
        if d < 0 then if 0 < cap then cap else 2 ^ 62
        else doubleDelay cap rounds d

def Backoff.nextDelay (attempts : Nat) : Backoff → Int
  | .fixed base => base
  | .linear base cap => capped cap (wrap64 (base * attempts))
  | .exponential base cap => if attempts = 0 then 0 else doubleDelay cap (attempts - 1) base

/-! ### Specs -/

structure Cursor where
  nextAtField : String
  resolvedAtField : String
  attemptsField : String
  deriving DecidableEq

structure Retry where
  maxAttempts : Nat
  backoff : Backoff
  deriving DecidableEq

structure GenderFlipOnce where
  when : String
  counterField : String
  genderField : String
  deriving DecidableEq

structure Tick where
  every : Int
  batch : Nat
  deriving DecidableEq

structure Spec where
  name : String
  source : String
  cursor : Cursor
  retry : Retry
  terminalStatusField : String
  terminalResultField : String
  tick : Tick
  emits : List String
  retryQuirks : List GenderFlipOnce
  deriving DecidableEq

structure TerminalResult (R : Type) where
  status : String
  result : R
  deriving DecidableEq

structure PendingResult where
  status : String
  nextCheckAt : Option Int
  consultID : Option String
  deriving DecidableEq

/-- Nothing keeps a handler from setting both, or neither. -/
structure ResolveResult (R : Type) where
  terminal : Option (TerminalResult R)
  pending : Option PendingResult
  deriving DecidableEq

/-! ### Rows -/

/-- A stored row, and what is loaded of it. -/
structure Raw (V : Type) where
  attempts : Nat
  nextAt : Int
  resolvedAt : Option Int
  columns : String → V

/-- What the database does with the other columns: how `fmt.Sprint` shows a field of a loaded
row, how results are stored, and the update of a quirk, which finds no row once its counter
is set. -/
structure Columns (V R : Type) where
  sprint : Raw V → String → Option String
  statusValue : String → V
  resultValue : R → V
  flipGender : GenderFlipOnce → (String → V) → Option (String → V)

/-- The typed spec: rows are decoded, and the accessor reports the counter of the row. -/
structure Handle (V Row R : Type) where
  spec : Spec
  decode : Raw V → Except String Row
  attempts : Row → Nat
  reports : ∀ raw row, decode raw = .ok row → attempts row = raw.attempts

/-! ### Predicates -/

def unquote (s : List Char) : Option (List Char) :=
  (s.dropPrefix? ['"']).bind fun s => s.dropSuffix? ['"']

/-- Only `row.<field> == "<literal>"` can hold. -/
def evalPredicate {V R : Type} (columns : Columns V R) (pred : String) (raw : Raw V) : Bool :=
  match (Text.trim pred.toList).dropInfix? "==".toList with
  | none => false
  | some (lhs, rhs) =>
      match (Text.trim lhs).dropPrefix? "row.".toList, unquote (Text.trim rhs) with
      | some field, some want =>
          columns.sprint raw (String.ofList field) = some (String.ofList want)
      | _, _ => false

/-! ### Operations -/

/-- Rows are loaded with values of type `V`. -/
inductive Op (V Row R : Type) where
  | loadRow (table id : String)
  | applyQuirk (table id : String) (quirk : GenderFlipOnce)
  | resolve (row : Row)
  | now
  | commitTerminal (table : String) (cursor : Cursor) (id : String) (attempts : Nat)
      (statusField resultField : String) (terminal : TerminalResult R)
  | commitPending (table : String) (cursor : Cursor) (id : String) (attempts : Nat) (delay : Int)
  | publish (event id status : String)

/-- An update answers with the number of rows it affected. -/
@[reducible] def Op.Res {V Row R : Type} : Op V Row R → Type
  | .loadRow .. => Except String (Raw V)
  | .applyQuirk .. => Except String Nat
  | .resolve _ => Except String (ResolveResult R)
  | .now => Int
  | .commitTerminal .. => Except String Nat
  | .commitPending .. => Except String Nat
  | .publish .. => Except String Unit

abbrev PollProgram (V Row R α : Type) := @Program (Op V Row R) Op.Res α

inductive PollError where
  | db (message : String)
  | decode (message : String)
  | handler (message : String)
  | resolveResultEmpty (name : String)
  deriving DecidableEq

def PollError.message : PollError → String
  | .db message | .decode message | .handler message => message
  | .resolveResultEmpty name =>
      s!"poller: handler returned empty ResolveResult: poller \"{name}\""

/-! ### Resolving a row -/

section ResolveOne

variable {V Row R : Type} (columns : Columns V R) (h : Handle V Row R)

/-- The row as the handler will see it. Whether a quirk is applied is not looked at, and the
old row stays when it cannot be loaded again. -/
def applyQuirks (id : String) : List GenderFlipOnce → Raw V → PollProgram V Row R (Raw V)
  | [], raw => .done raw
  | quirk :: quirks, raw =>
      if evalPredicate columns quirk.when raw then
        .call (.applyQuirk h.spec.source id quirk) fun _ =>
          .call (.loadRow h.spec.source id) fun
            | .ok fresh => applyQuirks id quirks fresh
            | .error _ => applyQuirks id quirks raw
      else applyQuirks id quirks raw

def publishAll (id status : String) :
    List String → PollProgram V Row R (Except PollError Unit)
  | [] => .done (.ok ())
  | event :: events => .call (.publish event id status) fun _ => publishAll id status events

/-- The events follow whatever number of rows the update has affected. -/
def commitTerminal (bus : Bool) (id : String) (attempts : Nat) (terminal : TerminalResult R) :
    PollProgram V Row R (Except PollError Unit) :=
  .call (.commitTerminal h.spec.source h.spec.cursor id attempts h.spec.terminalStatusField
      h.spec.terminalResultField terminal) fun
    | .error message => .done (.error (.db message))
    | .ok _ => if bus then publishAll id terminal.status h.spec.emits else .done (.ok ())

def commitPending (id : String) (attempts : Nat) (delay : Int) :
    PollProgram V Row R (Except PollError Unit) :=
  .call (.commitPending h.spec.source h.spec.cursor id attempts delay) fun
    | .error message => .done (.error (.db message))
    | .ok _ => .done (.ok ())

/-- The delay after one more attempt, which a 32-bit counter counts. -/
def backoffDelay (attempts : Nat) : Int :=
  h.spec.retry.backoff.nextDelay ((attempts + 1) % 2 ^ 32)

/-- What becomes of the handler's result. An empty one leaves the row as it is. -/
def settle (bus : Bool) (id : String) (attempts : Nat) :
    Except String (ResolveResult R) → PollProgram V Row R (Except PollError Unit)
  | .error message =>
      (commitPending h id attempts (backoffDelay h attempts)).map fun _ =>
        .error (.handler message)
  | .ok ⟨some terminal, _⟩ => commitTerminal h bus id attempts terminal
  | .ok ⟨none, some pending⟩ =>
      match pending.nextCheckAt with
      | none => commitPending h id attempts (backoffDelay h attempts)
      | some nextCheckAt => .call .now fun now =>
          commitPending h id attempts (saturate64 (nextCheckAt - now))
  | .ok ⟨none, none⟩ => .done (.error (.resolveResultEmpty h.spec.name))

def resolveRow (bus : Bool) (id : String) (raw : Raw V) :
    PollProgram V Row R (Except PollError Unit) :=
  match h.decode raw with
  | .error message => .done (.error (.decode message))
  | .ok row => .call (.resolve row) (settle h bus id (h.attempts row))

def resolveOne (bus : Bool) (id : String) : PollProgram V Row R (Except PollError Unit) :=
  .call (.loadRow h.spec.source id) fun
    | .error message => .done (.error (.db message))
    | .ok raw => (applyQuirks columns h id h.spec.retryQuirks raw).bind (resolveRow h bus id)

end ResolveOne

end Lazuli.Poller
