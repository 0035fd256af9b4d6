import Lazuli.General.Program
import Lazuli.Poller.Contract
import Mathlib.Logic.Function.Basic

/-!
The rows that pollers work on (`QueryRunner` in `runtime/go/lazuli/poller/dispatcher.go`).

Every statement is one step on the database. The updates are conditional as the interface
documents them: both commits ask for the attempts counter, and only the pending one changes
it.
-/

namespace Lazuli.Poller

open Lazuli.General

structure Db (V : Type) where
  rows : String → String → Option (Raw V)
  clock : Int

/-- How a statement goes, and what a handler returns. -/
structure Answer (R : Type) where
  reply : Reply
  handled : Except String (ResolveResult R)

namespace Db

variable {V Row R : Type}

def setRow (db : Db V) (table id : String) (raw : Raw V) : Db V :=
  let rows := Function.update (db.rows table) id (some raw)
  { db with rows := Function.update db.rows table rows }

/-- The second component is the number of rows affected. -/
def update (db : Db V) (table id : String) (f : Raw V → Option (Raw V)) : Db V × Nat :=
  match (db.rows table id).bind f with
  | none => (db, 0)
  | some raw => (db.setRow table id raw, 1)

/-- An empty field name means that nothing is written. -/
def writeColumn (field : String) (v : V) (columns : String → V) : String → V :=
  if field = "" then columns else Function.update columns field v

def terminalUpdate (columns : Columns V R) (statusField resultField : String)
    (terminal : TerminalResult R) (attempts : Nat) (now : Int) (raw : Raw V) :
    Option (Raw V) :=
  if raw.attempts = attempts then
    some { raw with
      resolvedAt := some now
      columns := writeColumn resultField (columns.resultValue terminal.result)
        (writeColumn statusField (columns.statusValue terminal.status) raw.columns) }
  else none

def pendingUpdate (attempts : Nat) (delay now : Int) (raw : Raw V) : Option (Raw V) :=
  if raw.attempts = attempts then
    some { raw with attempts := raw.attempts + 1, nextAt := now + delay }
  else none

def quirkUpdate (columns : Columns V R) (quirk : GenderFlipOnce) (raw : Raw V) :
    Option (Raw V) :=
  (columns.flipGender quirk raw.columns).map fun flipped => { raw with columns := flipped }

def load (db : Db V) (table id : String) : Reply → Except String (Raw V)
  | .failed message | .lost message => .error message
  | .done => (db.rows table id).elim (.error "no rows in result set") .ok

def exec (columns : Columns V R) : (op : Op V Row R) → Answer R → Db V → Db V × op.Res
  | .loadRow table id, a, db => (db, db.load table id a.reply)
  | .applyQuirk table id quirk, a, db =>
      a.reply.perform db (db.update table id (quirkUpdate columns quirk))
  | .resolve _, a, db => (db, a.handled)
  | .now, _, db => (db, db.clock)
  | .commitTerminal table _ id attempts statusField resultField terminal, a, db =>
      a.reply.perform db (db.update table id
        (terminalUpdate columns statusField resultField terminal attempts db.clock))
  | .commitPending table _ id attempts delay, a, db =>
      a.reply.perform db (db.update table id (pendingUpdate attempts delay db.clock))
  | .publish .., a, db => a.reply.perform db (db, ())

/-- Time goes by. -/
def outside (d : Nat) (db : Db V) : Db V := { db with clock := db.clock + d }

end Db

def dbMachine {V R : Type} (Row : Type) (columns : Columns V R) :
    Machine (Db V) (Op.Res : Op V Row R → Type) (Answer R) Nat where
  exec := Db.exec columns
  outside := Db.outside

/-! ### What a statement does to a row -/

namespace Db

section Exec

variable {V Row R : Type} (columns : Columns V R) (db : Db V) (a : Answer R) (table id : String)
  (cursor : Cursor) (attempts : Nat)

@[simp] theorem exec_commitTerminal (statusField resultField : String)
    (terminal : TerminalResult R) :
    exec columns (.commitTerminal table cursor id attempts statusField resultField terminal :
      Op V Row R) a db = a.reply.perform db (db.update table id
        (terminalUpdate columns statusField resultField terminal attempts db.clock)) := rfl

@[simp] theorem exec_commitPending (delay : Int) :
    exec columns (.commitPending table cursor id attempts delay : Op V Row R) a db =
      a.reply.perform db (db.update table id (pendingUpdate attempts delay db.clock)) := rfl

end Exec

section Rows

variable {V Row R : Type} {columns : Columns V R} {db : Db V} {table table' id id' : String}

theorem setRow_self (db : Db V) (table id : String) (raw : Raw V) :
    (db.setRow table id raw).rows table id = some raw := by
  simp [setRow]

theorem setRow_of_ne (db : Db V) (raw : Raw V) (h : id' ≠ id ∨ table' ≠ table) :
    (db.setRow table id raw).rows table' id' = db.rows table' id' := by
  unfold setRow
  by_cases same : table' = table
  · subst same
    have other : id' ≠ id := h.resolve_right fun ne => ne rfl
    simp [other]
  · simp [same]

theorem rows_update_self {raw : Raw V} (found : db.rows table id = some raw)
    (f : Raw V → Option (Raw V)) :
    (db.update table id f).1.rows table id = some ((f raw).getD raw) := by
  cases kept : f raw with
  | none => simp [update, found, kept]
  | some raw' => simp [update, found, kept, setRow_self]

theorem rows_update_of_ne (db : Db V) (f : Raw V → Option (Raw V)) (h : id' ≠ id) :
    (db.update table id f).1.rows table id' = db.rows table id' := by
  unfold update
  split
  · rfl
  · exact setRow_of_ne db _ (.inl h)

/-- An update leaves every row as it is, or as `f` makes it. -/
theorem rows_update (f : Raw V → Option (Raw V)) (table id table' id' : String) :
    (db.update table id f).1.rows table' id' = db.rows table' id' ∨
      ∃ raw raw', db.rows table' id' = some raw ∧ f raw = some raw' ∧
        (db.update table id f).1.rows table' id' = some raw' := by
  unfold update
  cases h : (db.rows table id).bind f with
  | none => exact .inl rfl
  | some raw' =>
      obtain ⟨raw, found, kept⟩ := Option.bind_eq_some_iff.mp h
      by_cases same : id' ≠ id ∨ table' ≠ table
      · exact .inl (setRow_of_ne db raw' same)
      · obtain ⟨rfl, rfl⟩ : id' = id ∧ table' = table := by simpa using same
        exact .inr ⟨raw, raw', found, kept, setRow_self db _ _ raw'⟩

/-- The ways a row can go on: the counter only grows, and what is resolved stays so. -/
structure Later (before after : Raw V) : Prop where
  attempts : before.attempts ≤ after.attempts
  resolved : before.resolvedAt ≠ none → after.resolvedAt ≠ none

theorem Later.refl (raw : Raw V) : Later raw raw := ⟨le_rfl, id⟩

theorem later_terminalUpdate {raw raw' : Raw V} {statusField resultField : String}
    {terminal : TerminalResult R} {attempts : Nat} {now : Int}
    (h : terminalUpdate columns statusField resultField terminal attempts now raw = some raw') :
    Later raw raw' := by
  unfold terminalUpdate at h
  split at h
  · obtain rfl := Option.some.inj h
    exact ⟨le_rfl, fun _ => nofun⟩
  · cases h

theorem later_pendingUpdate {raw raw' : Raw V} {attempts : Nat} {delay now : Int}
    (h : pendingUpdate attempts delay now raw = some raw') : Later raw raw' := by
  unfold pendingUpdate at h
  split at h
  · obtain rfl := Option.some.inj h
    exact ⟨Nat.le_succ _, fun resolved => resolved⟩
  · cases h

theorem later_quirkUpdate {raw raw' : Raw V} {quirk : GenderFlipOnce}
    (h : quirkUpdate columns quirk raw = some raw') : Later raw raw' := by
  obtain ⟨flipped, -, rfl⟩ := Option.map_eq_some_iff.mp h
  exact ⟨le_rfl, fun resolved => resolved⟩

/-- A row stays where it is and goes on. -/
theorem later_exec (op : Op V Row R) (a : Answer R) {raw : Raw V}
    (h : db.rows table id = some raw) :
    ∃ raw', (exec columns op a db).1.rows table id = some raw' ∧ Later raw raw' := by
  have updated {f : Raw V → Option (Raw V)} {table' id' : String}
      (later : ∀ raw raw', f raw = some raw' → Later raw raw') :
      ∃ raw', (a.reply.perform db (db.update table' id' f)).1.rows table id = some raw' ∧
        Later raw raw' := by
    rcases a.reply.perform_cases db (db.update table' id' f) with same | ran
    · rw [same]
      exact ⟨raw, h, .refl raw⟩
    · rw [ran]
      rcases rows_update f table' id' table id with same | ⟨before, after, found, made, new⟩
      · exact ⟨raw, same.trans h, .refl raw⟩
      · obtain rfl := Option.some.inj (h.symm.trans found)
        exact ⟨after, new, later _ _ made⟩
  cases op with
  | loadRow table' id' => exact ⟨raw, h, .refl raw⟩
  | applyQuirk table' id' quirk => exact updated fun _ _ => later_quirkUpdate
  | resolve row => exact ⟨raw, h, .refl raw⟩
  | now => exact ⟨raw, h, .refl raw⟩
  | commitTerminal table' cursor id' attempts statusField resultField terminal =>
      exact updated fun _ _ => later_terminalUpdate
  | commitPending table' cursor id' attempts delay =>
      exact updated fun _ _ => later_pendingUpdate
  | publish event id' status =>
      have same : (exec columns (.publish event id' status : Op V Row R) a db).1 = db :=
        a.reply.perform_same db ()
      exact ⟨raw, same.symm ▸ h, .refl raw⟩

end Rows

end Db

/-! ### A poller on health plan consults -/

def v8Spec : Spec :=
  { name := "consult_resolution"
    source := "health_plan_consult"
    cursor := ⟨"next_v8_check_at", "resolved_at", "v8_attempts"⟩
    retry := ⟨10, .exponential 30000000000 600000000000⟩
    terminalStatusField := "status_v8"
    terminalResultField := "margin_available"
    tick := ⟨30000000000, 20⟩
    emits := ["consult_resolved"]
    retryQuirks := [⟨"row.status_v8 == \"gender_ambiguous\"", "gender_flips", "gender"⟩] }

def v8Handle : Handle String (Raw String) String :=
  { spec := v8Spec
    decode := .ok
    attempts := Raw.attempts
    reports := by
      intro raw row decoded
      rw [Except.ok.inj decoded] }

def textColumns : Columns String String :=
  { sprint := fun raw field => some (raw.columns field)
    statusValue := id
    resultValue := id
    flipGender := fun quirk columns =>
      if columns quirk.counterField = "0" then
        some (Function.update columns quirk.counterField "1")
      else none }

def consult : Raw String :=
  { attempts := 0, nextAt := 0, resolvedAt := none, columns := fun _ => "queued" }

end Lazuli.Poller
