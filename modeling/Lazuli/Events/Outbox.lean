import Lazuli.General.Program
import Mathlib.Data.List.Sort
import Mathlib.Logic.Function.Basic

/-!
The transactional outbox and the receivers' inbox (`runtime/go/lazuli/events/outbox.go` and
`inbox.go`, `migrations/002_create_lazuli_outbox.sql` and `003_create_lazuli_inbox.sql`).

A pump and a receiver are programs over the two tables, a transport and the handler of the
author. The transport is whatever a `Dispatcher` wraps: receivers may get a row from the moment
`Dispatch` is called, more than once, and whether it then returns nil or not.
-/

namespace Lazuli.Events

open Lazuli.General

structure OutboxRow where
  id : Nat
  envelopeID : String
  eventName : String
  payload : List UInt8
  createdAt : Int
  deriving DecidableEq

/-! ### Operations -/

inductive Op where
  | selectUndispatched (limit : Nat)
  | handOver (row : OutboxRow)
  | dispatchReturns (row : OutboxRow)
  | markDispatched (id : Nat)
  | receive
  | selectSeen (envelopeID : String)
  | handle (row : OutboxRow)
  | insertSeen (envelopeID eventName : String)
  deriving DecidableEq

@[reducible] def Op.Res : Op → Type
  | .selectUndispatched _ => Except String (List OutboxRow)
  | .handOver _ => Unit
  | .dispatchReturns _ => Except String Unit
  | .markDispatched _ => Except String Unit
  | .receive => Option OutboxRow
  | .selectSeen _ => Except String Bool
  | .handle _ => Except String Unit
  | .insertSeen .. => Except String Unit

abbrev EventProgram (α : Type) := Program Op.Res α

/-! ### The pump -/

def dispatch (row : OutboxRow) : EventProgram (Except String Unit) :=
  .call (.handOver row) fun _ => .call (.dispatchReturns row) .done

/-- The number of rows that were dispatched and marked, and the error that ended the pass. -/
structure Pumped where
  dispatched : Nat
  err : Option String
  deriving DecidableEq

/-- A row whose dispatch fails is left, one that cannot be marked ends the pass. -/
def pumpRows : List OutboxRow → Nat → EventProgram Pumped
  | [], dispatched => .done ⟨dispatched, none⟩
  | row :: rows, dispatched =>
      (dispatch row).bind fun
        | .error _ => pumpRows rows dispatched
        | .ok _ => .call (.markDispatched row.id) fun
            | .error message => .done ⟨dispatched, some message⟩
            | .ok _ => pumpRows rows (dispatched + 1)

def pumpOnce (limit : Int) : EventProgram Pumped :=
  let limit := if limit ≤ 0 then 100 else limit.toNat
  .call (.selectUndispatched limit) fun
    | .error message => .done ⟨0, some message⟩
    | .ok batch => pumpRows batch 0

/-! ### The receiver -/

def alreadySeen (envelopeID : String) : EventProgram (Except String Bool) :=
  .call (.selectSeen envelopeID) .done

def markSeen (envelopeID eventName : String) : EventProgram (Except String Unit) :=
  .call (.insertSeen envelopeID eventName) .done

/-- The contract of `InboxDedup`: the handler runs for an envelope that has not been seen, and
after its success the envelope is marked. -/
def receiveRow (row : OutboxRow) : EventProgram (Except String Unit) :=
  (alreadySeen row.envelopeID).bind fun
    | .error message => .done (.error message)
    | .ok true => .done (.ok ())
    | .ok false => .call (.handle row) fun
        | .error message => .done (.error message)
        | .ok _ => markSeen row.envelopeID row.eventName

def receive : EventProgram (Except String Unit) :=
  .call .receive fun
    | none => .done (.ok ())
    | some row => receiveRow row

/-! ### The tables -/

/-- A row of the outbox. -/
structure Stored where
  row : OutboxRow
  dispatchedAt : Option Int
  deriving DecidableEq

/-- The tables, and the rows that were handed over, the latest first. -/
structure Db where
  outbox : List Stored
  inbox : String → Option String
  handed : List OutboxRow
  clock : Int

/-- How an operation goes: its statement, what the handler or `Dispatch` returns, and which row
the transport delivers. -/
structure Answer where
  reply : Reply
  returned : Except String Unit
  delivery : Nat

inductive Event where
  | insert (row : OutboxRow)
  | wait (d : Nat)
  deriving DecidableEq

namespace Db

def undispatched (db : Db) (limit : Nat) : List OutboxRow :=
  let rows := (db.outbox.filter fun stored => stored.dispatchedAt.isNone).map Stored.row
  (rows.insertionSort fun a b => a.id ≤ b.id).take limit

def markDispatched (db : Db) (id : Nat) : Db :=
  let mark (stored : Stored) : Stored :=
    if stored.row.id = id then { stored with dispatchedAt := some db.clock } else stored
  { db with outbox := db.outbox.map mark }

/-- `ON CONFLICT DO NOTHING`. -/
def insertSeen (db : Db) (envelopeID eventName : String) : Db :=
  match db.inbox envelopeID with
  | some _ => db
  | none => { db with inbox := Function.update db.inbox envelopeID (some eventName) }

def exec : (op : Op) → Answer → Db → Db × op.Res
  | .selectUndispatched limit, a, db => a.reply.perform db (db, db.undispatched limit)
  | .handOver row, _, db => ({ db with handed := row :: db.handed }, ())
  | .dispatchReturns _, a, db => (db, a.returned)
  | .markDispatched id, a, db => a.reply.perform db (db.markDispatched id, ())
  | .receive, a, db => (db, db.handed[a.delivery]?)
  | .selectSeen envelopeID, a, db => a.reply.perform db (db, (db.inbox envelopeID).isSome)
  | .handle _, a, db => (db, a.returned)
  | .insertSeen envelopeID eventName, a, db =>
      a.reply.perform db (db.insertSeen envelopeID eventName, ())

/-- Producers insert rows under new ids. -/
def outside : Event → Db → Db
  | .insert row, db =>
      if db.outbox.any fun stored => stored.row.id = row.id then db
      else { db with outbox := db.outbox ++ [⟨row, none⟩] }
  | .wait d, db => { db with clock := db.clock + d }

end Db

def tables : Machine Db Op.Res Answer Event where
  exec := Db.exec
  outside := Db.outside

end Lazuli.Events
