import Mathlib.Data.List.Nodup
import Mathlib.Data.Finset.Dedup
import Lazuli.General.Closure

/-!
Session rows and the statements that refresh rotation runs on them
(`runtime/go/lazuli/auth/session.go`, `refresh.go`).

A `SessionTable` is the generated table of one session resource: its primary key is
unique and assigned in increasing order, and `parent_session_id` references a row of
the same table (`ON DELETE SET NULL`). Both facts are fields, so every statement
below has to keep them. Each statement is one atomic function of the table.
-/

namespace Lazuli.Auth

open Lazuli.General

/-! Ids are integers; times and durations are integer nanoseconds. -/

def second : Int := 1000000000
def minute : Int := 60 * second
def hour : Int := 60 * minute

/-! ### The contract -/

inductive TheftAction where
  | revokeSessionFamily
  | revokeUser
  | other (text : String)
  deriving DecidableEq

/-- The values a time to live can hold: a duration, a text with what
`parseSessionDuration` makes of it, or anything else. -/
inductive RawTTL where
  | duration (d : Int)
  | text (parsed : Option Int)
  | other
  deriving DecidableEq

/-- Unparseable and non-positive values fall back to a day. -/
def sessionTTL : RawTTL → Int
  | .duration d => if d > 0 then d else 24 * hour
  | .text (some d) => if d > 0 then d else 24 * hour
  | .text none => 24 * hour
  | .other => 24 * hour

structure SessionsContract where
  resource : String
  accessTTL : Option RawTTL
  refreshTTL : Option RawTTL
  rotationGrace : Option RawTTL
  theftDetectionAction : TheftAction
  deriving DecidableEq

def accessTTL (c : SessionsContract) : Int :=
  match c.accessTTL with
  | some raw => sessionTTL raw
  | none => 15 * minute

def refreshTTL (c : SessionsContract) : Int :=
  match c.refreshTTL with
  | some raw => sessionTTL raw
  | none => 30 * 24 * hour

def rotationGrace (c : SessionsContract) : Int :=
  match c.rotationGrace with
  | some raw => sessionTTL raw
  | none => 30 * second

/-- The snake case table name of a resource. -/
def sessionResourceTable (name : String) : String :=
  String.ofList <| name.toList.zipIdx.flatMap fun (r, i) =>
    if 'A' ≤ r ∧ r ≤ 'Z' then
      (if i > 0 then ['_'] else []) ++ [Char.ofNat (r.toNat + 32)]
    else [r]

/-- The table that `quoteSessionIdent(c.Resource)` names. -/
def SessionsContract.table (c : SessionsContract) : String := sessionResourceTable c.resource

/-! ### Rows and tables -/

structure SessionRow where
  id : Int
  user : Int
  orgID : Option Int
  org : Option Int
  tokenHash : String
  refreshTokenHash : String
  refreshExpiresAt : Option Int
  expiresAt : Int
  createdAt : Option Int
  revokedAt : Option Int
  theftDetectedAt : Option Int
  parentSessionID : Option Int
  deriving DecidableEq

/-- `hasOrg` says whether the table has the tenancy columns; `nextID` is the
sequence behind the primary key, which never hands out an id twice. -/
structure SessionTable where
  hasOrg : Bool
  rows : List SessionRow
  nextID : Int
  ids_nodup : (rows.map (·.id)).Nodup
  ids_lt : ∀ r ∈ rows, r.id < nextID
  parents : ∀ r ∈ rows, ∀ p ∈ r.parentSessionID, ∃ q ∈ rows, q.id = p

namespace SessionTable

variable {t : SessionTable} {r s : SessionRow}

/-- The primary key determines the row. -/
theorem eq_of_id (hr : r ∈ t.rows) (hs : s ∈ t.rows) (same : r.id = s.id) : r = s :=
  List.inj_on_of_nodup_map t.ids_nodup hr hs same

/-- The rows with a given id, or rather whether there is one. -/
def hasID (t : SessionTable) (id : Int) : Prop := ∃ q ∈ t.rows, q.id = id

instance (t : SessionTable) (id : Int) : Decidable (t.hasID id) :=
  inferInstanceAs (Decidable (∃ q ∈ t.rows, q.id = id))

/-- An update that touches neither the key nor the parent. -/
def update (t : SessionTable) (set : SessionRow → SessionRow)
    (key : ∀ r, (set r).id = r.id) (parent : ∀ r, (set r).parentSessionID = r.parentSessionID) :
    SessionTable where
  hasOrg := t.hasOrg
  rows := t.rows.map set
  nextID := t.nextID
  ids_nodup := by
    have same : (t.rows.map set).map (·.id) = t.rows.map (·.id) := by
      rw [List.map_map]
      exact List.map_congr_left fun r _ => key r
    rw [same]
    exact t.ids_nodup
  ids_lt := by
    intro r mem
    obtain ⟨q, hq, rfl⟩ := List.mem_map.mp mem
    rw [key]
    exact t.ids_lt q hq
  parents := by
    intro r mem p hp
    obtain ⟨q, hq, rfl⟩ := List.mem_map.mp mem
    rw [parent] at hp
    obtain ⟨o, ho, rfl⟩ := t.parents q hq p hp
    exact ⟨set o, List.mem_map_of_mem ho, key o⟩

/-- Append a row under the next id. Its parent must be there. -/
def insert (t : SessionTable) (draft : SessionRow)
    (parent : ∀ p ∈ draft.parentSessionID, t.hasID p) : SessionTable where
  hasOrg := t.hasOrg
  rows := t.rows ++ [{ draft with id := t.nextID }]
  nextID := t.nextID + 1
  ids_nodup := by
    rw [List.map_append, List.nodup_append]
    refine ⟨t.ids_nodup, List.nodup_singleton _, ?_⟩
    intro a ha b hb
    obtain ⟨q, hq, rfl⟩ := List.mem_map.mp ha
    have fresh := t.ids_lt q hq
    obtain rfl : b = t.nextID := by simpa using hb
    omega
  ids_lt := by
    intro r mem
    rcases List.mem_append.mp mem with old | new
    · have := t.ids_lt r old
      omega
    · obtain rfl := List.mem_singleton.mp new
      simp only
      omega
  parents := by
    intro r mem p hp
    have present : t.hasID p := by
      rcases List.mem_append.mp mem with old | new
      · exact t.parents r old p hp
      · obtain rfl := List.mem_singleton.mp new
        exact parent p hp
    obtain ⟨q, hq, same⟩ := present
    exact ⟨q, List.mem_append_left _ hq, same⟩

/-- Clear a reference to a row that `gone` selects. -/
def orphan (rows : List SessionRow) (gone : SessionRow → Bool) (r : SessionRow) : SessionRow :=
  { r with parentSessionID := r.parentSessionID.filter fun p =>
      ∃ q ∈ rows, q.id = p ∧ gone q = false }

/-- `DELETE`: the children of a deleted row lose their parent. -/
def delete (t : SessionTable) (gone : SessionRow → Bool) : SessionTable where
  hasOrg := t.hasOrg
  rows := (t.rows.filter fun r => gone r = false).map (orphan t.rows gone)
  nextID := t.nextID
  ids_nodup := by
    rw [List.map_map]
    exact t.ids_nodup.sublist (List.filter_sublist.map _)
  ids_lt := by
    intro r mem
    obtain ⟨q, hq, rfl⟩ := List.mem_map.mp mem
    exact t.ids_lt q (List.mem_of_mem_filter hq)
  parents := by
    intro r mem p hp
    obtain ⟨q, -, rfl⟩ := List.mem_map.mp mem
    obtain ⟨o, ho, rfl, kept⟩ := of_decide_eq_true (Option.mem_filter_iff.mp hp).2
    exact ⟨orphan t.rows gone o,
      List.mem_map_of_mem (List.mem_filter.mpr ⟨ho, by simpa using kept⟩), rfl⟩

end SessionTable

end Lazuli.Auth
