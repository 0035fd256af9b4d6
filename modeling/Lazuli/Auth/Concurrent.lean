import Lazuli.General.Transition
import Lazuli.Auth.Consistent

/-!
Rotations that run at the same time.

`stepCall` is `RotateSession` cut at its database statements: each step of a call
runs one statement, atomically, and stores in the call's state what the code keeps
in its local variables. A `System` is a database with any number of calls in
flight; an `Act` lets a call arrive or take a step, logs a user in or deletes rows.

Two parts of the state are only there to be talked about. `born` records the rows
with a refresh token that were ever stored, also after their deletion; `issues`
records the children that were issued.

`alone_eq_rotateSession`: a call whose steps are not interleaved with anything does
what `rotateSession` does.
-/

namespace Lazuli.Auth

open Lazuli.General

/-! ### One call -/

/-- Where a call is: before the lookup in the first of the remaining contracts, before
the theft action, before the insert, or done. -/
inductive Pc where
  | lookup (h : String) (rest : List SessionsContract)
  | punish (c : SessionsContract) (r : RefreshRow)
  | issue (c : SessionsContract) (r : RefreshRow) (mark : Bool)
  | done (res : Except RotateError (String × String))

/-- A call in flight; `attempt` counts how often `RotateSession` called itself. -/
structure CallState where
  token : String
  attempt : Nat
  now : Int
  pc : Pc

/-- Enter `RotateSession`. -/
def enter (H : TokenHash) (contracts : List SessionsContract) (token : String) (attempt : Nat)
    (now : Int) : CallState where
  token := token
  attempt := attempt
  now := now
  pc := match H.hash token with
    | none => .done (.error errRefreshInvalid)
    | some h => .lookup h contracts

/-- The next statement of a call. -/
def stepCall (H : TokenHash) (contracts : List SessionsContract) (db : Db) (call : CallState)
    (att : Attempt) : Db × CallState :=
  match call.pc with
  | .lookup _ [] => (db, { call with pc := .done (.error errRefreshInvalid) })
  | .lookup h (c :: cs) =>
      match findRefreshRow db c h (att.lookup c.table) with
      | .error e => (db, { call with pc := .done (.error e) })
      | .ok none => (db, { call with pc := .lookup h cs })
      | .ok (some r) =>
          match verdict c r call.now with
          | .expired => (db, { call with pc := .done (.error errRefreshInvalid) })
          | .theft => (db, { call with pc := .punish c r })
          | .issue mark => (db, { call with pc := .issue c r mark })
  | .punish c r =>
      match applyTheftAction db c r call.now att.theft with
      | (db, .error e) => (db, { call with pc := .done (.error e) })
      | (db, .ok ()) => (db, { call with pc := .done (.error errTheft) })
  | .issue c r mark =>
      match issueChild H db c r call.now mark att with
      | (db, .error .concurrentRotate) =>
          (db, enter H contracts call.token (call.attempt + 1) att.now)
      | (db, res) => (db, { call with pc := .done res })
  | .done _ => (db, call)

/-- A call that runs by itself, `n` steps long. -/
def alone (H : TokenHash) (contracts : List SessionsContract) (att : Attempt) (n : Nat)
    (s : Db × CallState) : Db × CallState :=
  (fun s => stepCall H contracts s.1 s.2 att)^[n] s

/-! ### The system -/

/-- A row with a refresh token, as it was stored. -/
structure Birth where
  table : String
  id : Int
  hash : String
  user : Int
  orgID : Option Int
  deriving DecidableEq

def birth (table : String) (r : SessionRow) : Birth :=
  ⟨table, r.id, r.refreshTokenHash, r.user, r.orgID⟩

/-- A child that was issued: by which call, for which row, and how. -/
structure Issue where
  call : Nat
  token : String
  contract : SessionsContract
  presented : RefreshRow
  now : Int
  mark : Bool
  child : SessionRow

structure System where
  db : Db
  calls : List CallState
  born : List Birth
  issues : List Issue

/-- The row that a step added to a table, under its next id. -/
def added (before after : Db) (table : String) : Option SessionRow :=
  (after table).rows.find? fun r => r.id = (before table).nextID

/-- A row of `IssueSession`, which has no refresh token. -/
def sessionRow (user : Int) (orgID : Option Int) (tokenHash : String) (expiresAt : Int)
    (createdAt : Option Int) : SessionRow where
  id := 0
  user := user
  orgID := orgID
  org := orgID
  tokenHash := tokenHash
  refreshTokenHash := ""
  refreshExpiresAt := none
  expiresAt := expiresAt
  createdAt := createdAt
  revokedAt := none
  theftDetectedAt := none
  parentSessionID := none

inductive Act where
  | arrive (token : String) (now : Int)
  | advance (call : Nat) (att : Attempt)
  | login (table : String) (user : Int) (orgID : Option Int) (tokenHash : String)
      (expiresAt : Int) (createdAt : Option Int)
  | delete (table : String) (gone : SessionRow → Bool)

/-- A call takes a step; what it stored is recorded. -/
def System.advance (H : TokenHash) (contracts : List SessionsContract) (s : System) (i : Nat)
    (call : CallState) (att : Attempt) : System :=
  let out := stepCall H contracts s.db call att
  match call.pc with
  | .issue c r mark =>
      { db := out.1
        calls := s.calls.set i out.2
        born := s.born ++ ((added s.db out.1 c.table).map (birth c.table)).toList
        issues := s.issues ++ ((added s.db out.1 c.table).map fun child =>
          ⟨i, call.token, c, r, call.now, mark, child⟩).toList }
  | _ => { s with db := out.1, calls := s.calls.set i out.2 }

def System.act (H : TokenHash) (contracts : List SessionsContract) (s : System) :
    Act → System × Unit
  | .arrive token now => ({ s with calls := s.calls ++ [enter H contracts token 0 now] }, ())
  | .advance i att =>
      match s.calls[i]? with
      | none => (s, ())
      | some call => (s.advance H contracts i call att, ())
  | .login table user orgID tokenHash expiresAt createdAt =>
      ({ s with db := Function.update s.db table ((s.db table).insert
          (sessionRow user orgID tokenHash expiresAt createdAt) nofun) }, ())
  | .delete table gone =>
      ({ s with db := Function.update s.db table ((s.db table).delete gone) }, ())

/-- A random refresh token is not one that was ever stored. -/
def FreshAct (H : TokenHash) (s : System) : Act → Prop
  | .advance _ att => ∀ tok ∈ newSessionToken H att.refresh, ∀ b ∈ s.born, b.hash ≠ tok.2
  | _ => True

instance (H : TokenHash) (s : System) : (a : Act) → Decidable (FreshAct H s a)
  | .advance _ att => inferInstanceAs
      (Decidable (∀ tok ∈ newSessionToken H att.refresh, ∀ b ∈ s.born, b.hash ≠ tok.2))
  | .arrive _ _ => .isTrue trivial
  | .login _ _ _ _ _ _ => .isTrue trivial
  | .delete _ _ => .isTrue trivial

/-! ### A call by itself -/

section Alone

variable {H : TokenHash} {contracts : List SessionsContract} {db : Db} {att : Attempt}

theorem alone_succ (n : Nat) (db : Db) (call : CallState) :
    alone H contracts att (n + 1) (db, call) =
      alone H contracts att n (stepCall H contracts db call att) :=
  Function.iterate_succ_apply _ _ _

/-- From a lookup on, a call by itself does what the loop of `rotateFrom` does. -/
theorem alone_lookup (token h : String) (k : Nat) (cs : List SessionsContract) :
    ∃ n, alone H contracts att n (db, ⟨token, k, att.now, .lookup h cs⟩) =
      ((rotateFrom H db h att cs).1, ⟨token, k, att.now, .done (rotateFrom H db h att cs).2⟩) := by
  induction cs with
  | nil => exact ⟨1, rfl⟩
  | cons c cs ih =>
      cases lookup : findRefreshRow db c h (att.lookup c.table) with
      | error e => exact ⟨1, by simp only [alone_succ, stepCall, rotateFrom, lookup]; rfl⟩
      | ok found =>
          cases found with
          | none =>
              obtain ⟨n, rest⟩ := ih
              refine ⟨n + 1, ?_⟩
              simp only [alone_succ, stepCall, rotateFrom, lookup]
              exact rest
          | some r =>
              cases judged : verdict c r att.now with
              | expired =>
                  exact ⟨1, by simp only [alone_succ, stepCall, rotateFrom, lookup, judged]; rfl⟩
              | theft =>
                  refine ⟨2, ?_⟩
                  simp only [alone_succ, stepCall, rotateFrom, lookup, judged]
                  rcases applyTheftAction db c r att.now att.theft with ⟨db', e | ⟨⟨⟩⟩⟩ <;> rfl
              | issue mark =>
                  have out : rotateFrom H db h att (c :: cs) =
                      issueChild H db c r att.now mark att := by
                    simp only [rotateFrom, lookup, judged]
                  have never : (rotateFrom H db h att (c :: cs)).2 ≠ .error .concurrentRotate :=
                    rotateFrom_ne_concurrentRotate
                  rw [out] at never ⊢
                  refine ⟨2, ?_⟩
                  simp only [alone_succ, stepCall, lookup, judged]
                  generalize issueChild H db c r att.now mark att = result at never
                  obtain ⟨db', res⟩ := result
                  rcases res with e | pair
                  · cases e with
                    | concurrentRotate => exact absurd rfl never
                    | refresh _ _ _ _ _ => rfl
                    | db _ => rfl
                    | rand => rfl
                  · rfl

/-- **A call by itself** does what `rotateSession` does. -/
theorem alone_eq_rotateSession (token : String) :
    ∃ n res, (rotateSession H contracts db token [att]).2 = some res ∧
      alone H contracts att n (db, enter H contracts token 0 att.now) =
        ((rotateSession H contracts db token [att]).1, ⟨token, 0, att.now, .done res⟩) := by
  cases hashed : H.hash token with
  | none =>
      refine ⟨0, .error errRefreshInvalid, ?_, ?_⟩
      · simp only [rotateSession, hashed]
      · simp only [rotateSession, enter, hashed]
        rfl
  | some h =>
      rw [rotateSession_eq_rotateFrom hashed]
      obtain ⟨n, run⟩ : ∃ n, alone H contracts att n
          (db, ⟨token, 0, att.now, .lookup h contracts⟩) = _ := alone_lookup token h 0 contracts
      refine ⟨n, _, rfl, ?_⟩
      simp only [enter, hashed]
      exact run

end Alone

end Lazuli.Auth

/-!
How statements change the stored rows.

`Evolves` is the one fact about a statement that the invariants of concurrent
rotation use: every row afterwards is a row from before, perhaps with more stamps,
or a new row under the next id. In particular `revoked_at` never returns to null.

The `Ledger` of all rows ever stored is exact for the rows that are there, and a
refresh hash occurs in it once. A hash is `Spent` when no live row carries it, and a
row is `Dead` when it is revoked or gone; neither ever ends.
-/

namespace Lazuli.Auth

open Lazuli.General

variable {contracts : List SessionsContract} {db db' : Db} {New : String → SessionRow → Prop}

/-- The same row later. -/
structure Descends (r r' : SessionRow) : Prop where
  id : r'.id = r.id
  user : r'.user = r.user
  org : r'.orgID = r.orgID
  hash : r'.refreshTokenHash = r.refreshTokenHash
  revoked : r.revokedAt ≠ none → r'.revokedAt ≠ none

theorem Descends.refl (r : SessionRow) : Descends r r := ⟨rfl, rfl, rfl, rfl, fun h => h⟩

theorem Descends.birth {r r' : SessionRow} (same : Descends r r') (table : String) :
    birth table r' = birth table r := by
  simp only [Auth.birth, same.id, same.user, same.org, same.hash]

/-- Every row is an old row or a new one; the new rows satisfy `New`. -/
structure Evolves (New : String → SessionRow → Prop) (db db' : Db) : Prop where
  next : ∀ n, (db n).nextID ≤ (db' n).nextID
  rows : ∀ n, ∀ r' ∈ (db' n).rows,
    (∃ r ∈ (db n).rows, Descends r r') ∨ r'.id = (db n).nextID ∧ New n r'

/-- No new row. -/
def NoRow : String → SessionRow → Prop := fun _ _ => False

theorem evolves_refl (db : Db) : Evolves NoRow db db :=
  ⟨fun _ => le_rfl, fun _ r mem => .inl ⟨r, mem, .refl r⟩⟩

/-- A change of one table. -/
theorem evolves_update {name : String} {t' : SessionTable} (next : (db name).nextID ≤ t'.nextID)
    (rows : ∀ r' ∈ t'.rows,
      (∃ r ∈ (db name).rows, Descends r r') ∨ r'.id = (db name).nextID ∧ New name r') :
    Evolves New db (Function.update db name t') := by
  constructor
  · intro n
    by_cases here : n = name
    · subst here
      rwa [Function.update_self]
    · rw [Function.update_of_ne here]
  · intro n r' mem
    by_cases here : n = name
    · subst here
      rw [Function.update_self] at mem
      exact rows r' mem
    · rw [Function.update_of_ne here] at mem
      exact .inl ⟨r', mem, .refl r'⟩

theorem Restamped.descends {t t' : SessionTable} (restamped : t.Restamped t') :
    t'.nextID = t.nextID ∧ ∀ r' ∈ t'.rows, ∃ r ∈ t.rows, Descends r r' := by
  obtain ⟨set, stamps, rfl⟩ := restamped
  refine ⟨rfl, fun r' mem => ?_⟩
  obtain ⟨r, hr, rfl⟩ := List.mem_map.mp mem
  exact ⟨r, hr, stamps.id r, stamps.user r, stamps.org r, stamps.hash r, stamps.revoked r⟩

theorem evolves_restamp {name : String} {t' : SessionTable} (restamped : (db name).Restamped t') :
    Evolves NoRow db (Function.update db name t') := by
  obtain ⟨next, rows⟩ := Restamped.descends restamped
  exact evolves_update next.ge fun r' mem => .inl (rows r' mem)

theorem evolves_insert {name : String} {t' : SessionTable} (restamped : (db name).Restamped t')
    (draft : SessionRow) (parent : ∀ p ∈ draft.parentSessionID, t'.hasID p) :
    Evolves (fun n r => n = name ∧ r = { draft with id := (db name).nextID }) db
      (Function.update db name (t'.insert draft parent)) := by
  obtain ⟨next, rows⟩ := Restamped.descends restamped
  refine evolves_update (by simp only [SessionTable.insert]; omega) fun r' mem => ?_
  rcases SessionTable.mem_insert_rows.mp mem with old | rfl
  · exact .inl (rows r' old)
  · rw [next]
    exact .inr ⟨rfl, rfl, rfl⟩

theorem evolves_delete (db : Db) (name : String) (gone : SessionRow → Bool) :
    Evolves NoRow db (Function.update db name ((db name).delete gone)) := by
  refine evolves_update (le_refl (db name).nextID) fun r' mem => ?_
  obtain ⟨r, hr, rfl⟩ := List.mem_map.mp mem
  exact .inl ⟨r, List.mem_of_mem_filter hr, rfl, rfl, rfl, rfl, fun h => h⟩

/-- The row that an insert added. -/
theorem added_insert {name : String} {t' : SessionTable} (restamped : (db name).Restamped t')
    (draft : SessionRow) (parent : ∀ p ∈ draft.parentSessionID, t'.hasID p) :
    added db (Function.update db name (t'.insert draft parent)) name =
      some { draft with id := (db name).nextID } := by
  obtain ⟨next, -⟩ := Restamped.descends restamped
  have none : t'.rows.find? (fun r => r.id = (db name).nextID) = none := by
    refine List.find?_eq_none.mpr fun r mem => ?_
    have := t'.ids_lt r mem
    simp only [decide_eq_true_eq]
    omega
  rw [added, Function.update_self]
  simp only [SessionTable.insert, List.find?_append, none, next]
  simp

theorem added_self (db : Db) (name : String) : added db db name = none := by
  refine List.find?_eq_none.mpr fun r mem => ?_
  have := (db name).ids_lt r mem
  simp only [decide_eq_true_eq]
  omega

/-! ### What stays true of the rows -/

/-- The rows ever stored with a refresh token. -/
structure Ledger (contracts : List SessionsContract) (db : Db) (born : List Birth) : Prop where
  unique : ∀ a ∈ born, ∀ b ∈ born, a.hash = b.hash → a = b
  rows : ∀ c ∈ contracts, ∀ r ∈ (db c.table).rows, r.refreshTokenHash ≠ "" →
    birth c.table r ∈ born
  older : ∀ b ∈ born, b.id < (db b.table).nextID

/-- No live row carries the hash. -/
def Spent (contracts : List SessionsContract) (db : Db) (h : String) : Prop :=
  ∀ c ∈ contracts, ∀ r ∈ (db c.table).rows, r.refreshTokenHash = h → r.revokedAt ≠ none

/-- The row is revoked or gone. -/
def Dead (db : Db) (table : String) (id : Int) : Prop :=
  ∀ r ∈ (db table).rows, r.id = id → r.revokedAt ≠ none

theorem Dead.evolve {table : String} {id : Int} (dead : Dead db table id)
    (old : id < (db table).nextID) (evolves : Evolves New db db') : Dead db' table id := by
  intro r' mem same
  rcases evolves.rows table r' mem with ⟨r, hr, descends⟩ | ⟨new, -⟩
  · exact descends.revoked (dead r hr (descends.id ▸ same))
  · omega

theorem Spent.evolve {h : String} (spent : Spent contracts db h) (evolves : Evolves New db db')
    (other : ∀ n r, New n r → r.refreshTokenHash ≠ h) : Spent contracts db' h := by
  intro c hc r' mem same
  rcases evolves.rows c.table r' mem with ⟨r, hr, descends⟩ | ⟨-, new⟩
  · exact descends.revoked (spent c hc r hr (descends.hash ▸ same))
  · exact absurd same (other _ _ new)

/-- The ledger grows by the new row, if it has a refresh token. -/
theorem Ledger.evolve {born : List Birth} (ledger : Ledger contracts db born)
    (extra : List Birth) (evolves : Evolves New db db')
    (new : ∀ n r, New n r → r.refreshTokenHash ≠ "" → birth n r ∈ extra)
    (single : ∀ a ∈ extra, ∀ b ∈ extra, a = b)
    (fresh : ∀ a ∈ extra, (∀ b ∈ born, b.hash ≠ a.hash) ∧ a.id < (db' a.table).nextID) :
    Ledger contracts db' (born ++ extra) := by
  constructor
  · intro a ha b hb same
    rcases List.mem_append.mp ha with ha | ha <;> rcases List.mem_append.mp hb with hb | hb
    · exact ledger.unique a ha b hb same
    · exact absurd same ((fresh b hb).1 a ha)
    · exact absurd same.symm ((fresh a ha).1 b hb)
    · exact single a ha b hb
  · intro c hc r' mem nonempty
    rcases evolves.rows c.table r' mem with ⟨r, hr, descends⟩ | ⟨-, isNew⟩
    · rw [descends.birth]
      exact List.mem_append_left _ (ledger.rows c hc r hr (descends.hash ▸ nonempty))
    · exact List.mem_append_right _ (new _ _ isNew nonempty)
  · intro b hb
    rcases List.mem_append.mp hb with hb | hb
    · exact lt_of_lt_of_le (ledger.older b hb) (evolves.next b.table)
    · exact (fresh b hb).2

end Lazuli.Auth
