import Mathlib.Logic.Function.Basic
import Lazuli.Auth.Session

/-!
Refresh rotation (`runtime/go/lazuli/auth/refresh.go`, `session.go`).

`rotateSession` is `RotateSession`: find the row of the presented token in the
registered contracts' tables, and by its stamps refuse it, punish a replay, or issue
a child. Everything a call takes from outside is in its `Attempt`: the clock
reading, the random tokens, and whether a statement's reply is lost. A lost reply
may hide a statement that was applied.

The recursion on a lost race reads a new `Attempt`, so a call is given the list of
its attempts. `rotateSession` answers `none` only if that list is used up.
-/

namespace Lazuli.Auth

open Lazuli.General

/-! ### Errors -/

/-- The sentinel errors that a caller can test for. -/
inductive Sentinel where
  | refreshInvalid
  | refreshRevoked
  | theftDetected
  deriving DecidableEq

def Sentinel.text : Sentinel → String
  | refreshInvalid => "auth: refresh invalid"
  | refreshRevoked => "auth: refresh revoked"
  | theftDetected => "auth: theft detected"

/-- What a call returns in place of a pair. `concurrentRotate` never leaves
`rotateSession`. -/
inductive RotateError where
  | refresh (status : Nat) (code message messageKey : String) (cause : List Sentinel)
  | concurrentRotate
  | db (stage : String)
  | rand
  deriving DecidableEq

/-- `refreshError`; the cause is a joined list of sentinels. -/
def refreshError (code : String) (cause : List Sentinel) : RotateError :=
  .refresh 401 code ("\n".intercalate (cause.map Sentinel.text)) code cause

def errRefreshInvalid : RotateError := refreshError "refresh_invalid" [.refreshInvalid]

def errTheft : RotateError := refreshError "refresh_revoked" [.refreshRevoked, .theftDetected]

/-- `errors.Is(err, ErrTheftDetected)`. -/
def RotateError.isTheft : RotateError → Bool
  | .refresh _ _ _ _ cause => cause.contains .theftDetected
  | _ => false

/-! ### Tokens and the database -/

/-- `hashSessionToken`: the hex digest of a well-formed token. -/
structure TokenHash where
  hash : String → Option String
  hash_ne_empty : ∀ token h, hash token = some h → h ≠ ""

/-- The tables, by name. -/
abbrev Db := String → SessionTable

/-- Whether the reply to a statement is lost, and then whether the statement took
effect. -/
inductive Fault where
  | none
  | unapplied
  | applied
  deriving DecidableEq

/-- What one pass through `RotateSession` takes from outside. `access` and `refresh`
are the texts that `crypto/rand` yields, if it does. -/
structure Attempt where
  now : Int
  lookup : String → Fault
  access : Option String
  refresh : Option String
  insert : Fault
  theft : Fault

def newSessionToken (H : TokenHash) (raw : Option String) : Option (String × String) :=
  raw.bind fun token => (H.hash token).map fun h => (token, h)

/-! ### Statements -/

structure RefreshRow where
  id : Int
  userID : Int
  orgID : Int
  hasOrg : Bool
  refreshExpiresAt : Int
  revokedAt : Option Int
  deriving DecidableEq

/-- Scan the selected columns. A null `org_id` or `refresh_expires_at` does not fit
its Go type. -/
def scanRefreshRow (hasOrg : Bool) (r : SessionRow) : Option RefreshRow :=
  r.refreshExpiresAt.bind fun expires =>
    if hasOrg then
      r.orgID.map fun org => ⟨r.id, r.user, org, true, expires, r.revokedAt⟩
    else some ⟨r.id, r.user, 0, false, expires, r.revokedAt⟩

/-- `SELECT ... WHERE refresh_token_hash = $1 LIMIT 1`. -/
def SessionTable.byRefreshHash (t : SessionTable) (h : String) : Option SessionRow :=
  t.rows.find? (·.refreshTokenHash = h)

/-- The lookup, which leaves out `org_id` where the table has no such column. -/
def findRefreshRow (db : Db) (c : SessionsContract) (h : String) (fault : Fault) :
    Except RotateError (Option RefreshRow) :=
  if fault ≠ .none then .error (.db "refresh lookup")
  else
    let t := db c.table
    match t.byRefreshHash h with
    | none => .ok none
    | some row =>
        match scanRefreshRow t.hasOrg row with
        | none => .error (.db "refresh lookup")
        | some r => .ok (some r)

/-- The row that `childInsertSQL` inserts. -/
def childRow (p : RefreshRow) (ah fh : String) (ae fe now : Int) : SessionRow where
  id := 0
  user := p.userID
  orgID := if p.hasOrg then some p.orgID else none
  org := if p.hasOrg then some p.orgID else none
  tokenHash := ah
  refreshTokenHash := fh
  refreshExpiresAt := some fe
  expiresAt := ae
  createdAt := some now
  revokedAt := none
  theftDetectedAt := none
  parentSessionID := some p.id

/-- `SET revoked_at = now WHERE id = $ AND revoked_at IS NULL`. -/
def SessionTable.mark (t : SessionTable) (id now : Int) : SessionTable :=
  t.update (fun r => if r.id = id ∧ r.revokedAt = none then { r with revokedAt := some now } else r)
    (by intro r; split <;> rfl) (by intro r; split <;> rfl)

theorem SessionTable.mark_hasID {t : SessionTable} {id now q : Int} (h : t.hasID q) :
    (t.mark id now).hasID q := by
  obtain ⟨r, mem, rfl⟩ := h
  refine ⟨_, List.mem_map_of_mem mem, ?_⟩
  split <;> rfl

/-- A row with this id that is not revoked. -/
def SessionTable.hasLive (t : SessionTable) (id : Int) : Prop :=
  ∃ r ∈ t.rows, r.id = id ∧ r.revokedAt = none

instance (t : SessionTable) (id : Int) : Decidable (t.hasLive id) :=
  inferInstanceAs (Decidable (∃ r ∈ t.rows, r.id = id ∧ r.revokedAt = none))

theorem SessionTable.hasLive.hasID {t : SessionTable} {id : Int} (h : t.hasLive id) :
    t.hasID id :=
  let ⟨r, mem, same, _⟩ := h
  ⟨r, mem, same⟩

inductive InsertReply where
  | returning (id : Int)
  | noRows
  | failed
  deriving DecidableEq

/-- The statement of `childInsertSQL`: mark the parent and insert the child, or
insert the child only. Without its parent a child violates the foreign key. -/
def SessionTable.insertChild (t : SessionTable) (p : RefreshRow) (ah fh : String)
    (ae fe now : Int) (mark : Bool) : SessionTable × InsertReply :=
  if mark then
    if h : t.hasLive p.id then
      ((t.mark p.id now).insert (childRow p ah fh ae fe now)
        (by
          intro q hq
          obtain rfl : p.id = q := by simpa [childRow] using hq
          exact mark_hasID h.hasID),
        .returning t.nextID)
    else (t, .noRows)
  else
    if h : t.hasID p.id then
      (t.insert (childRow p ah fh ae fe now)
        (by
          intro q hq
          obtain rfl : p.id = q := by simpa [childRow] using hq
          exact h),
        .returning t.nextID)
    else (t, .failed)

def issueChild (H : TokenHash) (db : Db) (c : SessionsContract) (p : RefreshRow) (now : Int)
    (mark : Bool) (att : Attempt) : Db × Except RotateError (String × String) :=
  match newSessionToken H att.access with
  | none => (db, .error .rand)
  | some (a, ah) =>
      match newSessionToken H att.refresh with
      | none => (db, .error .rand)
      | some (f, fh) =>
          let done := (db c.table).insertChild p ah fh (now + accessTTL c) (now + refreshTTL c)
            now mark
          match att.insert with
          | .unapplied => (db, .error (.db "refresh rotate"))
          | .applied => (Function.update db c.table done.1, .error (.db "refresh rotate"))
          | .none =>
              match done.2 with
              | .noRows =>
                  (Function.update db c.table done.1,
                    .error (if mark then .concurrentRotate else .db "refresh rotate"))
              | .failed => (Function.update db c.table done.1, .error (.db "refresh rotate"))
              | .returning _ => (Function.update db c.table done.1, .ok (a, f))

/-- The two ways along which the recursive `family` query grows. -/
def kin (f s : SessionRow) : Bool :=
  f.parentSessionID = some s.id ∨ s.parentSessionID = some f.id

/-- The rows of the recursive `family` query. -/
def SessionTable.family (t : SessionTable) (id : Int) : Finset SessionRow :=
  component t.rows.toFinset kin fun r => r.id = id

/-- `SET revoked_at = now, theft_detected_at = now` on the selected rows. -/
def SessionTable.revoke (t : SessionTable) (selected : SessionRow → Bool) (now : Int) :
    SessionTable :=
  t.update (fun r =>
      if selected r then { r with revokedAt := some now, theftDetectedAt := some now } else r)
    (by intro r; split <;> rfl) (by intro r; split <;> rfl)

/-- The rows that the theft action selects. -/
def theftSelects (t : SessionTable) (c : SessionsContract) (r : RefreshRow) (s : SessionRow) :
    Bool :=
  if c.theftDetectionAction = .revokeUser then s.user = r.userID
  else ∃ f ∈ t.family r.id, f.id = s.id

def applyTheftAction (db : Db) (c : SessionsContract) (r : RefreshRow) (now : Int)
    (fault : Fault) : Db × Except RotateError Unit :=
  let revoked := Function.update db c.table
    ((db c.table).revoke (theftSelects (db c.table) c r) now)
  match fault with
  | .none => (revoked, .ok ())
  | .unapplied => (db, .error (.db "refresh theft"))
  | .applied => (revoked, .error (.db "refresh theft"))

/-! ### RotateSession -/

/-- What the stamps of a found row decide. -/
inductive Verdict where
  | expired
  | theft
  | issue (mark : Bool)
  deriving DecidableEq

def verdict (c : SessionsContract) (r : RefreshRow) (now : Int) : Verdict :=
  if ¬ r.refreshExpiresAt > now then .expired
  else
    match r.revokedAt with
    | some revoked => if now - revoked > rotationGrace c then .theft else .issue false
    | none => .issue true

/-- The loop over the registered contracts, in one attempt. -/
def rotateFrom (H : TokenHash) (db : Db) (h : String) (att : Attempt) :
    List SessionsContract → Db × Except RotateError (String × String)
  | [] => (db, .error errRefreshInvalid)
  | c :: cs =>
      match findRefreshRow db c h (att.lookup c.table) with
      | .error e => (db, .error e)
      | .ok none => rotateFrom H db h att cs
      | .ok (some r) =>
          match verdict c r att.now with
          | .expired => (db, .error errRefreshInvalid)
          | .theft =>
              match applyTheftAction db c r att.now att.theft with
              | (db, .error e) => (db, .error e)
              | (db, .ok ()) => (db, .error errTheft)
          | .issue mark => issueChild H db c r att.now mark att

/-- `RotateSession`, with one attempt for each time it is entered. -/
def rotateSession (H : TokenHash) (contracts : List SessionsContract) (db : Db)
    (token : String) : List Attempt → Db × Option (Except RotateError (String × String))
  | [] => (db, none)
  | att :: atts =>
      match H.hash token with
      | none => (db, some (.error errRefreshInvalid))
      | some h =>
          match rotateFrom H db h att contracts with
          | (db, .error .concurrentRotate) => rotateSession H contracts db token atts
          | (db, result) => (db, some result)

end Lazuli.Auth
