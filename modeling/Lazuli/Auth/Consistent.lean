import Lazuli.Auth.Outcome

/-!
What rotation keeps true of the tables it works on.

A refresh hash belongs to one row of one table, as long as the tokens drawn from
`crypto/rand` are new (`FreshToken`), and a child belongs to its parent's user
(`Consistent`). Both are kept by one pass (`Consistent.rotateFrom`).
-/

namespace Lazuli.Auth

open Lazuli.General

variable {H : TokenHash} {contracts : List SessionsContract} {db : Db} {c : SessionsContract}

structure Consistent (contracts : List SessionsContract) (db : Db) : Prop where
  hash_unique : ∀ c₁ ∈ contracts, ∀ c₂ ∈ contracts,
    ∀ r₁ ∈ (db c₁.table).rows, ∀ r₂ ∈ (db c₂.table).rows,
      r₁.refreshTokenHash = r₂.refreshTokenHash → r₁.refreshTokenHash ≠ "" →
        c₁.table = c₂.table ∧ r₁ = r₂
  user_inherited : ∀ c ∈ contracts, ∀ r ∈ (db c.table).rows, ∀ q ∈ (db c.table).rows,
    r.parentSessionID = some q.id → r.user = q.user

/-- The random refresh token is not in use. -/
def FreshToken (H : TokenHash) (contracts : List SessionsContract) (db : Db) (att : Attempt) :
    Prop :=
  ∀ tok ∈ newSessionToken H att.refresh, ∀ c ∈ contracts, ∀ r ∈ (db c.table).rows,
    r.refreshTokenHash ≠ tok.2

instance (db : Db) (att : Attempt) : Decidable (FreshToken H contracts db att) :=
  inferInstanceAs (Decidable (∀ tok ∈ newSessionToken H att.refresh, ∀ c ∈ contracts,
    ∀ r ∈ (db c.table).rows, r.refreshTokenHash ≠ tok.2))

/-- An update that changes stamps only. -/
structure StampUpdate (set : SessionRow → SessionRow) : Prop where
  id : ∀ r, (set r).id = r.id
  parent : ∀ r, (set r).parentSessionID = r.parentSessionID
  user : ∀ r, (set r).user = r.user
  org : ∀ r, (set r).orgID = r.orgID
  hash : ∀ r, (set r).refreshTokenHash = r.refreshTokenHash
  revoked : ∀ r, r.revokedAt ≠ none → (set r).revokedAt ≠ none
  theft : ∀ r, r.theftDetectedAt ≠ none → (set r).theftDetectedAt ≠ none

theorem stampUpdate_mark (id now : Int) : StampUpdate fun r =>
    if r.id = id ∧ r.revokedAt = none then { r with revokedAt := some now } else r := by
  constructor <;> intro r <;> split <;> simp

theorem stampUpdate_revoke (selected : SessionRow → Bool) (now : Int) : StampUpdate fun r =>
    if selected r then { r with revokedAt := some now, theftDetectedAt := some now } else r := by
  constructor <;> intro r <;> split <;> simp

theorem stampUpdate_id : StampUpdate id := by
  constructor <;> intro r <;> simp

/-- A table whose stamps were updated. -/
def SessionTable.Restamped (t t' : SessionTable) : Prop :=
  ∃ set, ∃ stamps : StampUpdate set, t' = t.update set stamps.id stamps.parent

theorem restamped_marked (t : SessionTable) (id now : Int) (mark : Bool) :
    t.Restamped (t.marked id now mark) := by
  cases mark with
  | true => exact ⟨_, stampUpdate_mark id now, rfl⟩
  | false =>
      refine ⟨_, stampUpdate_id, ?_⟩
      simp [SessionTable.marked, SessionTable.update]

theorem restamped_revoke (t : SessionTable) (selected : SessionRow → Bool) (now : Int) :
    t.Restamped (t.revoke selected now) :=
  ⟨_, stampUpdate_revoke selected now, rfl⟩

/-- Restamping keeps a consistent database consistent. -/
theorem Consistent.restamp (cons : Consistent contracts db) {name : String} {t' : SessionTable}
    (restamped : (db name).Restamped t') : Consistent contracts (Function.update db name t') := by
  obtain ⟨set, stamps, rfl⟩ := restamped
  -- every row of the new database is an old row of the same table, restamped
  have old : ∀ n, ∀ r ∈ (Function.update db name
      ((db name).update set stamps.id stamps.parent) n).rows,
      ∃ q ∈ (db n).rows, r.id = q.id ∧ r.user = q.user ∧
        r.refreshTokenHash = q.refreshTokenHash ∧ r.parentSessionID = q.parentSessionID := by
    intro n r mem
    by_cases here : n = name
    · subst here
      rw [Function.update_self] at mem
      obtain ⟨q, hq, rfl⟩ := List.mem_map.mp mem
      exact ⟨q, hq, stamps.id q, stamps.user q, stamps.hash q, stamps.parent q⟩
    · rw [Function.update_of_ne here] at mem
      exact ⟨r, mem, rfl, rfl, rfl, rfl⟩
  constructor
  · intro c₁ h₁ c₂ h₂ r₁ m₁ r₂ m₂ same nonempty
    obtain ⟨q₁, hq₁, id₁, -, hash₁, -⟩ := old _ r₁ m₁
    obtain ⟨q₂, hq₂, id₂, -, hash₂, -⟩ := old _ r₂ m₂
    obtain ⟨table, rfl⟩ := cons.hash_unique c₁ h₁ c₂ h₂ q₁ hq₁ q₂ hq₂
      (by rw [← hash₁, ← hash₂, same]) (by rwa [← hash₁])
    rw [← table] at m₂
    exact ⟨table, SessionTable.eq_of_id m₁ m₂ (id₁.trans id₂.symm)⟩
  · intro c hc r mr q mq link
    obtain ⟨r', hr', -, user, -, parent⟩ := old _ r mr
    obtain ⟨q', hq', id, user', -, -⟩ := old _ q mq
    rw [user, user']
    exact cons.user_inherited c hc r' hr' q' hq' (by rw [← parent, link, id])

/-- Inserting a row with a new hash under a parent of the same user, too. -/
theorem Consistent.insert (cons : Consistent contracts db) {name : String} {t : SessionTable}
    (here : db name = t) {draft : SessionRow} (parent : ∀ p ∈ draft.parentSessionID, t.hasID p)
    (fresh : ∀ c ∈ contracts, ∀ r ∈ (db c.table).rows, r.refreshTokenHash ≠ draft.refreshTokenHash)
    (user : ∀ q ∈ t.rows, draft.parentSessionID = some q.id → draft.user = q.user) :
    Consistent contracts (Function.update db name (t.insert draft parent)) := by
  subst here
  have origin : ∀ n, ∀ r ∈ (Function.update db name ((db name).insert draft parent) n).rows,
      r ∈ (db n).rows ∨ n = name ∧ r = { draft with id := (db name).nextID } := by
    intro n r mem
    by_cases here : n = name
    · subst here
      rw [Function.update_self] at mem
      rcases SessionTable.mem_insert_rows.mp mem with old | new
      · exact .inl old
      · exact .inr ⟨rfl, new⟩
    · rw [Function.update_of_ne here] at mem
      exact .inl mem
  constructor
  · intro c₁ h₁ c₂ h₂ r₁ m₁ r₂ m₂ same nonempty
    rcases origin _ r₁ m₁ with old₁ | ⟨n₁, rfl⟩
    · rcases origin _ r₂ m₂ with old₂ | ⟨n₂, rfl⟩
      · exact cons.hash_unique c₁ h₁ c₂ h₂ r₁ old₁ r₂ old₂ same nonempty
      · exact absurd same (fresh c₁ h₁ r₁ old₁)
    · rcases origin _ r₂ m₂ with old₂ | ⟨n₂, rfl⟩
      · exact absurd same.symm (fresh c₂ h₂ r₂ old₂)
      · exact ⟨n₁.trans n₂.symm, rfl⟩
  · intro c hc r mr q mq link
    rcases origin _ r mr with old | ⟨n, rfl⟩
    · rcases origin _ q mq with old' | ⟨n', rfl⟩
      · exact cons.user_inherited c hc r old q old' link
      · -- an old row has no parent among the ids still to come
        rw [n'] at old
        exact absurd (SessionTable.hasID.lt ((db name).parents r old _ link)) (lt_irrefl _)
    · rcases origin _ q mq with old' | ⟨n', rfl⟩
      · rw [n] at old'
        exact user q old' link
      · rfl

/-- The parent of an issued child belongs to the child's user. -/
theorem marked_user {t : SessionTable} {row : SessionRow} {p : RefreshRow} (mem : row ∈ t.rows)
    (id : p.id = row.id) (user : p.userID = row.user) (now : Int) (mark : Bool) :
    ∀ q ∈ (t.marked p.id now mark).rows, p.id = q.id → p.userID = q.user := by
  intro q mq same
  obtain ⟨set, stamps, restamped⟩ := restamped_marked t p.id now mark
  rw [restamped] at mq
  obtain ⟨o, ho, rfl⟩ := List.mem_map.mp mq
  rw [stamps.id] at same
  obtain rfl := SessionTable.eq_of_id mem ho (id.symm.trans same)
  rw [stamps.user, user]

/-- The row that an issued child was found by. -/
structure Found (contracts : List SessionsContract) (db : Db) (c : SessionsContract)
    (row : SessionRow) (p : RefreshRow) : Prop where
  contract : c ∈ contracts
  mem : row ∈ (db c.table).rows
  id : p.id = row.id
  user : p.userID = row.user
  org : p.hasOrg = true → row.orgID = some p.orgID
  expires : row.refreshExpiresAt = some p.refreshExpiresAt
  revoked : p.revokedAt = row.revokedAt

theorem found_of_firstFound {h : String} {row : SessionRow} {p : RefreshRow}
    (first : firstFound db h contracts = some (c, row))
    (scanned : scanRefreshRow (db c.table).hasOrg row = some p) : Found contracts db c row p := by
  obtain ⟨contract, mem, -⟩ := firstFound_mem first
  obtain ⟨id, user, hasOrg, org, expires, revoked⟩ := scanRefreshRow_eq scanned
  exact ⟨contract, mem, id, user, fun h => org (hasOrg ▸ h), expires, revoked⟩

theorem Consistent.issued {row : SessionRow} {p : RefreshRow} {now : Int} {mark : Bool}
    {att : Attempt} {db' : Db} {res : Except RotateError (String × String)}
    (cons : Consistent contracts db) (fresh : FreshToken H contracts db att)
    (found : Found contracts db c row p) (issued : Issued H db c p now mark att db' res) :
    Consistent contracts db' := by
  cases issued with
  | refused _ _ => exact cons
  | lost _ _ => exact cons
  | @inserted a ah f fh _ access refresh live parent reply =>
      have marked := cons.restamp (restamped_marked (db c.table) p.id now mark)
      have inserted := marked.insert (Function.update_self ..) parent (by
        intro d hd r mem same
        by_cases here : d.table = c.table
        · rw [here, Function.update_self] at mem
          obtain ⟨set, stamps, restamped⟩ := restamped_marked (db c.table) p.id now mark
          rw [restamped] at mem
          obtain ⟨q, hq, rfl⟩ := List.mem_map.mp mem
          rw [stamps.hash] at same
          exact fresh _ refresh c found.contract q hq same
        · rw [Function.update_of_ne here] at mem
          exact fresh _ refresh d hd r mem same) (by
        intro q mq link
        have same : p.id = q.id := by simpa [childRow] using link
        exact marked_user found.mem found.id found.user now mark q mq same)
      rwa [Function.update_idem] at inserted

/-- One pass keeps a consistent database consistent. -/
theorem Consistent.rotated {h : String} {att : Attempt} {db' : Db}
    {res : Except RotateError (String × String)} (cons : Consistent contracts db)
    (fresh : FreshToken H contracts db att) (rotated : Rotated H db h att contracts db' res) :
    Consistent contracts db' := by
  cases rotated with
  | failed => exact cons
  | invalid => exact cons
  | theft _ _ _ => exact cons.restamp (restamped_revoke _ _ _)
  | theftFailed _ _ _ applied =>
      rcases applied with rfl | rfl
      · exact cons
      · exact cons.restamp (restamped_revoke _ _ _)
  | issue found scanned _ issued =>
      exact cons.issued fresh (found_of_firstFound found scanned) issued

/-! ### A login to try things on -/

/-- Five session tokens and their digests. -/
def digests : List (String × String) := [
  ("AAAAAAAAAAAAAAAAAAAAAAAAAAAAAAAAAAAAAAAAAAA",
    "0f007385b6f9d4b7eeb2748605afe1a984a0a3bfa3f014d09e2a784ce9e5cd1a"),
  ("AQEBAQEBAQEBAQEBAQEBAQEBAQEBAQEBAQEBAQEBAQE",
    "56d5fa7333f6d747db42c239407e5da4c32f4c79f35d092b134fd35a402d9c5c"),
  ("AgICAgICAgICAgICAgICAgICAgICAgICAgICAgICAgI",
    "6c1d63bbdab437c54368cbbd8886a886a79ad977297e265eebf1f5f5f01533b9"),
  ("AwMDAwMDAwMDAwMDAwMDAwMDAwMDAwMDAwMDAwMDAwM",
    "83bee072fbd3423f7481fc163821636ad8cfb73faef0dd0581f3979ea0c731b9"),
  ("BAQEBAQEBAQEBAQEBAQEBAQEBAQEBAQEBAQEBAQEBAQ",
    "4f6a3bb5a6c72d17856be15f62e747ef88df8139f0c38411c8501164c1c1bdd8")]

def digestHash : TokenHash where
  hash := fun token => (digests.find? (·.1 = token)).map (·.2)
  hash_ne_empty := by
    intro token h found
    obtain ⟨entry, first, rfl⟩ := Option.map_eq_some_iff.mp found
    have full : ∀ entry ∈ digests, entry.2 ≠ "" := by decide
    exact full entry (List.mem_of_find?_eq_some first)

/-- The `i`th of the tokens. -/
def drawn (i : Nat) : String := (digests.map (·.1)).getD i ""

def userSession : SessionsContract :=
  ⟨"UserSession", none, none, none, .revokeUser⟩

/-- A login of user 7, with the first token. -/
def loginRow : SessionRow where
  id := 1
  user := 7
  orgID := none
  org := none
  tokenHash := ""
  refreshTokenHash := "0f007385b6f9d4b7eeb2748605afe1a984a0a3bfa3f014d09e2a784ce9e5cd1a"
  refreshExpiresAt := some (24 * hour)
  expiresAt := 24 * hour
  createdAt := none
  revokedAt := none
  theftDetectedAt := none
  parentSessionID := none

def loginTable : SessionTable where
  hasOrg := false
  rows := [loginRow]
  nextID := 2
  ids_nodup := by decide
  ids_lt := by decide
  parents := by decide

def tryAttempt (now : Int) (access refresh : Nat) : Attempt where
  now := now
  lookup := fun _ => .none
  access := some (drawn access)
  refresh := some (drawn refresh)
  insert := .none
  theft := .none

end Lazuli.Auth
