import Lazuli.Auth.Family

/-!
What a rotation can do.

`issueChild_issued` and `rotateFrom_rotated` list, once, every outcome of
`issueChild` and of one pass through `RotateSession`, with what it did to the
database. All invariants of rotation are derived from these two.

Without other calls in between, a pass never loses the race for its row, so the
recursion of `RotateSession` is not entered (`rotateSession_eq_rotateFrom`).
-/

namespace Lazuli.Auth

open Lazuli.General

variable {H : TokenHash} {contracts : List SessionsContract} {db : Db} {c : SessionsContract}
  {h : String} {att : Attempt}

/-! ### Issuing a child -/

/-- The table with the parent marked, if it is to be marked. -/
def SessionTable.marked (t : SessionTable) (id now : Int) (mark : Bool) : SessionTable :=
  if mark then t.mark id now else t

/-- The outcomes of `issueChild`. -/
inductive Issued (H : TokenHash) (db : Db) (c : SessionsContract) (p : RefreshRow) (now : Int)
    (mark : Bool) (att : Attempt) : Db → Except RotateError (String × String) → Prop where
  /-- Nothing was stored. -/
  | refused (e : RotateError) (cause : e = .rand ∨ e = .db "refresh rotate") :
      Issued H db c p now mark att db (.error e)
  /-- The row to mark was not live any more. -/
  | lost : mark = true → ¬ (db c.table).hasLive p.id →
      Issued H db c p now mark att db (.error .concurrentRotate)
  /-- A child was stored, whether or not the reply arrived. -/
  | inserted {a ah f fh : String} {res : Except RotateError (String × String)}
      (access : newSessionToken H att.access = some (a, ah))
      (refresh : newSessionToken H att.refresh = some (f, fh))
      (live : mark = true → (db c.table).hasLive p.id)
      (parent : ∀ q ∈ (childRow p ah fh (now + accessTTL c) (now + refreshTTL c)
        now).parentSessionID, ((db c.table).marked p.id now mark).hasID q)
      (reply : res = .ok (a, f) ∨ res = .error (.db "refresh rotate")) :
      Issued H db c p now mark att
        (Function.update db c.table (((db c.table).marked p.id now mark).insert
          (childRow p ah fh (now + accessTTL c) (now + refreshTTL c) now) parent)) res

theorem marked_hasID {t : SessionTable} {p : RefreshRow} (present : t.hasID p.id)
    (ah fh : String) (ae fe now : Int) (mark : Bool) :
    ∀ q ∈ (childRow p ah fh ae fe now).parentSessionID, (t.marked p.id now mark).hasID q := by
  intro q hq
  obtain rfl : p.id = q := by simpa [childRow] using hq
  cases mark with
  | true => exact SessionTable.mark_hasID present
  | false => exact present

/-- The statement inserted nothing, or the child under its parent. -/
theorem insertChild_cases (t : SessionTable) (p : RefreshRow) (ah fh : String) (ae fe now : Int)
    (mark : Bool) :
    ((t.insertChild p ah fh ae fe now mark).1 = t ∧
        ((t.insertChild p ah fh ae fe now mark).2 = .failed ∨
          (t.insertChild p ah fh ae fe now mark).2 = .noRows ∧ mark = true ∧ ¬ t.hasLive p.id)) ∨
      (mark = true → t.hasLive p.id) ∧
        (∃ id, (t.insertChild p ah fh ae fe now mark).2 = .returning id) ∧
        ∃ parent, (t.insertChild p ah fh ae fe now mark).1 =
          (t.marked p.id now mark).insert (childRow p ah fh ae fe now) parent := by
  cases mark with
  | true =>
      by_cases live : t.hasLive p.id
      · unfold SessionTable.insertChild
        rw [if_pos rfl, dif_pos live]
        exact .inr ⟨fun _ => live, ⟨_, rfl⟩, marked_hasID live.hasID ah fh ae fe now true, rfl⟩
      · unfold SessionTable.insertChild
        rw [if_pos rfl, dif_neg live]
        exact .inl ⟨rfl, .inr ⟨rfl, rfl, live⟩⟩
  | false =>
      by_cases present : t.hasID p.id
      · unfold SessionTable.insertChild
        rw [if_neg Bool.false_ne_true, dif_pos present]
        exact .inr ⟨nofun, ⟨_, rfl⟩, marked_hasID present ah fh ae fe now false, rfl⟩
      · unfold SessionTable.insertChild
        rw [if_neg Bool.false_ne_true, dif_neg present]
        exact .inl ⟨rfl, .inl rfl⟩

theorem issueChild_issued (H : TokenHash) (db : Db) (c : SessionsContract) (p : RefreshRow)
    (now : Int) (mark : Bool) (att : Attempt) :
    Issued H db c p now mark att (issueChild H db c p now mark att).1
      (issueChild H db c p now mark att).2 := by
  unfold issueChild
  cases access : newSessionToken H att.access with
  | none => exact .refused .rand (.inl rfl)
  | some aTok =>
      obtain ⟨a, ah⟩ := aTok
      cases refresh : newSessionToken H att.refresh with
      | none => exact .refused .rand (.inl rfl)
      | some fTok =>
          obtain ⟨f, fh⟩ := fTok
          simp only
          rcases insertChild_cases (db c.table) p ah fh (now + accessTTL c)
            (now + refreshTTL c) now mark with ⟨same, reply⟩ | ⟨live, ⟨id, reply⟩, parent, stored⟩
          · have unchanged : Function.update db c.table (db c.table) = db :=
              Function.update_eq_self ..
            rw [same, unchanged]
            cases att.insert with
            | unapplied => exact .refused _ (.inr rfl)
            | applied => exact .refused _ (.inr rfl)
            | none =>
                rcases reply with failed | ⟨noRows, rfl, gone⟩
                · rw [failed]
                  exact .refused _ (.inr rfl)
                · rw [noRows]
                  exact .lost rfl gone
          · rw [stored, reply]
            cases att.insert with
            | unapplied => exact .refused _ (.inr rfl)
            | applied => exact .inserted access refresh live parent (.inr rfl)
            | none => exact .inserted access refresh live parent (.inl rfl)

/-! ### One pass -/

/-- The first contract whose table has a row with this hash, and that row. -/
def firstFound (db : Db) (h : String) : List SessionsContract → Option (SessionsContract × SessionRow)
  | [] => none
  | c :: cs =>
      match (db c.table).byRefreshHash h with
      | some row => some (c, row)
      | none => firstFound db h cs

/-- The database after an applied theft action. -/
def punish (db : Db) (c : SessionsContract) (r : RefreshRow) (now : Int) : Db :=
  Function.update db c.table ((db c.table).revoke (theftSelects (db c.table) c r) now)

/-- The outcomes of one pass over the contracts. -/
inductive Rotated (H : TokenHash) (db : Db) (h : String) (att : Attempt)
    (contracts : List SessionsContract) : Db → Except RotateError (String × String) → Prop where
  /-- A lookup failed. -/
  | failed : Rotated H db h att contracts db (.error (.db "refresh lookup"))
  /-- The row is expired or not there. -/
  | invalid : Rotated H db h att contracts db (.error errRefreshInvalid)
  /-- A replay was punished. -/
  | theft {c : SessionsContract} {row : SessionRow} {r : RefreshRow}
      (found : firstFound db h contracts = some (c, row))
      (scanned : scanRefreshRow (db c.table).hasOrg row = some r)
      (judged : verdict c r att.now = .theft) :
      Rotated H db h att contracts (punish db c r att.now) (.error errTheft)
  /-- A replay was to be punished, and the reply did not arrive. -/
  | theftFailed {c : SessionsContract} {row : SessionRow} {r : RefreshRow} {db' : Db}
      (found : firstFound db h contracts = some (c, row))
      (scanned : scanRefreshRow (db c.table).hasOrg row = some r)
      (judged : verdict c r att.now = .theft)
      (applied : db' = db ∨ db' = punish db c r att.now) :
      Rotated H db h att contracts db' (.error (.db "refresh theft"))
  /-- A child was to be issued. -/
  | issue {c : SessionsContract} {row : SessionRow} {r : RefreshRow} {mark : Bool} {db' : Db}
      {res : Except RotateError (String × String)}
      (found : firstFound db h contracts = some (c, row))
      (scanned : scanRefreshRow (db c.table).hasOrg row = some r)
      (judged : verdict c r att.now = .issue mark)
      (issued : Issued H db c r att.now mark att db' res) :
      Rotated H db h att contracts db' res

/-- A contract without the row does not change the outcome. -/
theorem Rotated.cons {db' : Db} {res : Except RotateError (String × String)}
    {cs : List SessionsContract} (next : firstFound db h (c :: cs) = firstFound db h cs)
    (rotated : Rotated H db h att cs db' res) : Rotated H db h att (c :: cs) db' res := by
  cases rotated with
  | failed => exact .failed
  | invalid => exact .invalid
  | theft found scanned judged => exact .theft (next.trans found) scanned judged
  | theftFailed found scanned judged applied =>
      exact .theftFailed (next.trans found) scanned judged applied
  | issue found scanned judged issued => exact .issue (next.trans found) scanned judged issued

theorem rotateFrom_rotated (H : TokenHash) (db : Db) (h : String) (att : Attempt)
    (contracts : List SessionsContract) :
    Rotated H db h att contracts (rotateFrom H db h att contracts).1
      (rotateFrom H db h att contracts).2 := by
  induction contracts with
  | nil => exact .invalid
  | cons c cs ih =>
      unfold rotateFrom findRefreshRow
      by_cases fault : att.lookup c.table ≠ .none
      · simp only [if_pos fault]
        exact .failed
      · simp only [if_neg fault]
        cases byHash : (db c.table).byRefreshHash h with
        | none =>
            have next : firstFound db h (c :: cs) = firstFound db h cs := by
              simp only [firstFound, byHash]
            exact .cons next ih
        | some row =>
            have found : firstFound db h (c :: cs) = some (c, row) := by
              simp only [firstFound, byHash]
            simp only
            cases scanned : scanRefreshRow (db c.table).hasOrg row with
            | none => exact .failed
            | some r =>
                simp only
                cases judged : verdict c r att.now with
                | expired => exact .invalid
                | theft =>
                    simp only [applyTheftAction]
                    cases att.theft with
                    | none => exact .theft found scanned judged
                    | unapplied => exact .theftFailed found scanned judged (.inl rfl)
                    | applied => exact .theftFailed found scanned judged (.inr rfl)
                | issue mark => exact .issue found scanned judged (issueChild_issued ..)

/-! ### Alone, a call does not recurse -/

theorem byRefreshHash_mem {t : SessionTable} {row : SessionRow}
    (found : t.byRefreshHash h = some row) : row ∈ t.rows ∧ row.refreshTokenHash = h := by
  have same := List.find?_some found
  exact ⟨List.mem_of_find?_eq_some found, by simpa using same⟩

theorem firstFound_mem {row : SessionRow} (found : firstFound db h contracts = some (c, row)) :
    c ∈ contracts ∧ row ∈ (db c.table).rows ∧ row.refreshTokenHash = h := by
  induction contracts with
  | nil => cases found
  | cons d ds ih =>
      unfold firstFound at found
      cases byHash : (db d.table).byRefreshHash h with
      | none =>
          rw [byHash] at found
          obtain ⟨mem, here⟩ := ih found
          exact ⟨List.mem_cons_of_mem d mem, here⟩
      | some row' =>
          rw [byHash] at found
          simp only [Option.some.injEq, Prod.mk.injEq] at found
          obtain ⟨rfl, rfl⟩ := found
          exact ⟨List.mem_cons_self, byRefreshHash_mem byHash⟩

/-- What a scan keeps of the row. -/
theorem scanRefreshRow_eq {hasOrg : Bool} {row : SessionRow} {r : RefreshRow}
    (scanned : scanRefreshRow hasOrg row = some r) :
    r.id = row.id ∧ r.userID = row.user ∧ r.hasOrg = hasOrg ∧
      (hasOrg = true → row.orgID = some r.orgID) ∧
      row.refreshExpiresAt = some r.refreshExpiresAt ∧ r.revokedAt = row.revokedAt := by
  unfold scanRefreshRow at scanned
  obtain ⟨expires, he, scanned⟩ := Option.bind_eq_some_iff.mp scanned
  cases hasOrg with
  | true =>
      obtain ⟨org, ho, rfl⟩ := Option.map_eq_some_iff.mp scanned
      exact ⟨rfl, rfl, rfl, fun _ => ho, he, rfl⟩
  | false =>
      obtain rfl := Option.some.inj scanned
      exact ⟨rfl, rfl, rfl, nofun, he, rfl⟩

/-- A child is issued for an unexpired row that is live, or revoked within the grace. -/
theorem verdict_issue {r : RefreshRow} {now : Int} {mark : Bool}
    (judged : verdict c r now = .issue mark) :
    now < r.refreshExpiresAt ∧ (mark = true ∧ r.revokedAt = none ∨
      mark = false ∧ ∃ revoked, r.revokedAt = some revoked ∧ now - revoked ≤ rotationGrace c) := by
  unfold verdict at judged
  split at judged
  case isTrue => cases judged
  case isFalse unexpired =>
    refine ⟨not_not.mp unexpired, ?_⟩
    cases stamp : r.revokedAt with
    | none =>
        rw [stamp] at judged
        cases judged
        exact .inl ⟨rfl, rfl⟩
    | some revoked =>
        rw [stamp] at judged
        simp only at judged
        split at judged
        case isTrue => cases judged
        case isFalse grace =>
          cases judged
          exact .inr ⟨rfl, revoked, rfl, not_lt.mp grace⟩

theorem rotateFrom_ne_concurrentRotate :
    (rotateFrom H db h att contracts).2 ≠ .error .concurrentRotate := by
  have rotated := rotateFrom_rotated H db h att contracts
  generalize (rotateFrom H db h att contracts).1 = db' at rotated
  generalize (rotateFrom H db h att contracts).2 = res at rotated
  rintro rfl
  cases rotated with
  | issue found scanned judged issued =>
      cases issued with
      | refused _ cause => rcases cause with cause | cause <;> cases cause
      | lost marks gone =>
          obtain ⟨id, -, -, -, -, revoked⟩ := scanRefreshRow_eq scanned
          obtain ⟨-, mem, -⟩ := firstFound_mem found
          rcases (verdict_issue judged).2 with ⟨-, live⟩ | ⟨unmarked, -⟩
          · exact gone ⟨_, mem, id.symm, revoked.symm.trans live⟩
          · exact absurd (marks.symm.trans unmarked) (by decide)
      | inserted _ _ _ _ reply => rcases reply with reply | reply <;> cases reply

/-- A call that is not interrupted returns from its first attempt. -/
theorem rotateSession_eq_rotateFrom {token : String} (hashed : H.hash token = some h)
    (atts : List Attempt) :
    rotateSession H contracts db token (att :: atts) =
      ((rotateFrom H db h att contracts).1, some (rotateFrom H db h att contracts).2) := by
  have never : (rotateFrom H db h att contracts).2 ≠ .error .concurrentRotate :=
    rotateFrom_ne_concurrentRotate
  rw [rotateSession, hashed]
  -- by `never`, the match on the outcome takes its second branch
  simp only

end Lazuli.Auth
