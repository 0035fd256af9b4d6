import Lazuli.General.Transition
import Lazuli.Auth.Consistent

/-!
Whether a detected theft is final.

After a replay, `applyTheftAction` stamps the whole family with `revoked_at = now`
and `theft_detected_at = now`. The grace test of the next call reads `revoked_at`,
and nothing reads `theft_detected_at`, so for the rotation grace after a theft every
token of the family is served as a repeated rotation (`theft_not_final`).

A call is `Late` when it does not fall into that gap. Along a run of late calls a
theft is final for the whole family (`theft_final`): the stamps of a family stay
(`Stamped`), and no new row joins it.
-/

namespace Lazuli.Auth

open Lazuli.General

variable {H : TokenHash} {contracts : List SessionsContract} {db : Db} {c : SessionsContract}

/-- One call to `RotateSession`. -/
structure RotateCall where
  token : String
  attempt : Attempt

/-- Calls one after the other. -/
def rotate (H : TokenHash) (contracts : List SessionsContract) (db : Db) (call : RotateCall) :
    Db × Option (Except RotateError (String × String)) :=
  rotateSession H contracts db call.token [call.attempt]

/-- The row that a token is found by. -/
def presented (H : TokenHash) (contracts : List SessionsContract) (db : Db) (token : String) :
    Option (SessionsContract × SessionRow) :=
  (H.hash token).bind fun h => firstFound db h contracts

/-- The call does not present an unexpired token of a row that a theft stamped within
the rotation grace. -/
def Late (H : TokenHash) (contracts : List SessionsContract) (db : Db) (call : RotateCall) :
    Prop :=
  ∀ found ∈ presented H contracts db call.token, found.2.theftDetectedAt ≠ none →
    ∀ revoked ∈ found.2.revokedAt, ∀ expires ∈ found.2.refreshExpiresAt,
      call.attempt.now < expires → rotationGrace found.1 < call.attempt.now - revoked

instance (db : Db) (call : RotateCall) : Decidable (Late H contracts db call) :=
  inferInstanceAs (Decidable (∀ found ∈ presented H contracts db call.token,
    found.2.theftDetectedAt ≠ none → ∀ revoked ∈ found.2.revokedAt,
      ∀ expires ∈ found.2.refreshExpiresAt,
        call.attempt.now < expires → rotationGrace found.1 < call.attempt.now - revoked))

/-- Once a call has detected a theft, no later call with a token of the same family
returns a pair. -/
def TheftFinal (H : TokenHash) (contracts : List SessionsContract) (db : Db)
    (calls : List RotateCall) : Prop :=
  ∀ pre call mid later post, calls = pre ++ call :: (mid ++ later :: post) →
    ∀ e, (rotate H contracts (runState (rotate H contracts) db pre) call).2 = some (.error e) →
      e.isTheft →
    ∀ c row, presented H contracts (runState (rotate H contracts) db pre) call.token =
        some (c, row) →
    ∀ after, after = runState (rotate H contracts) db (pre ++ call :: mid) →
    ∀ kin ∈ (after c.table).rows, (after c.table).SameFamily row.id kin.id →
      H.hash later.token = some kin.refreshTokenHash →
        ∀ pair, (rotate H contracts after later).2 ≠ some (.ok pair)

/-! ### The stamps of a family stay -/

/-- Every row of the family of `id` carries both stamps. -/
structure Stamped (t : SessionTable) (id : Int) : Prop where
  present : t.hasID id
  stamps : ∀ s ∈ t.rows, t.SameFamily id s.id → s.revokedAt ≠ none ∧ s.theftDetectedAt ≠ none

section Statements

variable {t t' : SessionTable} {id : Int}

theorem Stamped.restamp (stamped : Stamped t id) (restamped : t.Restamped t') :
    Stamped t' id := by
  obtain ⟨set, stamps, rfl⟩ := restamped
  refine ⟨SessionTable.hasID_update.mpr stamped.present, fun s mem family => ?_⟩
  obtain ⟨q, hq, rfl⟩ := List.mem_map.mp mem
  rw [SessionTable.sameFamily_update, stamps.id] at family
  obtain ⟨revoked, theft⟩ := stamped.stamps q hq family
  exact ⟨stamps.revoked q revoked, stamps.theft q theft⟩

theorem Stamped.insert (stamped : Stamped t id) {draft : SessionRow}
    {parent : ∀ p ∈ draft.parentSessionID, t.hasID p}
    (apart : ∀ p ∈ draft.parentSessionID, ¬ t.SameFamily id p) :
    Stamped (t.insert draft parent) id := by
  obtain ⟨r, mem, rfl⟩ := stamped.present
  refine ⟨⟨r, SessionTable.mem_insert_rows.mpr (.inl mem), rfl⟩, fun s ms family => ?_⟩
  have old := SessionTable.sameFamily_of_insert stamped.present apart family
  rcases SessionTable.mem_insert_rows.mp ms with here | rfl
  · exact stamped.stamps s here old
  · -- the new row is related to nothing that was there
    rcases old.hasID with same | ⟨-, absent⟩
    · exact absurd (same ▸ t.ids_lt r mem) (lt_irrefl _)
    · exact absurd absent.lt (lt_irrefl _)

/-- A family has one user. -/
theorem sameFamily_user
    (inherited : ∀ r ∈ t.rows, ∀ q ∈ t.rows, r.parentSessionID = some q.id → r.user = q.user)
    {a b : Int} (family : t.SameFamily a b) :
    ∀ r ∈ t.rows, ∀ s ∈ t.rows, r.id = a → s.id = b → r.user = s.user := by
  induction family with
  | rel a b link =>
      rintro r mr s ms rfl rfl
      obtain ⟨child, hc, id, parent⟩ := link
      obtain rfl := SessionTable.eq_of_id mr hc id.symm
      exact inherited r mr s ms parent
  | refl a =>
      rintro r mr s ms rfl same
      rw [SessionTable.eq_of_id mr ms same.symm]
  | symm a b _ ih => exact fun r mr s ms ha hb => (ih s ms r mr hb ha).symm
  | trans a b d first second ih₁ ih₂ =>
      rintro r mr s ms rfl rfl
      rcases SessionTable.SameFamily.hasID first with rfl | ⟨-, q, mq, rfl⟩
      · exact ih₂ r mr s ms rfl rfl
      · exact (ih₁ r mr q mq rfl rfl).trans (ih₂ q mq s ms rfl rfl)

/-- The theft action stamps the whole family, whichever action it is. -/
theorem stamped_revoke {row : SessionRow} {p : RefreshRow} (found : Found contracts db c row p)
    (cons : Consistent contracts db) (now : Int) :
    Stamped ((db c.table).revoke (theftSelects (db c.table) c p) now) row.id := by
  have present := SessionTable.hasID_of_mem found.mem
  refine ⟨SessionTable.hasID_update.mpr present, fun s mem family => ?_⟩
  obtain ⟨q, hq, rfl⟩ := List.mem_map.mp mem
  have same : (db c.table).SameFamily row.id q.id := by
    have key := (stampUpdate_revoke (theftSelects (db c.table) c p) now).id q
    rw [SessionTable.revoke, SessionTable.sameFamily_update, key] at family
    exact family
  have selected : theftSelects (db c.table) c p q = true := by
    unfold theftSelects
    split
    · have user := sameFamily_user (cons.user_inherited c found.contract) same row found.mem q hq
        rfl rfl
      exact decide_eq_true (by rw [found.user, user])
    · refine decide_eq_true ⟨q, SessionTable.mem_family_iff.mpr ?_, rfl⟩
      rw [found.id]
      exact ⟨hq, present, same⟩
  rw [if_pos selected]
  exact ⟨Option.some_ne_none _, Option.some_ne_none _⟩

end Statements

/-! ### One call -/

section Step

variable {call : RotateCall} {h : String} {row : SessionRow} {p : RefreshRow}

/-- A call fails on its token, or makes one pass. -/
theorem rotate_cases (H : TokenHash) (contracts : List SessionsContract) (db : Db)
    (call : RotateCall) :
    H.hash call.token = none ∧
        rotate H contracts db call = (db, some (.error errRefreshInvalid)) ∨
      ∃ h res, H.hash call.token = some h ∧ (rotate H contracts db call).2 = some res ∧
        Rotated H db h call.attempt contracts (rotate H contracts db call).1 res := by
  cases hashed : H.hash call.token with
  | none => exact .inl ⟨rfl, by rw [rotate, rotateSession, hashed]⟩
  | some h =>
      have pass : rotate H contracts db call = _ := rotateSession_eq_rotateFrom hashed []
      refine .inr ⟨h, (rotateFrom H db h call.attempt contracts).2, rfl, by rw [pass], ?_⟩
      rw [pass]
      exact rotateFrom_rotated H db h call.attempt contracts

theorem presented_eq (hashed : H.hash call.token = some h) :
    presented H contracts db call.token = firstFound db h contracts := by
  rw [presented, hashed, Option.bind_some]

/-- A late call does not issue a child for a stamped row. -/
theorem Late.not_issue (late : Late H contracts db call) (hashed : H.hash call.token = some h)
    (first : firstFound db h contracts = some (c, row)) (found : Found contracts db c row p)
    (stamps : row.revokedAt ≠ none ∧ row.theftDetectedAt ≠ none) {mark : Bool} :
    verdict c p call.attempt.now ≠ .issue mark := by
  intro judged
  obtain ⟨unexpired, ⟨-, live⟩ | ⟨-, revoked, stamp, grace⟩⟩ := verdict_issue judged
  · exact stamps.1 (found.revoked ▸ live)
  · have shown : presented H contracts db call.token = some (c, row) := by
      rw [presented_eq hashed, first]
    have := late (c, row) shown stamps.2 revoked (found.revoked ▸ stamp) p.refreshExpiresAt
      found.expires unexpired
    simp only at this
    omega

/-- Whatever family was stamped stays stamped through a late call. -/
theorem Stamped.rotate {name : String} {id : Int} (stamped : Stamped (db name) id)
    (late : Late H contracts db call) : Stamped ((rotate H contracts db call).1 name) id := by
  have restamp : ∀ {n : String} {t' : SessionTable}, (db n).Restamped t' →
      Stamped (Function.update db n t' name) id := by
    intro n t' restamped
    by_cases here : name = n
    · subst here
      rw [Function.update_self]
      exact stamped.restamp restamped
    · rw [Function.update_of_ne here]
      exact stamped
  rcases rotate_cases H contracts db call with ⟨-, unchanged⟩ | ⟨h, res, hashed, -, rotated⟩
  · rw [unchanged]
    exact stamped
  · generalize (Auth.rotate H contracts db call).1 = db' at rotated
    cases rotated with
    | failed => exact stamped
    | invalid => exact stamped
    | theft _ _ _ => exact restamp (restamped_revoke _ _ _)
    | theftFailed _ _ _ applied =>
        rcases applied with rfl | rfl
        · exact stamped
        · exact restamp (restamped_revoke _ _ _)
    | @issue c row p mark _ _ first scanned judged issued =>
        have found := found_of_firstFound first scanned
        cases issued with
        | refused _ _ => exact stamped
        | lost _ _ => exact stamped
        | inserted _ _ _ parent _ =>
            by_cases here : name = c.table
            · subst here
              rw [Function.update_self]
              refine (stamped.restamp (restamped_marked _ p.id call.attempt.now mark)).insert ?_
              -- the child's parent is not of the stamped family
              intro q hq family
              obtain rfl : p.id = q := by simpa [childRow] using hq
              obtain ⟨set, stamps, restamped⟩ :=
                restamped_marked (db c.table) p.id call.attempt.now mark
              rw [restamped, SessionTable.sameFamily_update, found.id] at family
              exact late.not_issue hashed first found (stamped.stamps row found.mem family) judged
            · rw [Function.update_of_ne here]
              exact stamped

/-- A call that detects a theft leaves the family of its row stamped. -/
theorem stamped_of_theft (cons : Consistent contracts db) {e : RotateError}
    (result : (rotate H contracts db call).2 = some (.error e)) (theft : e.isTheft)
    (shown : presented H contracts db call.token = some (c, row)) :
    Stamped ((rotate H contracts db call).1 c.table) row.id := by
  rcases rotate_cases H contracts db call with ⟨-, refused⟩ | ⟨h, res, hashed, reply, rotated⟩
  · rw [refused] at result
    cases result
    exact absurd theft (by decide)
  · obtain rfl := Option.some.inj (reply.symm.trans result)
    rw [presented_eq hashed] at shown
    generalize (rotate H contracts db call).1 = db' at rotated
    cases rotated with
    | failed => exact absurd theft Bool.false_ne_true
    | invalid => exact absurd theft (by decide)
    | theft first scanned judged =>
        obtain ⟨rfl, rfl⟩ := Prod.mk.inj (Option.some.inj (first.symm.trans shown))
        rw [punish, Function.update_self]
        exact stamped_revoke (found_of_firstFound first scanned) cons call.attempt.now
    | theftFailed _ _ _ _ => exact absurd theft Bool.false_ne_true
    | issue _ _ _ issued =>
        cases issued with
        | refused _ cause => rcases cause with rfl | rfl <;> exact absurd theft Bool.false_ne_true
        | lost _ _ => exact absurd theft Bool.false_ne_true
        | inserted _ _ _ _ reply =>
            rcases reply with reply | reply
            · cases reply
            · cases reply
              exact absurd theft Bool.false_ne_true

/-- A late call with a token of a stamped family returns no pair. -/
theorem Stamped.no_pair {id : Int} (stamped : Stamped (db c.table) id)
    (cons : Consistent contracts db) (registered : c ∈ contracts)
    (late : Late H contracts db call) {kin : SessionRow} (mem : kin ∈ (db c.table).rows)
    (family : (db c.table).SameFamily id kin.id)
    (token : H.hash call.token = some kin.refreshTokenHash) (pair : String × String) :
    (Auth.rotate H contracts db call).2 ≠ some (.ok pair) := by
  intro result
  rcases rotate_cases H contracts db call with ⟨-, refused⟩ | ⟨h, res, hashed, reply, rotated⟩
  · rw [refused] at result
    cases result
  · obtain rfl := Option.some.inj (reply.symm.trans result)
    generalize (Auth.rotate H contracts db call).1 = db' at rotated
    cases rotated with
    | @issue c' row p mark _ _ first scanned judged issued =>
        have found := found_of_firstFound first scanned
        obtain ⟨-, -, hash⟩ := firstFound_mem first
        obtain rfl := Option.some.inj (hashed.symm.trans token)
        -- the row found is the one whose token was presented
        obtain ⟨table, rfl⟩ := cons.hash_unique c' found.contract c registered row found.mem kin
          mem hash (by rw [hash]; exact H.hash_ne_empty _ _ token)
        exact late.not_issue hashed first found (stamped.stamps row mem family) judged

end Step

/-! ### Whole runs -/

/-- **A theft is final** in every run of late calls, whatever the family's shape, the
rotation grace and the theft action. -/
theorem theft_final (H : TokenHash) (contracts : List SessionsContract) (db : Db)
    (calls : List RotateCall) (cons : Consistent contracts db)
    (along : Along (rotate H contracts)
      (fun db call => FreshToken H contracts db call.attempt ∧ Late H contracts db call) db calls) :
    TheftFinal H contracts db calls := by
  have keeps : ∀ db call, Consistent contracts db →
      FreshToken H contracts db call.attempt ∧ Late H contracts db call →
      Consistent contracts (rotate H contracts db call).1 := by
    intro db call cons careful
    rcases rotate_cases H contracts db call with ⟨-, unchanged⟩ | ⟨h, res, -, -, rotated⟩
    · rw [unchanged]
      exact cons
    · exact cons.rotated careful.1 rotated
  rintro pre call mid later post rfl e result theft c row shown after rfl kin mem family token
  obtain ⟨before, here, rest⟩ := along.append
  obtain ⟨between, there, -⟩ := rest.append
  have consHere := before.inv keeps cons
  have start := stamped_of_theft consHere result theft shown
  have stays := between.inv
    (I := fun db => Consistent contracts db ∧ Stamped (db c.table) row.id)
    (fun db call both careful => ⟨keeps db call both.1 careful, both.2.rotate careful.2⟩)
    ⟨keeps _ call consHere here, start⟩
  have registered : c ∈ contracts := by
    obtain ⟨h, -, first⟩ := Option.bind_eq_some_iff.mp shown
    exact (firstFound_mem first).1
  rw [runState_append] at mem family ⊢
  exact stays.2.no_pair stays.1 registered there.2 mem family token

/-! ### A replayed token -/

/-- The first token, used, replayed after a minute, and replayed once more. -/
def replayCalls (last : Int) : List RotateCall :=
  [⟨drawn 0, tryAttempt 0 1 2⟩, ⟨drawn 0, tryAttempt minute 3 4⟩,
    ⟨drawn 0, tryAttempt last 3 4⟩]

/-- Forty seconds after the theft the rotation grace is over. -/
theorem theft_final_after_grace :
    TheftFinal digestHash [userSession] (fun _ => loginTable) (replayCalls (minute + 40 * second)) :=
  theft_final digestHash [userSession] (fun _ => loginTable) (replayCalls (minute + 40 * second))
    ⟨by decide, by decide⟩ (by decide)

/-- A second after the theft, the token that was stolen is served. -/
theorem theft_not_final :
    ¬ ∀ (H : TokenHash) (contracts : List SessionsContract) (db : Db) (calls : List RotateCall),
      Consistent contracts db →
      Along (rotate H contracts) (fun db call => FreshToken H contracts db call.attempt) db calls →
      calls.Pairwise (fun a b => a.attempt.now ≤ b.attempt.now) →
        TheftFinal H contracts db calls := by
  intro final
  have replay := final digestHash [userSession] (fun _ => loginTable)
    (replayCalls (minute + second)) ⟨by decide, by decide⟩ (by decide) (by decide)
    [⟨drawn 0, tryAttempt 0 1 2⟩] ⟨drawn 0, tryAttempt minute 3 4⟩ []
    ⟨drawn 0, tryAttempt (minute + second) 3 4⟩ [] rfl
    errTheft (by decide) (by decide)
    userSession { loginRow with revokedAt := some 0 } (by decide) _ rfl
    { loginRow with revokedAt := some minute, theftDetectedAt := some minute } (by decide)
    (.refl _ _) (by decide)
  exact replay (drawn 3, drawn 4) (by decide)

end Lazuli.Auth
