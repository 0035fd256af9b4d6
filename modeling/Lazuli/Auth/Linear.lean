import Lazuli.Auth.Concurrent

/-!
Refresh rotation is linear.

`Inv` is kept by every act of a `System` (`Inv.act`), whatever the calls in flight
present and in whatever order their statements run. From it, in every state reached
(`rotation_linear`): at most one call marks the row of a token, every other call
that returns a pair was served in the grace for the same row, no call enters
`RotateSession` more than twice, and every child carries its parent's row, user and
organisation.

The recursion ends because a row that was found revoked or gone stays so
(`Spent`): a second attempt never tries to mark.
-/

namespace Lazuli.Auth

open Lazuli.General

variable {H : TokenHash} {contracts : List SessionsContract}

/-! ### The invariant -/

/-- The row of the ledger that a lookup saw. -/
def Sighted (born : List Birth) (c : SessionsContract) (r : RefreshRow) (h : String) : Prop :=
  ∃ b ∈ born, b.table = c.table ∧ b.id = r.id ∧ b.hash = h ∧ b.user = r.userID ∧
    (r.hasOrg = true → b.orgID = some r.orgID)

/-- A call is in its first attempt, or in its second and its token is spent. -/
def Waiting (contracts : List SessionsContract) (db : Db) (born : List Birth) (h : String)
    (attempt : Nat) : Prop :=
  attempt = 0 ∨ attempt = 1 ∧ (∃ b ∈ born, b.hash = h) ∧ Spent contracts db h

/-- What holds of a call, by where it is. -/
def CallOk (H : TokenHash) (contracts : List SessionsContract) (s : System) (i : Nat)
    (call : CallState) : Prop :=
  match call.pc with
  | .lookup h rest => H.hash call.token = some h ∧ rest ⊆ contracts ∧
      Waiting contracts s.db s.born h call.attempt
  | .punish _ _ => call.attempt ≤ 1
  | .issue c r mark => ∃ h, H.hash call.token = some h ∧ c ∈ contracts ∧
      Sighted s.born c r h ∧ verdict c r call.now = .issue mark ∧
      Waiting contracts s.db s.born h call.attempt ∧ (mark = true → call.attempt = 0)
  | .done res => call.attempt ≤ 1 ∧ ∀ pair, res = .ok pair → ∃ issue ∈ s.issues,
      issue.call = i ∧ issue.token = call.token ∧
        H.hash pair.2 = some issue.child.refreshTokenHash

/-- What holds of an issued child. -/
structure IssueOk (H : TokenHash) (born : List Birth) (issue : Issue) : Prop where
  sighted : ∃ h, H.hash issue.token = some h ∧
    Sighted born issue.contract issue.presented h
  judged : verdict issue.contract issue.presented issue.now = .issue issue.mark
  parent : issue.child.parentSessionID = some issue.presented.id
  user : issue.child.user = issue.presented.userID
  org : issue.presented.hasOrg = true → issue.child.orgID = some issue.presented.orgID

structure Inv (H : TokenHash) (contracts : List SessionsContract) (s : System) : Prop where
  ledger : Ledger contracts s.db s.born
  calls : ∀ i call, s.calls[i]? = some call → CallOk H contracts s i call
  issues : ∀ issue ∈ s.issues, IssueOk H s.born issue
  dead : ∀ issue ∈ s.issues, issue.mark = true →
    Dead s.db issue.contract.table issue.presented.id
  once : s.issues.Pairwise fun a b => a.mark = true → b.mark = true →
    ¬ (a.contract.table = b.contract.table ∧ a.presented.id = b.presented.id)

section Growth

variable {s s' : System} {New : String → SessionRow → Prop} {h : String}

theorem Sighted.mono {born born' : List Birth} {c : SessionsContract} {r : RefreshRow}
    (sighted : Sighted born c r h) (grows : born ⊆ born') : Sighted born' c r h := by
  obtain ⟨b, hb, facts⟩ := sighted
  exact ⟨b, grows hb, facts⟩

theorem IssueOk.mono {born born' : List Birth} {issue : Issue} (ok : IssueOk H born issue)
    (grows : born ⊆ born') : IssueOk H born' issue := by
  obtain ⟨h, hashed, sighted⟩ := ok.sighted
  exact { ok with sighted := ⟨h, hashed, sighted.mono grows⟩ }

theorem Sighted.lt {db : Db} {born : List Birth} {c : SessionsContract} {r : RefreshRow}
    (sighted : Sighted born c r h) (ledger : Ledger contracts db born) :
    r.id < (db c.table).nextID := by
  obtain ⟨b, hb, table, id, -⟩ := sighted
  rw [← table, ← id]
  exact ledger.older b hb

/-- A step of the database, for the calls it does not concern. -/
theorem CallOk.mono {i : Nat} {call : CallState} (ok : CallOk H contracts s i call)
    (evolves : Evolves New s.db s'.db) (born : s.born ⊆ s'.born) (issues : s.issues ⊆ s'.issues)
    (fresh : ∀ n r, New n r → r.refreshTokenHash = "" ∨
      ∀ b ∈ s.born, b.hash ≠ r.refreshTokenHash) :
    CallOk H contracts s' i call := by
  have waiting : ∀ h, H.hash call.token = some h →
      Waiting contracts s.db s.born h call.attempt →
      Waiting contracts s'.db s'.born h call.attempt := by
    rintro h hashed (first | ⟨second, ⟨b, hb, seen⟩, spent⟩)
    · exact .inl first
    · refine .inr ⟨second, ⟨b, born hb, seen⟩, spent.evolve evolves ?_⟩
      intro n r new same
      rcases fresh n r new with empty | other
      · exact H.hash_ne_empty _ _ hashed (same.symm.trans empty)
      · exact other b hb (seen.trans same.symm)
  unfold CallOk at *
  cases pc : call.pc with
  | lookup h rest =>
      rw [pc] at ok
      exact ⟨ok.1, ok.2.1, waiting h ok.1 ok.2.2⟩
  | punish c r =>
      rw [pc] at ok
      exact ok
  | issue c r mark =>
      rw [pc] at ok
      obtain ⟨h, hashed, registered, sighted, judged, wait, first⟩ := ok
      exact ⟨h, hashed, registered, sighted.mono born, judged, waiting h hashed wait, first⟩
  | done res =>
      rw [pc] at ok
      refine ⟨ok.1, fun pair paid => ?_⟩
      obtain ⟨issue, mem, facts⟩ := ok.2 pair paid
      exact ⟨issue, issues mem, facts⟩

/-- A change of the stored rows that adds no refresh token. -/
theorem Inv.store {db' : Db} (inv : Inv H contracts s) (evolves : Evolves New s.db db')
    (plain : ∀ n r, New n r → r.refreshTokenHash = "") :
    Inv H contracts { s with db := db' } where
  ledger := by
    have next := inv.ledger.evolve [] evolves
      (fun n r new nonempty => absurd (plain n r new) nonempty) nofun nofun
    rwa [List.append_nil] at next
  calls := fun i call here => CallOk.mono (inv.calls i call here) evolves (List.Subset.refl _)
    (List.Subset.refl _) fun n r new => .inl (plain n r new)
  issues := inv.issues
  dead := by
    intro issue mem marked
    obtain ⟨h, -, sighted⟩ := (inv.issues issue mem).sighted
    exact (inv.dead issue mem marked).evolve (sighted.lt inv.ledger) evolves
  once := inv.once

theorem Inv.keepRows {db' : Db} (inv : Inv H contracts s) (evolves : Evolves NoRow s.db db') :
    Inv H contracts { s with db := db' } :=
  inv.store evolves fun _ _ impossible => impossible.elim

/-- A call takes another state. -/
theorem Inv.setCall {i : Nat} {call : CallState} (inv : Inv H contracts s)
    (ok : CallOk H contracts s i call) :
    Inv H contracts { s with calls := s.calls.set i call } := by
  refine { inv with calls := fun j other here => ?_ }
  change CallOk H contracts s j other
  by_cases same : i = j
  · subst same
    rw [List.getElem?_set_self'] at here
    obtain ⟨-, -, rfl⟩ := Option.map_eq_some_iff.mp here
    exact ok
  · rw [List.getElem?_set_ne same] at here
    exact inv.calls j other here

end Growth

/-! ### One act -/

section Act

variable {s : System} {i : Nat} {call : CallState} {att : Attempt} {h : String}

theorem callOk_enter {token : String} {attempt : Nat} {now : Int}
    (wait : ∀ h, H.hash token = some h → Waiting contracts s.db s.born h attempt)
    (bound : attempt ≤ 1) : CallOk H contracts s i (enter H contracts token attempt now) := by
  unfold CallOk enter
  cases hashed : H.hash token with
  | none => exact ⟨bound, nofun⟩
  | some h => exact ⟨rfl, List.Subset.refl _, wait h hashed⟩

theorem Waiting.le {born : List Birth} {db : Db} {attempt : Nat}
    (wait : Waiting contracts db born h attempt) : attempt ≤ 1 := by
  rcases wait with first | ⟨second, -⟩ <;> omega

theorem Inv.arrive (inv : Inv H contracts s) (token : String) (now : Int) :
    Inv H contracts (s.act H contracts (.arrive token now)).1 := by
  refine { inv with calls := fun j other here => ?_ }
  change CallOk H contracts s j other
  change (s.calls ++ [enter H contracts token 0 now])[j]? = some other at here
  rw [List.getElem?_append] at here
  split at here
  · exact inv.calls j other here
  · obtain rfl := List.mem_singleton.mp (List.mem_of_getElem? here)
    exact callOk_enter (fun _ _ => .inl rfl) (Nat.zero_le 1)

theorem findRefreshRow_some {db : Db} {c : SessionsContract} {fault : Fault} {r : RefreshRow}
    (lookup : findRefreshRow db c h fault = .ok (some r)) :
    ∃ row ∈ (db c.table).rows, row.refreshTokenHash = h ∧
      scanRefreshRow (db c.table).hasOrg row = some r := by
  unfold findRefreshRow at lookup
  split at lookup
  case isTrue => cases lookup
  case isFalse =>
    cases byHash : (db c.table).byRefreshHash h with
    | none => simp only [byHash] at lookup; cases lookup
    | some row =>
        obtain ⟨mem, seen⟩ := byRefreshHash_mem byHash
        cases scanned : scanRefreshRow (db c.table).hasOrg row with
        | none => simp only [byHash, scanned] at lookup; cases lookup
        | some r' =>
            simp only [byHash, scanned] at lookup
            cases lookup
            exact ⟨row, mem, seen, scanned⟩

/-- A lookup leaves the database alone and brings the call to a good place. -/
theorem callOk_lookup (att : Attempt) (inv : Inv H contracts s) {rest : List SessionsContract}
    (pc : call.pc = .lookup h rest) (here : s.calls[i]? = some call) :
    (stepCall H contracts s.db call att).1 = s.db ∧
      CallOk H contracts s i (stepCall H contracts s.db call att).2 := by
  have ok := inv.calls i call here
  unfold CallOk at ok
  rw [pc] at ok
  obtain ⟨hashed, registered, wait⟩ := ok
  unfold stepCall
  rw [pc]
  cases rest with
  | nil => exact ⟨rfl, wait.le, nofun⟩
  | cons c cs =>
      have hc : c ∈ contracts := registered List.mem_cons_self
      cases lookup : findRefreshRow s.db c h (att.lookup c.table) with
      | error e =>
          simp only [lookup]
          exact ⟨trivial, wait.le, nofun⟩
      | ok found =>
          cases found with
          | none =>
              simp only [lookup]
              exact ⟨trivial, hashed, List.Subset.trans (List.subset_cons_self c cs) registered, wait⟩
          | some r =>
              simp only [lookup]
              cases judged : verdict c r call.now with
              | expired => exact ⟨rfl, wait.le, nofun⟩
              | theft => exact ⟨rfl, wait.le⟩
              | issue mark =>
                  obtain ⟨row, mem, seen, scanned⟩ := findRefreshRow_some lookup
                  obtain ⟨id, user, hasOrg, org, -, revoked⟩ := scanRefreshRow_eq scanned
                  have stored := inv.ledger.rows c hc row mem
                    (by rw [seen]; exact H.hash_ne_empty _ _ hashed)
                  refine ⟨rfl, h, hashed, hc, ⟨_, stored, rfl, id.symm, seen, user.symm, ?_⟩,
                    judged, wait, ?_⟩
                  · exact fun has => org (hasOrg ▸ has)
                  · -- in a second attempt the row cannot be live
                    rintro rfl
                    rcases wait with first | ⟨-, -, spent⟩
                    · exact first
                    · rcases (verdict_issue judged).2 with ⟨-, live⟩ | ⟨unmarked, -⟩
                      · exact absurd (revoked.symm.trans live) (spent c hc row mem seen)
                      · cases unmarked

theorem stepCall_punish (H : TokenHash) (contracts : List SessionsContract) (db : Db)
    (att : Attempt) {c : SessionsContract} {r : RefreshRow} (pc : call.pc = .punish c r) :
    ∃ db' e, (db' = db ∨ db' = punish db c r call.now) ∧
      stepCall H contracts db call att = (db', { call with pc := .done (.error e) }) := by
  unfold stepCall applyTheftAction
  rw [pc]
  cases att.theft with
  | none => exact ⟨_, _, .inr rfl, rfl⟩
  | unapplied => exact ⟨_, _, .inl rfl, rfl⟩
  | applied => exact ⟨_, _, .inr rfl, rfl⟩

/-- Outside the insert, a step records nothing. -/
theorem advance_quiet {db' : Db} {call' : CallState}
    (quiet : ∀ c r mark, call.pc ≠ .issue c r mark)
    (step : stepCall H contracts s.db call att = (db', call')) :
    s.advance H contracts i call att = { s with db := db', calls := s.calls.set i call' } := by
  unfold System.advance
  rw [step]
  cases pc : call.pc with
  | issue c r mark => exact absurd pc (quiet c r mark)
  | lookup _ _ => rfl
  | punish _ _ => rfl
  | done _ => rfl

/-- The theft action stamps rows, and the call ends in an error. -/
theorem Inv.punish (inv : Inv H contracts s) {c : SessionsContract} {r : RefreshRow}
    (pc : call.pc = .punish c r) (here : s.calls[i]? = some call) :
    Inv H contracts (s.advance H contracts i call att) := by
  have ok := inv.calls i call here
  unfold CallOk at ok
  rw [pc] at ok
  have restamped : Evolves NoRow s.db (Auth.punish s.db c r call.now) :=
    evolves_restamp (restamped_revoke _ _ _)
  obtain ⟨db', e, applied, step⟩ := stepCall_punish H contracts s.db att pc
  have store : Inv H contracts { s with db := db' } := by
    rcases applied with rfl | rfl
    · exact inv.keepRows (evolves_refl s.db)
    · exact inv.keepRows restamped
  rw [advance_quiet (by simp [pc]) step]
  exact store.setCall ⟨ok, nofun⟩

/-- Where a call is after its insert. -/
def afterIssue (H : TokenHash) (contracts : List SessionsContract) (call : CallState)
    (att : Attempt) : Except RotateError (String × String) → CallState
  | .error .concurrentRotate => enter H contracts call.token (call.attempt + 1) att.now
  | res => { call with pc := .done res }

theorem advance_issue {c : SessionsContract} {r : RefreshRow} {mark : Bool} {db' : Db}
    {res : Except RotateError (String × String)} (pc : call.pc = .issue c r mark)
    (out : issueChild H s.db c r call.now mark att = (db', res)) :
    s.advance H contracts i call att =
      { db := db'
        calls := s.calls.set i (afterIssue H contracts call att res)
        born := s.born ++ ((added s.db db' c.table).map (birth c.table)).toList
        issues := s.issues ++ ((added s.db db' c.table).map fun child =>
          ⟨i, call.token, c, r, call.now, mark, child⟩).toList } := by
  have step : stepCall H contracts s.db call att = (db', afterIssue H contracts call att res) := by
    unfold stepCall
    rw [pc]
    simp only [out]
    rcases res with e | pair
    · cases e <;> rfl
    · rfl
  unfold System.advance
  rw [step, pc]

/-- A lost race: the row is not live, and stays so. -/
theorem spent_of_lost (inv : Inv H contracts s) {c : SessionsContract} {r : RefreshRow}
    (hashed : H.hash call.token = some h) (sighted : Sighted s.born c r h)
    (gone : ¬ (s.db c.table).hasLive r.id) : Spent contracts s.db h := by
  obtain ⟨b, hb, table, id, seen, -⟩ := sighted
  intro c' hc' q mq same live
  have nonempty : q.refreshTokenHash ≠ "" := by
    rw [same]
    exact H.hash_ne_empty _ _ hashed
  -- the hash was only ever stored with the row that was looked up
  obtain rfl := inv.ledger.unique _ (inv.ledger.rows c' hc' q mq nonempty) b hb
    (same.trans seen.symm)
  simp only [birth] at table id
  rw [table] at mq
  exact gone ⟨q, mq, id, live⟩

/-- The marked row is dead once the child is there. -/
theorem dead_of_marked {db : Db} {c : SessionsContract} {p : RefreshRow} {now : Int}
    {draft : SessionRow}
    (parent : ∀ q ∈ draft.parentSessionID, ((db c.table).marked p.id now true).hasID q)
    (old : p.id < (db c.table).nextID) :
    Dead (Function.update db c.table (((db c.table).marked p.id now true).insert draft parent))
      c.table p.id := by
  intro r mem same
  rw [Function.update_self] at mem
  rcases SessionTable.mem_insert_rows.mp mem with here | rfl
  · obtain ⟨q, hq, rfl⟩ := List.mem_map.mp here
    by_cases marks : q.id = p.id ∧ q.revokedAt = none
    · rw [if_pos marks]
      exact Option.some_ne_none now
    · rw [if_neg marks] at same ⊢
      exact fun live => marks ⟨same, live⟩
  · exact absurd same old.ne'

theorem newSessionToken_hash {raw : Option String} {f fh : String}
    (drawn : newSessionToken H raw = some (f, fh)) : H.hash f = some fh := by
  obtain ⟨token, -, hashed⟩ := Option.bind_eq_some_iff.mp drawn
  obtain ⟨digest, here, same⟩ := Option.map_eq_some_iff.mp hashed
  cases same
  exact here

/-- The insert of a child. -/
theorem Inv.inserted (inv : Inv H contracts s) {c : SessionsContract} {r : RefreshRow}
    {mark : Bool} (pc : call.pc = .issue c r mark) (here : s.calls[i]? = some call)
    (fresh : ∀ tok ∈ newSessionToken H att.refresh, ∀ b ∈ s.born, b.hash ≠ tok.2)
    {a ah f fh : String} {res : Except RotateError (String × String)}
    (refresh : newSessionToken H att.refresh = some (f, fh))
    (live : mark = true → (s.db c.table).hasLive r.id)
    (parent : ∀ q ∈ (childRow r ah fh (call.now + accessTTL c) (call.now + refreshTTL c)
      call.now).parentSessionID, ((s.db c.table).marked r.id call.now mark).hasID q)
    (reply : res = .ok (a, f) ∨ res = .error (.db "refresh rotate"))
    {db' : Db} (stored : db' = Function.update s.db c.table
      (((s.db c.table).marked r.id call.now mark).insert
        (childRow r ah fh (call.now + accessTTL c) (call.now + refreshTTL c) call.now) parent)) :
    Inv H contracts
      { db := db'
        calls := s.calls.set i (afterIssue H contracts call att res)
        born := s.born ++ ((added s.db db' c.table).map (birth c.table)).toList
        issues := s.issues ++ ((added s.db db' c.table).map fun child =>
          ⟨i, call.token, c, r, call.now, mark, child⟩).toList } := by
  have ok := inv.calls i call here
  unfold CallOk at ok
  rw [pc] at ok
  obtain ⟨h, hashed, registered, sighted, judged, wait, first⟩ := ok
  have old := sighted.lt inv.ledger
  have restamped := restamped_marked (s.db c.table) r.id call.now mark
  set draft := childRow r ah fh (call.now + accessTTL c) (call.now + refreshTTL c) call.now
  have evolves := evolves_insert restamped draft parent
  have new := added_insert restamped draft parent
  rw [← stored] at evolves new
  set child : SessionRow := { draft with id := (s.db c.table).nextID }
  have freshHash : ∀ b ∈ s.born, b.hash ≠ fh := fresh (f, fh) refresh
  have nextID : (s.db c.table).nextID < (db' c.table).nextID := by
    obtain ⟨next, -⟩ := Restamped.descends restamped
    rw [stored, Function.update_self]
    simp only [SessionTable.insert, next]
    omega
  have freshRow : ∀ n q, n = c.table ∧ q = child → q.refreshTokenHash = "" ∨
      ∀ b ∈ s.born, b.hash ≠ q.refreshTokenHash := by
    rintro n q ⟨-, rfl⟩
    exact .inr freshHash
  rw [new]
  simp only [Option.map_some, Option.toList_some]
  refine ⟨?ledger, ?calls, ?issues, ?dead, ?once⟩
  case ledger =>
    refine inv.ledger.evolve _ evolves ?_ ?_ ?_
    · rintro n q ⟨rfl, rfl⟩ -
      exact List.mem_singleton_self _
    · intro x hx y hy
      rw [List.mem_singleton.mp hx, List.mem_singleton.mp hy]
    · intro x hx
      obtain rfl := List.mem_singleton.mp hx
      exact ⟨freshHash, nextID⟩
  case calls =>
    intro j other there
    by_cases same : i = j
    · subst same
      rw [List.getElem?_set_self'] at there
      obtain ⟨-, -, rfl⟩ := Option.map_eq_some_iff.mp there
      rcases reply with rfl | rfl
      · refine ⟨wait.le, fun pair paid => ?_⟩
        cases paid
        exact ⟨_, List.mem_append_right _ (List.mem_singleton_self _), rfl, rfl,
          newSessionToken_hash refresh⟩
      · refine ⟨wait.le, fun pair paid => ?_⟩
        cases paid
    · rw [List.getElem?_set_ne same] at there
      exact CallOk.mono (inv.calls j other there) evolves (List.subset_append_left _ _)
        (List.subset_append_left _ _) freshRow
  case issues =>
    intro issue mem
    rcases List.mem_append.mp mem with earlier | now
    · exact (inv.issues issue earlier).mono (List.subset_append_left _ _)
    · obtain rfl := List.mem_singleton.mp now
      exact ⟨⟨h, hashed, sighted.mono (List.subset_append_left _ _)⟩, judged, rfl, rfl,
        fun has => if_pos has⟩
  case dead =>
    intro issue mem marked
    rcases List.mem_append.mp mem with earlier | now
    · obtain ⟨h', -, seen⟩ := (inv.issues issue earlier).sighted
      exact (inv.dead issue earlier marked).evolve (seen.lt inv.ledger) evolves
    · obtain rfl := List.mem_singleton.mp now
      simp only at marked
      subst marked
      rw [stored]
      exact dead_of_marked parent old
  case once =>
    refine List.pairwise_append.mpr ⟨inv.once, List.pairwise_singleton _ _, ?_⟩
    intro x hx y hy xMarked yMarked same
    obtain rfl := List.mem_singleton.mp hy
    obtain ⟨q, mq, id, alive⟩ := live yMarked
    have dead := inv.dead x hx xMarked
    rw [same.1, same.2] at dead
    exact dead q mq id alive

/-- An insert of a child, whatever came of it. -/
theorem Inv.issue (inv : Inv H contracts s) {c : SessionsContract} {r : RefreshRow} {mark : Bool}
    (pc : call.pc = .issue c r mark) (here : s.calls[i]? = some call)
    (fresh : ∀ tok ∈ newSessionToken H att.refresh, ∀ b ∈ s.born, b.hash ≠ tok.2) :
    Inv H contracts (s.advance H contracts i call att) := by
  have ok := inv.calls i call here
  unfold CallOk at ok
  rw [pc] at ok
  obtain ⟨h, hashed, registered, sighted, judged, wait, first⟩ := ok
  have issued := issueChild_issued H s.db c r call.now mark att
  rw [advance_issue pc Prod.mk.eta.symm]
  generalize (issueChild H s.db c r call.now mark att).2 = res at issued
  generalize stored : (issueChild H s.db c r call.now mark att).1 = db' at issued
  clear stored
  cases issued with
  | refused e cause =>
      rw [added_self]
      simp only [Option.map_none, Option.toList_none, List.append_nil]
      refine inv.setCall ?_
      rcases cause with rfl | rfl
      · exact ⟨wait.le, nofun⟩
      · exact ⟨wait.le, nofun⟩
  | lost marks gone =>
      rw [added_self]
      simp only [Option.map_none, Option.toList_none, List.append_nil]
      have zero := first marks
      refine inv.setCall (callOk_enter (fun h' hashed' => ?_) (by omega))
      obtain rfl := Option.some.inj (hashed.symm.trans hashed')
      obtain ⟨b, hb, -, -, seen, -⟩ := id sighted
      exact .inr ⟨by omega, ⟨b, hb, seen⟩, spent_of_lost inv hashed sighted gone⟩
  | inserted access refresh live parent reply =>
      exact inv.inserted pc here fresh refresh live parent reply rfl

/-- **Every act keeps the invariant.** -/
theorem Inv.act (inv : Inv H contracts s) {a : Act} (fresh : FreshAct H s a) :
    Inv H contracts (s.act H contracts a).1 := by
  cases a with
  | arrive token now => exact inv.arrive token now
  | login table user orgID tokenHash expiresAt createdAt =>
      have restamped : (s.db table).Restamped (s.db table) :=
        ⟨_, stampUpdate_id, by simp [SessionTable.update]⟩
      refine inv.store (evolves_insert restamped _ _) ?_
      rintro n r ⟨rfl, rfl⟩
      rfl
  | delete table gone => exact inv.keepRows (evolves_delete s.db table gone)
  | advance i att =>
      unfold System.act
      cases here : s.calls[i]? with
      | none => simpa only [here] using inv
      | some call =>
          simp only [here]
          cases pc : call.pc with
          | lookup h rest =>
              obtain ⟨same, ok⟩ := callOk_lookup att inv pc here
              rw [advance_quiet (by simp [pc]) (Prod.mk.eta.symm.trans (by rw [same]))]
              exact inv.setCall ok
          | punish c r => exact inv.punish pc here
          | issue c r mark => exact inv.issue pc here fresh
          | done res =>
              have step : stepCall H contracts s.db call att = (s.db, call) := by
                simp only [stepCall, pc]
              rw [advance_quiet (by simp [pc]) step]
              exact inv.setCall (inv.calls i call here)

end Act

/-! ### Every run -/

/-- No calls yet, and a ledger of the rows that are there. -/
structure Initial (contracts : List SessionsContract) (s : System) : Prop where
  ledger : Ledger contracts s.db s.born
  calls : s.calls = []
  issues : s.issues = []

/-- What linear rotation means of a state: of the children issued so far and of the
calls that arrived. -/
structure RotationLinear (H : TokenHash) (s : System) : Prop where
  /-- A token is rotated with a mark at most once. -/
  one_mark : ∀ token, (s.issues.filter fun issue => issue.token = token ∧ issue.mark).length ≤ 1
  /-- A call that is done failed, or issued the child whose token it returns: as the
  marking rotation, or in the grace of an earlier one. -/
  served : ∀ (i : Nat) (call : CallState) (res : Except RotateError (String × String)),
    s.calls[i]? = some call → call.pc = .done res →
    (∃ e, res = .error e) ∨ ∃ pair, res = .ok pair ∧ ∃ issue ∈ s.issues,
      issue.call = i ∧ issue.token = call.token ∧
      H.hash pair.2 = some issue.child.refreshTokenHash ∧
      (issue.mark = true ∨ ∃ revoked, issue.presented.revokedAt = some revoked ∧
        issue.now - revoked ≤ rotationGrace issue.contract)
  /-- All children of a token have one parent. -/
  one_parent : ∀ a ∈ s.issues, ∀ b ∈ s.issues, a.token = b.token →
    a.contract.table = b.contract.table ∧
      a.child.parentSessionID = b.child.parentSessionID
  /-- No call recurses more than once. -/
  recursion : ∀ (i : Nat) (call : CallState), s.calls[i]? = some call → call.attempt ≤ 1
  /-- A child has the row, the user and the organisation of the presented token. -/
  child : ∀ issue ∈ s.issues, ∃ row ∈ s.born, H.hash issue.token = some row.hash ∧
    row.table = issue.contract.table ∧ issue.child.parentSessionID = some row.id ∧
    issue.child.user = row.user ∧
    (issue.presented.hasOrg = true → issue.child.orgID = row.orgID)

section Runs

variable {s : System}

theorem IssueOk.row {issue : Issue} {born : List Birth} (ok : IssueOk H born issue) :
    ∃ row ∈ born, H.hash issue.token = some row.hash ∧ row.table = issue.contract.table ∧
      row.id = issue.presented.id ∧ issue.child.user = row.user ∧
      (issue.presented.hasOrg = true → issue.child.orgID = row.orgID) := by
  obtain ⟨h, hashed, row, mem, table, id, rfl, user, org⟩ := ok.sighted
  exact ⟨row, mem, hashed, table, id, ok.user.trans user.symm,
    fun has => (ok.org has).trans (org has).symm⟩

/-- Children of one token are children of one row. -/
theorem Inv.one_row (inv : Inv H contracts s) {a b : Issue} (ha : a ∈ s.issues)
    (hb : b ∈ s.issues) (same : a.token = b.token) :
    a.contract.table = b.contract.table ∧ a.presented.id = b.presented.id := by
  obtain ⟨x, hx, seen, table, id, -⟩ := (inv.issues a ha).row
  obtain ⟨y, hy, seen', table', id', -⟩ := (inv.issues b hb).row
  rw [same] at seen
  obtain rfl := inv.ledger.unique x hx y hy (Option.some.inj (seen.symm.trans seen'))
  exact ⟨table.symm.trans table', id.symm.trans id'⟩

theorem CallOk.attempt_le {i : Nat} {call : CallState} (ok : CallOk H contracts s i call) :
    call.attempt ≤ 1 := by
  unfold CallOk at ok
  cases pc : call.pc with
  | lookup h rest =>
      rw [pc] at ok
      exact ok.2.2.le
  | punish c r =>
      rw [pc] at ok
      exact ok
  | issue c r mark =>
      rw [pc] at ok
      obtain ⟨h, -, -, -, -, wait, -⟩ := ok
      exact wait.le
  | done res =>
      rw [pc] at ok
      exact ok.1

theorem length_le_one_of_pairwise_false {α : Type*} {l : List α}
    (never : l.Pairwise fun _ _ => False) : l.length ≤ 1 := by
  match l, never with
  | [], _ => exact Nat.zero_le 1
  | [_], _ => exact le_rfl
  | a :: b :: _, never => exact absurd (List.rel_of_pairwise_cons never List.mem_cons_self) id

/-- The invariant says all that linear rotation means. -/
theorem Inv.linear (inv : Inv H contracts s) : RotationLinear H s where
  one_mark := by
    intro token
    refine length_le_one_of_pairwise_false ?_
    refine (inv.once.sublist List.filter_sublist).imp_of_mem fun {a b} ha hb apart => ?_
    obtain ⟨memA, markedA⟩ := List.mem_filter.mp ha
    obtain ⟨memB, markedB⟩ := List.mem_filter.mp hb
    obtain ⟨rfl, marksA⟩ := of_decide_eq_true markedA
    obtain ⟨same, marksB⟩ := of_decide_eq_true markedB
    exact apart marksA marksB (inv.one_row memA memB same.symm)
  served := by
    intro i call res here pc
    have ok := inv.calls i call here
    unfold CallOk at ok
    rw [pc] at ok
    rcases res with e | pair
    · exact .inl ⟨e, rfl⟩
    · obtain ⟨issue, mem, by_, token, paid⟩ := ok.2 pair rfl
      refine .inr ⟨pair, rfl, issue, mem, by_, token, paid, ?_⟩
      rcases (verdict_issue (inv.issues issue mem).judged).2 with ⟨marked, -⟩ | ⟨-, grace⟩
      · exact .inl marked
      · exact .inr grace
  one_parent := by
    intro a ha b hb same
    obtain ⟨table, id⟩ := inv.one_row ha hb same
    exact ⟨table, by rw [(inv.issues a ha).parent, (inv.issues b hb).parent, id]⟩
  recursion := fun i call here => (inv.calls i call here).attempt_le
  child := by
    intro issue mem
    obtain ⟨row, born, seen, table, id, user, org⟩ := (inv.issues issue mem).row
    exact ⟨row, born, seen, table, by rw [(inv.issues issue mem).parent, id], user, org⟩

/-- **Rotation is linear** in every state that any interleaving of calls, logins,
deletions and thefts reaches. -/
theorem rotation_linear (H : TokenHash) (contracts : List SessionsContract) (s : System)
    (acts : List Act) (start : Initial contracts s)
    (fresh : Along (System.act H contracts) (FreshAct H) s acts) :
    RotationLinear H (runState (System.act H contracts) s acts) := by
  have inv : Inv H contracts s := by
    refine ⟨start.ledger, ?_, ?_, ?_, ?_⟩
    · simp [start.calls]
    · simp [start.issues]
    · simp [start.issues]
    · simp [start.issues]
  exact (fresh.inv (fun s a inv fresh => inv.act fresh) inv).linear

/-! ### A race -/

def raceStart : System where
  db := fun _ => loginTable
  calls := []
  born := [birth userSession.table loginRow]
  issues := []

/-- Two calls look the same token up; the first marks it, the second loses the race
and is served in the grace. -/
def raceActs : List Act :=
  [.arrive (drawn 0) 0, .arrive (drawn 0) 0,
    .advance 0 (tryAttempt 0 1 2), .advance 1 (tryAttempt 0 3 4),
    .advance 0 (tryAttempt 0 1 2), .advance 1 (tryAttempt 0 3 4),
    .advance 1 (tryAttempt 0 3 4), .advance 1 (tryAttempt 0 3 4)]

theorem rotation_linear_race :
    RotationLinear digestHash (runState (System.act digestHash [userSession]) raceStart raceActs) :=
  rotation_linear digestHash [userSession] raceStart raceActs
    ⟨⟨by decide, by decide, by decide⟩, rfl, rfl⟩ (by decide)

example : (runState (System.act digestHash [userSession]) raceStart raceActs).calls.map
    (·.attempt) = [0, 1] := by decide

end Runs

end Lazuli.Auth
