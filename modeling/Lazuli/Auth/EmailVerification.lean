import Mathlib.Data.List.Nodup
import Lazuli.General.Transition

/-!
Email verification (`runtime/go/lazuli/auth/email_verification.go`).

`IssueEmailVerificationToken` reads the user's identity value and then inserts the token's row;
`VerifyEmailToken` consumes the row and marks the user in one statement, and asks in a second one
why there was nothing to consume. Between any two statements other calls may run, and the
user may get another identity value.

The row keeps the identity value that the token was sent to, and nothing reads it again.
`log` is only there to be talked about: it lists what marked a user verified.
-/

namespace Lazuli.Auth.EmailVerification

open Lazuli.General

/-! ### Tables -/

/-- `identity` is the column of `contract.Identity`, and `verifiedAt` its companion. -/
structure UserRow where
  identity : Option String
  verifiedAt : Option Int
  deriving DecidableEq

structure TokenRow where
  user : Int
  identityValue : String
  tokenHash : String
  expiresAt : Int
  createdAt : Int
  consumedAt : Option Int
  deriving DecidableEq

/-- Users by their primary key; tokens in the order of their issue. -/
structure Db where
  users : Int → Option UserRow
  tokens : List TokenRow

/-- A user was marked verified: the place of the token's row, the row as it was, and the
user's identity value at that moment. -/
structure Mark where
  token : Nat
  row : TokenRow
  identity : Option String
  now : Int
  deriving DecidableEq

namespace Db

/-- `SELECT <identity> … WHERE id = $1`; a missing row and a NULL are errors. -/
def loadIdentity (db : Db) (user : Int) : Option String := (db.users user).bind (·.identity)

def insertToken (db : Db) (row : TokenRow) : Db := { db with tokens := db.tokens ++ [row] }

/-- `UPDATE … SET <identity> = $1 WHERE id = $2`. -/
def changeIdentity (db : Db) (user : Int) (value : Option String) : Db :=
  { db with users := fun id =>
      if id = user then (db.users id).map fun u => { u with identity := value } else db.users id }

/-- The rows that the statement consumes. -/
def consumable (db : Db) (tokenHash : String) (now : Int) : List (TokenRow × Nat) :=
  db.tokens.zipIdx.filter fun (row, _) =>
    row.tokenHash = tokenHash ∧ row.consumedAt = none ∧ now < row.expiresAt

def markVerified (db : Db) (user : Int) (u : UserRow) (now : Int) : Db :=
  { db with users := Function.update db.users user (some { u with verifiedAt := some now }) }

/-- `WITH consumed AS (UPDATE …), marked AS (UPDATE …) SELECT id FROM marked`. Two rows in
`consumed` are an error of the scalar subquery; then nothing is written. -/
def consume (db : Db) (tokenHash : String) (now : Int) : Option (Db × Option Mark) :=
  match db.consumable tokenHash now with
  | [] => some (db, none)
  | [(row, i)] =>
      let consumed := { db with tokens := db.tokens.set i { row with consumedAt := some now } }
      match db.users row.user with
      | none => some (consumed, none)
      | some u => some (consumed.markVerified row.user u now, some ⟨i, row, u.identity, now⟩)
  | _ => none

/-- The second statement, which tells an expired token from an unknown one. -/
def tokenExpired (db : Db) (tokenHash : String) (now : Int) : Bool :=
  match db.tokens.find? fun row => row.tokenHash = tokenHash ∧ row.consumedAt = none with
  | none => false
  | some row => decide (row.expiresAt ≤ now)

end Db

/-! ### The calls -/

inductive VerifyError where
  | tokenInvalid
  | tokenExpired
  | random
  | statement
  deriving DecidableEq

/-- `now` is the request time. -/
inductive Call where
  | issue (user now : Int)
  | verify (token : String) (now : Int)
  deriving DecidableEq

/-- All calls of a run. `random` draws the token of an issue, `hashToken` decodes and hashes a
token; both may fail. -/
structure World where
  ttl : Int
  random : Nat → Option String
  hashToken : String → Option String
  calls : Nat → Call

def emailVerificationTTL (ttl : Int) : Int := if 0 < ttl then ttl else 86400000000000

/-- Where a call is: before the SELECT or the INSERT of an issue, before the first or the
second statement of a verification, or back. -/
inductive Phase where
  | loading (user now : Int) (token tokenHash : String)
  | inserting (user now : Int) (token tokenHash identityValue : String)
  | consuming (tokenHash : String) (now : Int)
  | asking (tokenHash : String) (now : Int)
  | issued (token : String)
  | verified (user : Int)
  | failed (err : VerifyError)
  deriving DecidableEq

def enter (W : World) (i : Nat) : Phase :=
  match W.calls i with
  | .issue user now =>
      match W.random i with
      | none => .failed .random
      | some token =>
          match W.hashToken token with
          | none => .failed .tokenInvalid
          | some tokenHash => .loading user now token tokenHash
  | .verify token now =>
      match W.hashToken token with
      | none => .failed .tokenInvalid
      | some tokenHash => .consuming tokenHash now

/-- The next statement of a call; `ok = false` is a statement that fails and does nothing. -/
def stepCall (W : World) (db : Db) (phase : Phase) (ok : Bool) : Db × Phase × Option Mark :=
  match phase, ok with
  | .loading user now token tokenHash, true =>
      match db.loadIdentity user with
      | none => (db, .failed .statement, none)
      | some value => (db, .inserting user now token tokenHash value, none)
  | .inserting user now token tokenHash value, true =>
      (db.insertToken ⟨user, value, tokenHash, now + emailVerificationTTL W.ttl, now, none⟩,
        .issued token, none)
  | .consuming tokenHash now, true =>
      match db.consume tokenHash now with
      | none => (db, .failed .statement, none)
      | some (db', none) => (db', .asking tokenHash now, none)
      | some (db', some mark) => (db', .verified mark.row.user, some mark)
  | .asking tokenHash now, true =>
      (db, .failed (if db.tokenExpired tokenHash now then .tokenExpired else .tokenInvalid), none)
  | .issued token, _ => (db, .issued token, none)
  | .verified user, _ => (db, .verified user, none)
  | .failed err, _ => (db, .failed err, none)
  | _, false => (db, .failed .statement, none)

/-! ### The system -/

structure State where
  db : Db
  phases : Nat → Phase
  log : List Mark

inductive Act where
  | advance (call : Nat) (ok : Bool)
  | change (user : Int) (value : Option String)
  deriving DecidableEq

/-- Nothing has been issued yet. -/
def init (W : World) (users : Int → Option UserRow) : State := ⟨⟨users, []⟩, enter W, []⟩

def step (W : World) (s : State) : Act → State × Unit
  | .advance call ok =>
      let next := stepCall W s.db (s.phases call) ok
      (⟨next.1, Function.update s.phases call next.2.1, next.2.2.toList ++ s.log⟩, ())
  | .change user value => (⟨s.db.changeIdentity user value, s.phases, s.log⟩, ())

/-! ### Binding -/

/-- Users were marked verified while their identity value was the one that the token was issued
for and the token had not expired, and no token has marked twice. -/
structure Binds (log : List Mark) : Prop where
  identity : ∀ m ∈ log, m.identity = some m.row.identityValue
  unexpired : ∀ m ∈ log, m.now < m.row.expiresAt
  once : (log.map (·.token)).Nodup

/-- A change gives the user no identity value but that of the tokens which are not consumed,
and of those about to be inserted. -/
def Clean (s : State) : Act → Prop
  | .advance _ _ => True
  | .change user value =>
      (∀ row ∈ s.db.tokens, row.user = user → row.consumedAt = none →
        value = some row.identityValue) ∧
      ∀ i now token tokenHash identityValue,
        s.phases i = .inserting user now token tokenHash identityValue → value = some identityValue

/-! ### The invariant -/

/-- The identity value of the user, if there is one. -/
def Db.Has (db : Db) (user : Int) (value : String) : Prop :=
  ∀ u, db.users user = some u → u.identity = some value

structure Inv (s : State) : Prop where
  outstanding : ∀ row ∈ s.db.tokens, row.consumedAt = none → s.db.Has row.user row.identityValue
  loaded : ∀ i user now token tokenHash value,
    s.phases i = .inserting user now token tokenHash value → s.db.Has user value
  binds : Binds s.log
  spent : ∀ m ∈ s.log, ∃ row, s.db.tokens[m.token]? = some row ∧ row.consumedAt ≠ none

theorem mem_consumable {db : Db} {tokenHash : String} {now : Int} {row : TokenRow} {i : Nat}
    (h : (row, i) ∈ db.consumable tokenHash now) : db.tokens[i]? = some row ∧
      row.consumedAt = none ∧ now < row.expiresAt := by
  obtain ⟨mem, holds⟩ := List.mem_filter.mp h
  rw [decide_eq_true_eq] at holds
  exact ⟨List.mem_zipIdx_iff_getElem?.mp mem, holds.2⟩

/-- What the statement can do. -/
inductive Consumes (db : Db) (now : Int) : Db × Option Mark → Prop where
  | nothing : Consumes db now (db, none)
  | nobody {row : TokenRow} {i : Nat} : db.tokens[i]? = some row → row.consumedAt = none →
      Consumes db now
        ({ db with tokens := db.tokens.set i { row with consumedAt := some now } }, none)
  | marks {row : TokenRow} {i : Nat} {u : UserRow} : db.tokens[i]? = some row →
      row.consumedAt = none → now < row.expiresAt → db.users row.user = some u →
      Consumes db now
        (Db.markVerified { db with tokens := db.tokens.set i { row with consumedAt := some now } }
          row.user u now, some ⟨i, row, u.identity, now⟩)

theorem consumes {db : Db} {tokenHash : String} {now : Int} {result : Db × Option Mark}
    (h : db.consume tokenHash now = some result) : Consumes db now result := by
  unfold Db.consume at h
  cases hits : db.consumable tokenHash now with
  | nil =>
      rw [hits] at h
      cases h
      exact .nothing
  | cons hit rest =>
      obtain ⟨row, i⟩ := hit
      cases rest with
      | cons other rest =>
          rw [hits] at h
          cases h
      | nil =>
          rw [hits] at h
          have mem : (row, i) ∈ db.consumable tokenHash now := by
            rw [hits]
            exact List.mem_singleton_self _
          obtain ⟨found, unconsumed, unexpired⟩ := mem_consumable mem
          dsimp only at h
          cases huser : db.users row.user with
          | none =>
              rw [huser] at h
              cases h
              exact .nobody found unconsumed
          | some u =>
              rw [huser] at h
              cases h
              exact .marks found unconsumed unexpired huser

/-- What the next statement of a call can do. -/
inductive Moves (db : Db) : Phase → Db × Phase × Option Mark → Prop where
  | quiet {phase phase' : Phase} :
      (∀ user now token tokenHash value, phase' ≠ .inserting user now token tokenHash value) →
      Moves db phase (db, phase', none)
  | load {user now : Int} {token tokenHash value : String} :
      db.loadIdentity user = some value →
      Moves db (.loading user now token tokenHash)
        (db, .inserting user now token tokenHash value, none)
  | insert {user now : Int} {token tokenHash value : String} (createdAt expiresAt : Int) :
      Moves db (.inserting user now token tokenHash value)
        (db.insertToken ⟨user, value, tokenHash, expiresAt, createdAt, none⟩, .issued token, none)
  | consume {now : Int} {phase phase' : Phase} {result : Db × Option Mark} :
      Consumes db now result →
      (∀ user now token tokenHash value, phase' ≠ .inserting user now token tokenHash value) →
      Moves db phase (result.1, phase', result.2)

theorem moves (W : World) (db : Db) (phase : Phase) (ok : Bool) :
    Moves db phase (stepCall W db phase ok) := by
  cases phase with
  | loading user now token tokenHash =>
      cases ok with
      | false => exact .quiet (by simp)
      | true =>
          simp only [stepCall]
          cases hload : db.loadIdentity user with
          | none => exact .quiet (by simp)
          | some value => exact .load hload
  | inserting user now token tokenHash value =>
      cases ok with
      | false => exact .quiet (by simp)
      | true => exact .insert _ _
  | consuming tokenHash now =>
      cases ok with
      | false => exact .quiet (by simp)
      | true =>
          simp only [stepCall]
          cases hconsume : db.consume tokenHash now with
          | none => exact .quiet (by simp)
          | some result =>
              obtain ⟨db', mark⟩ := result
              cases mark with
              | none => exact .consume (consumes hconsume) (by simp)
              | some mark => exact .consume (consumes hconsume) (by simp)
  | asking tokenHash now => cases ok <;> exact .quiet (by simp)
  | issued token => cases ok <;> exact .quiet (by simp)
  | verified user => cases ok <;> exact .quiet (by simp)
  | failed err => cases ok <;> exact .quiet (by simp)

section Preserve

variable {W : World} {s : State}

theorem has_of_load {db : Db} {user : Int} {value : String}
    (h : db.loadIdentity user = some value) : db.Has user value := by
  intro u hu
  unfold Db.loadIdentity at h
  rw [hu] at h
  exact h

/-- Marking a user verified changes nobody's identity value. -/
theorem has_markVerified (db : Db) {user other : Int} {u : UserRow} {now : Int} {value : String}
    (hu : db.users user = some u) (h : db.Has other value) :
    (db.markVerified user u now).Has other value := by
  intro u' hu'
  by_cases same : other = user
  · subst same
    have marked : (db.markVerified other u now).users other =
        some { u with verifiedAt := some now } := Function.update_self ..
    cases marked.symm.trans hu'
    exact h u hu
  · have unmarked : (db.markVerified user u now).users other = db.users other :=
      Function.update_of_ne same ..
    exact h u' (unmarked.symm.trans hu')

/-- The phases after a step of one call. -/
theorem loaded_update {db : Db} {call : Nat} {phase : Phase} (inv : Inv s)
    (keeps : ∀ user value, s.db.Has user value → db.Has user value)
    (own : ∀ user now token tokenHash value,
      phase = .inserting user now token tokenHash value → db.Has user value)
    (i : Nat) (user now : Int) (token tokenHash value : String)
    (h : Function.update s.phases call phase i = .inserting user now token tokenHash value) :
    db.Has user value := by
  by_cases hi : i = call
  · subst hi
    rw [Function.update_self] at h
    exact own _ _ _ _ _ h
  · rw [Function.update_of_ne hi] at h
    exact keeps _ _ (inv.loaded i _ _ _ _ _ h)

/-- A step that leaves the database as it is. -/
theorem Inv.quiet (inv : Inv s) (call : Nat) {phase : Phase}
    (own : ∀ user now token tokenHash value,
      phase = .inserting user now token tokenHash value → s.db.Has user value) :
    Inv ⟨s.db, Function.update s.phases call phase, s.log⟩ :=
  ⟨inv.outstanding, loaded_update inv (fun _ _ => id) own, inv.binds, inv.spent⟩

theorem Inv.insert (inv : Inv s) (call : Nat) {row : TokenRow} {phase : Phase}
    (fresh : s.db.Has row.user row.identityValue)
    (own : ∀ user now token tokenHash value,
      phase ≠ .inserting user now token tokenHash value) :
    Inv ⟨s.db.insertToken row, Function.update s.phases call phase, s.log⟩ where
  outstanding := by
    intro r mem unconsumed
    rcases List.mem_append.mp mem with old | new
    · exact inv.outstanding r old unconsumed
    · rw [List.mem_singleton.mp new]
      exact fresh
  loaded := loaded_update inv (fun _ _ => id) fun _ _ _ _ _ h => (own _ _ _ _ _ h).elim
  binds := inv.binds
  spent := by
    intro m mem
    obtain ⟨r, found, consumed⟩ := inv.spent m mem
    have bound := (List.getElem?_eq_some_iff.mp found).1
    exact ⟨r, by rw [Db.insertToken, List.getElem?_append_left bound, found], consumed⟩

/-- Consuming a row leaves the others outstanding, and the consumed ones consumed. -/
theorem outstanding_set (inv : Inv s) {row : TokenRow} {i : Nat} {now : Int} :
    ∀ r ∈ s.db.tokens.set i { row with consumedAt := some now }, r.consumedAt = none →
      s.db.Has r.user r.identityValue := by
  intro r mem unconsumed
  rcases List.mem_or_eq_of_mem_set mem with old | rfl
  · exact inv.outstanding r old unconsumed
  · cases unconsumed

theorem spent_set (inv : Inv s) {row : TokenRow} {i : Nat} {now : Int} :
    ∀ m ∈ s.log, ∃ r, (s.db.tokens.set i { row with consumedAt := some now })[m.token]? = some r ∧
      r.consumedAt ≠ none := by
  intro m mem
  obtain ⟨r, found, consumed⟩ := inv.spent m mem
  by_cases same : i = m.token
  · refine ⟨{ row with consumedAt := some now }, ?_, Option.some_ne_none _⟩
    rw [← same] at found ⊢
    exact List.getElem?_set_self (List.getElem?_eq_some_iff.mp found).1
  · exact ⟨r, by rw [List.getElem?_set_ne same, found], consumed⟩

theorem Inv.consume (inv : Inv s) (call : Nat) {now : Int} {result : Db × Option Mark}
    {phase : Phase} (h : Consumes s.db now result)
    (own : ∀ user now token tokenHash value,
      phase ≠ .inserting user now token tokenHash value) :
    Inv ⟨result.1, Function.update s.phases call phase, result.2.toList ++ s.log⟩ := by
  cases h with
  | nothing => exact inv.quiet call fun _ _ _ _ _ h => (own _ _ _ _ _ h).elim
  | @nobody row i found unconsumed =>
      exact ⟨outstanding_set inv, loaded_update inv (fun _ _ => id) fun _ _ _ _ _ h =>
        (own _ _ _ _ _ h).elim, inv.binds, spent_set inv⟩
  | @marks row i u found unconsumed unexpired hu =>
      have mem := List.mem_of_getElem? found
      have bound := inv.outstanding row mem unconsumed u hu
      have new : ∀ m ∈ s.log, m.token ≠ i := by
        rintro m hm rfl
        obtain ⟨r, found', consumed⟩ := inv.spent m hm
        cases found.symm.trans found'
        exact consumed unconsumed
      refine ⟨?_, ?_, ⟨?_, ?_, ?_⟩, ?_⟩
      · intro r hr free
        exact has_markVerified { s.db with tokens := _ } hu (outstanding_set inv r hr free)
      · refine loaded_update inv (fun user value h => ?_) fun _ _ _ _ _ h => (own _ _ _ _ _ h).elim
        exact has_markVerified { s.db with tokens := _ } hu h
      · rintro m (_ | ⟨_, old⟩)
        · exact bound
        · exact inv.binds.identity m old
      · rintro m (_ | ⟨_, old⟩)
        · exact unexpired
        · exact inv.binds.unexpired m old
      · refine List.nodup_cons.mpr ⟨?_, inv.binds.once⟩
        intro twice
        obtain ⟨m, hm, same⟩ := List.mem_map.mp twice
        exact new m hm same
      · rintro m (_ | ⟨_, old⟩)
        · refine ⟨{ row with consumedAt := some now }, ?_, Option.some_ne_none _⟩
          exact List.getElem?_set_self (List.getElem?_eq_some_iff.mp found).1
        · exact spent_set inv m old

theorem Inv.change (inv : Inv s) {user : Int} {value : Option String}
    (clean : Clean s (.change user value)) :
    Inv ⟨s.db.changeIdentity user value, s.phases, s.log⟩ := by
  have changed : ∀ id v, s.db.Has id v → (id = user → value = some v) →
      (s.db.changeIdentity user value).Has id v := by
    intro id v has kept u hu
    unfold Db.changeIdentity at hu
    dsimp only at hu
    by_cases same : id = user
    · rw [if_pos same] at hu
      obtain ⟨old, -, rfl⟩ := Option.map_eq_some_iff.mp hu
      exact kept same
    · rw [if_neg same] at hu
      exact has u hu
  refine ⟨?_, ?_, inv.binds, inv.spent⟩
  · intro row mem unconsumed
    exact changed _ _ (inv.outstanding row mem unconsumed) fun same =>
      clean.1 row mem same unconsumed
  · intro i id now token tokenHash v h
    exact changed _ _ (inv.loaded i id now token tokenHash v h) fun same => by
      subst same
      exact clean.2 i now token tokenHash v h

theorem inv_step (inv : Inv s) {a : Act} (clean : Clean s a) : Inv (step W s a).1 := by
  cases a with
  | change user value => exact inv.change clean
  | advance call ok =>
      have moved := moves W s.db (s.phases call) ok
      unfold step
      dsimp only
      generalize hphase : s.phases call = phase at moved
      generalize stepCall W s.db phase ok = next at moved
      cases moved with
      | quiet other => exact inv.quiet call fun _ _ _ _ _ h => (other _ _ _ _ _ h).elim
      | load found =>
          refine inv.quiet call ?_
          intro user now token tokenHash value same
          obtain ⟨rfl, -, -, -, rfl⟩ := Phase.inserting.inj same
          exact has_of_load found
      | insert createdAt expiresAt =>
          exact inv.insert call (inv.loaded call _ _ _ _ _ hphase) (by simp)
      | consume done other => exact inv.consume call done other

theorem inv_init (W : World) (users : Int → Option UserRow) : Inv (init W users) where
  outstanding _ mem := absurd mem List.not_mem_nil
  loaded i user now token tokenHash value h := by
    have entered : enter W i = .inserting user now token tokenHash value := h
    unfold enter at entered
    repeat' split at entered
    all_goals cases entered
  binds := ⟨fun _ mem => absurd mem List.not_mem_nil, fun _ mem => absurd mem List.not_mem_nil,
    List.nodup_nil⟩
  spent _ mem := absurd mem List.not_mem_nil

end Preserve

/-- While nobody who has an outstanding token gets another identity value, tokens verify the
identity value that they were issued for, unexpired, and once. -/
theorem verified_as_issued (W : World) (users : Int → Option UserRow) (acts : List Act)
    (clean : Along (step W) Clean (init W users) acts) :
    Binds (runState (step W) (init W users) acts).log :=
  (clean.inv (I := Inv) (fun _ _ inv clean => inv_step inv clean) (inv_init W users)).binds

/-! ### An address that changes -/

/-- Call 0 issues a token to user 7, the other calls verify it. -/
def postbox : World where
  ttl := 0
  random := fun _ => some "c2VjcmV0"
  hashToken := fun token => if token = "c2VjcmV0" then some "2bb80d" else none
  calls := fun i => if i = 0 then .issue 7 100 else .verify "c2VjcmV0" 200

def ada : Int → Option UserRow := fun id =>
  if id = 7 then some ⟨some "ada@example.test", none⟩ else none

theorem verified_as_issued_ada :
    Along (step postbox) Clean (init postbox ada)
        [.advance 0 true, .advance 0 true, .advance 1 true] ∧
      Binds (runState (step postbox) (init postbox ada)
        [.advance 0 true, .advance 0 true, .advance 1 true]).log :=
  ⟨⟨trivial, trivial, trivial, trivial⟩,
    verified_as_issued postbox ada _ ⟨trivial, trivial, trivial, trivial⟩⟩

/-- The address changes between the two calls, and the new one is verified. -/
theorem new_address_verified : ¬ Binds (runState (step postbox) (init postbox ada)
    [.advance 0 true, .advance 0 true, .change 7 (some "eve@example.test"),
      .advance 1 true]).log := by
  intro binds
  have log : (runState (step postbox) (init postbox ada)
      [.advance 0 true, .advance 0 true, .change 7 (some "eve@example.test"),
        .advance 1 true]).log =
      [⟨0, ⟨7, "ada@example.test", "2bb80d", 86400000000100, 100, none⟩,
        some "eve@example.test", 200⟩] := rfl
  rw [log] at binds
  have same := binds.identity _ List.mem_cons_self
  exact absurd (Option.some.inj same) (by decide)

end Lazuli.Auth.EmailVerification
