import Lazuli.General.Transition

/-!
Password reset (`runtime/go/lazuli/auth/password_reset.go`).

`ConfirmPasswordReset` reads the token's row, sets the password and marks the row, in three
statements without a transaction. `stepConfirm` is the call cut at its statements; a `State`
is a database with any number of calls in flight, and an `Act` is the next statement of one
of them, which may fail.

`log` is only there to be talked about: it lists what the calls wrote.

`single_use_iff` says which runs use a token once: those in which a password is set only
while the token is unmarked and nobody else is about to mark it, and in which no mark fails.
-/

namespace Lazuli.Auth.PasswordReset

open Lazuli.General

/-! ### Tables -/

structure UserRow where
  id : Int
  passwordHash : String
  deriving DecidableEq

structure TokenRow where
  user : Int
  tokenHash : String
  expiresAt : Int
  usedAt : Option Int
  deriving DecidableEq

structure Db where
  users : List UserRow
  tokens : List TokenRow
  deriving DecidableEq

namespace Db

def findToken (db : Db) (tokenHash : String) : Option TokenRow :=
  db.tokens.find? fun r => r.tokenHash = tokenHash

def hasUser (db : Db) (user : Int) : Bool := db.users.any fun u => u.id = user

/-- `UPDATE … SET password_hash = $1 WHERE id = $2`. -/
def updateUser (db : Db) (passwordHash : String) (user : Int) : Db :=
  { db with users := db.users.map fun u =>
      if u.id = user then { u with passwordHash := passwordHash } else u }

/-- `UPDATE … SET used_at = $1 WHERE token_hash = $2`. -/
def useToken (db : Db) (now : Int) (tokenHash : String) : Db :=
  { db with tokens := db.tokens.map fun r =>
      if r.tokenHash = tokenHash then { r with usedAt := some now } else r }

variable (db : Db) (user other now : Int) (hash hash' : String)

@[simp] theorem findToken_updateUser : (db.updateUser hash user).findToken hash' =
    db.findToken hash' := rfl

@[simp] theorem hasUser_useToken : (db.useToken now hash).hasUser user = db.hasUser user := rfl

@[simp] theorem hasUser_updateUser :
    (db.updateUser hash user).hasUser other = db.hasUser other := by
  unfold hasUser updateUser
  rw [List.any_map]
  congr 1
  funext u
  rw [Function.comp_apply]
  split <;> rfl

theorem findToken_useToken : (db.useToken now hash).findToken hash' =
    (db.findToken hash').map fun r =>
      if r.tokenHash = hash then { r with usedAt := some now } else r := by
  unfold findToken useToken
  rw [List.find?_map]
  congr 2
  funext r
  rw [Function.comp_apply]
  split <;> rfl

end Db

/-! ### One call -/

inductive ResetError where
  | tokenInvalid
  | tokenExpired
  | statement
  | hashing
  deriving DecidableEq

/-- `now` is the request time. -/
structure Confirm where
  token : String
  newPassword : String
  now : Int

/-- All calls of a run. `hashToken` decodes and hashes a token, `hashPassword` salts each
call's password anew; both may fail. -/
structure World where
  hashToken : String → Option String
  hashPassword : Nat → String → Option String
  calls : Nat → Confirm

def checkToken (row : TokenRow) (now : Int) : Except ResetError Unit :=
  if row.usedAt ≠ none then .error .tokenInvalid
  else if ¬ now < row.expiresAt then .error .tokenExpired
  else .ok ()

/-- Where a call is: before the SELECT, before the password UPDATE, before the token UPDATE,
or back with its error. -/
inductive Phase where
  | looking (tokenHash : String)
  | checked (tokenHash : String) (user : Int) (passwordHash : String)
  | updated (tokenHash : String) (user : Int)
  | returned (err : Option ResetError)
  deriving DecidableEq

def enter (W : World) (i : Nat) : Phase :=
  match W.hashToken (W.calls i).token with
  | none => .returned (some .tokenInvalid)
  | some tokenHash => .looking tokenHash

/-- After the SELECT found `row`. -/
def checkRow (W : World) (i : Nat) (tokenHash : String) (row : TokenRow) : Phase :=
  match checkToken row (W.calls i).now with
  | .error e => .returned (some e)
  | .ok () =>
      match W.hashPassword i (W.calls i).newPassword with
      | none => .returned (some .hashing)
      | some passwordHash => .checked tokenHash row.user passwordHash

inductive Table where
  | user
  | token
  deriving DecidableEq

/-- The next statement of a call; `ok = false` is a statement that fails and does nothing.
The last component is the table in which it wrote a row. -/
def stepConfirm (W : World) (i : Nat) (db : Db) (phase : Phase) (ok : Bool) :
    Db × Phase × Option Table :=
  match phase, ok with
  | .looking tokenHash, true =>
      match db.findToken tokenHash with
      | none => (db, .returned (some .tokenInvalid), none)
      | some row => (db, checkRow W i tokenHash row, none)
  | .checked tokenHash user passwordHash, true =>
      (db.updateUser passwordHash user, .updated tokenHash user,
        if db.hasUser user then some .user else none)
  | .updated tokenHash _, true =>
      (db.useToken (W.calls i).now tokenHash, .returned none,
        if (db.findToken tokenHash).isSome then some .token else none)
  | .returned err, _ => (db, .returned err, none)
  | _, false => (db, .returned (some .statement), none)

/-- The whole call, statement by statement. -/
def confirmPasswordReset (W : World) (i : Nat) (db : Db) (okSelect okUser okToken : Bool) :
    Db × Option ResetError :=
  match W.hashToken (W.calls i).token with
  | none => (db, some .tokenInvalid)
  | some tokenHash =>
      if !okSelect then (db, some .statement)
      else
        match db.findToken tokenHash with
        | none => (db, some .tokenInvalid)
        | some row =>
            match checkToken row (W.calls i).now with
            | .error e => (db, some e)
            | .ok () =>
                match W.hashPassword i (W.calls i).newPassword with
                | none => (db, some .hashing)
                | some passwordHash =>
                    if !okUser then (db, some .statement)
                    else
                      let db := db.updateUser passwordHash row.user
                      if !okToken then (db, some .statement)
                      else (db.useToken (W.calls i).now tokenHash, none)

/-! ### The system -/

structure State where
  db : Db
  phases : Nat → Phase
  log : List (Nat × Table)

structure Act where
  call : Nat
  ok : Bool
  deriving DecidableEq

def init (W : World) (db : Db) : State := ⟨db, enter W, []⟩

def step (W : World) (s : State) (a : Act) : State × Unit :=
  let next := stepConfirm W a.call s.db (s.phases a.call) a.ok
  (⟨next.1, Function.update s.phases a.call next.2.1,
    (next.2.2.map fun t => (a.call, t)).toList ++ s.log⟩, ())

/-- What a step of a call can do. -/
inductive Moves (W : World) (s : State) (a : Act) : State → Prop where
  | idle {err : Option ResetError} : s.phases a.call = .returned err → Moves W s a s
  | fail (e : ResetError) : (∀ err, s.phases a.call ≠ .returned err) →
      ((∃ tokenHash, s.phases a.call = .looking tokenHash) ∨ a.ok = false) →
      Moves W s a ⟨s.db, Function.update s.phases a.call (.returned (some e)), s.log⟩
  | check {tokenHash passwordHash : String} {row : TokenRow} :
      s.phases a.call = .looking tokenHash → s.db.findToken tokenHash = some row →
      row.usedAt = none →
      Moves W s a
        ⟨s.db, Function.update s.phases a.call (.checked tokenHash row.user passwordHash), s.log⟩
  | set {tokenHash passwordHash : String} {user : Int} :
      s.phases a.call = .checked tokenHash user passwordHash → a.ok = true →
      Moves W s a ⟨s.db.updateUser passwordHash user,
        Function.update s.phases a.call (.updated tokenHash user),
        (if s.db.hasUser user then [(a.call, .user)] else []) ++ s.log⟩
  | mark {tokenHash : String} {user : Int} :
      s.phases a.call = .updated tokenHash user → a.ok = true →
      Moves W s a ⟨s.db.useToken (W.calls a.call).now tokenHash,
        Function.update s.phases a.call (.returned none),
        (if (s.db.findToken tokenHash).isSome then [(a.call, .token)] else []) ++ s.log⟩

theorem checkToken_ok {row : TokenRow} {now : Int} (h : checkToken row now = .ok ()) :
    row.usedAt = none := by
  unfold checkToken at h
  split at h
  · cases h
  next unused => exact not_not.mp unused

theorem moves (W : World) (s : State) (a : Act) : Moves W s a (step W s a).1 := by
  unfold step
  cases hphase : s.phases a.call with
  | looking tokenHash =>
      have running : ∀ err, s.phases a.call ≠ .returned err := by simp [hphase]
      cases hok : a.ok with
      | false => exact .fail _ running (.inr hok)
      | true =>
          simp only [stepConfirm]
          cases hrow : s.db.findToken tokenHash with
          | none => exact .fail _ running (.inl ⟨_, hphase⟩)
          | some row =>
              simp only [checkRow]
              split
              · exact .fail _ running (.inl ⟨_, hphase⟩)
              next unused =>
                split
                · exact .fail _ running (.inl ⟨_, hphase⟩)
                · exact .check hphase hrow (checkToken_ok unused)
  | checked tokenHash user passwordHash =>
      cases hok : a.ok with
      | false => exact .fail _ (by simp [hphase]) (.inr hok)
      | true =>
          have moved := Moves.set (W := W) hphase hok
          simp only [stepConfirm]
          split <;> simp_all
  | updated tokenHash user =>
      cases hok : a.ok with
      | false => exact .fail _ (by simp [hphase]) (.inr hok)
      | true =>
          have moved := Moves.mark (W := W) hphase hok
          simp only [stepConfirm]
          split <;> simp_all
  | returned err =>
      have same : Function.update s.phases a.call (.returned err) = s.phases := by
        rw [← hphase, Function.update_eq_self]
      simp only [stepConfirm, same]
      exact .idle hphase

/-! ### Single use -/

def hashOf (W : World) (i : Nat) : Option String := W.hashToken (W.calls i).token

/-- Of all calls with a token that has this hash, at most one has set a password, and those
that returned an error have written nothing. -/
structure SingleUse (W : World) (hash : String) (s : State) : Prop where
  once : ∀ i j, hashOf W i = some hash → hashOf W j = some hash →
    (i, .user) ∈ s.log → (j, .user) ∈ s.log → i = j
  failed : ∀ i e, hashOf W i = some hash → s.phases i = .returned (some e) →
    ∀ t, (i, t) ∉ s.log

/-- The password of a user is set while the token is unmarked and nobody is about to mark
it, and no mark fails. -/
def Clean (hash : String) (s : State) (a : Act) : Prop :=
  match s.phases a.call with
  | .checked tokenHash user _ =>
      tokenHash = hash → a.ok = true → s.db.hasUser user = true →
        (∀ row, s.db.findToken hash = some row → row.usedAt = none) ∧
        ∀ j other, s.phases j ≠ .updated hash other
  | .updated tokenHash user => tokenHash = hash → s.db.hasUser user = true → a.ok = true
  | _ => True

/-! ### The invariant -/

/-- What holds of one call. -/
def CallOk (W : World) (hash : String) (db : Db) (log : List (Nat × Table)) (i : Nat) :
    Phase → Prop
  | .looking tokenHash => hashOf W i = some tokenHash ∧ ∀ t, (i, t) ∉ log
  | .checked tokenHash user _ =>
      hashOf W i = some tokenHash ∧ (∀ t, (i, t) ∉ log) ∧
        (tokenHash = hash → ∃ row, db.findToken hash = some row ∧ row.user = user)
  | .updated tokenHash user =>
      hashOf W i = some tokenHash ∧ (i, .token) ∉ log ∧
        (tokenHash = hash → (∃ row, db.findToken hash = some row ∧ row.user = user) ∧
          ((i, .user) ∈ log ↔ db.hasUser user = true))
  | .returned (some _) => hashOf W i = some hash → ∀ t, (i, t) ∉ log
  | .returned none =>
      hashOf W i = some hash → ∃ row, db.findToken hash = some row ∧ row.usedAt ≠ none ∧
        (db.hasUser row.user = true → (i, .user) ∈ log)

/-- The token's row stays, keeps its user and does not become unused again. -/
structure Later (hash : String) (db db' : Db) : Prop where
  users : ∀ user, db'.hasUser user = db.hasUser user
  token : ∀ row, db.findToken hash = some row → ∃ row', db'.findToken hash = some row' ∧
    row'.user = row.user ∧ (row.usedAt ≠ none → row'.usedAt ≠ none)

theorem Later.refl (hash : String) (db : Db) : Later hash db db :=
  ⟨fun _ => rfl, fun row h => ⟨row, h, rfl, id⟩⟩

theorem later_updateUser (hash : String) (db : Db) (passwordHash : String) (user : Int) :
    Later hash db (db.updateUser passwordHash user) :=
  ⟨fun _ => Db.hasUser_updateUser .., fun row h => ⟨row, h, rfl, id⟩⟩

theorem later_useToken (hash : String) (db : Db) (now : Int) (tokenHash : String) :
    Later hash db (db.useToken now tokenHash) := by
  refine ⟨fun _ => rfl, ?_⟩
  intro row h
  rw [Db.findToken_useToken, h]
  refine ⟨_, rfl, ?_, ?_⟩
  · dsimp only
    split <;> rfl
  · intro used
    dsimp only
    split
    · exact Option.some_ne_none _
    · exact used

/-- Steps of other calls keep it. -/
theorem CallOk.frame {W : World} {hash : String} {db db' : Db} {log log' : List (Nat × Table)}
    {i : Nat} {phase : Phase} (later : Later hash db db')
    (same : ∀ t, (i, t) ∈ log' ↔ (i, t) ∈ log) (h : CallOk W hash db log i phase) :
    CallOk W hash db' log' i phase := by
  have keep (user : Int) (found : ∃ row, db.findToken hash = some row ∧ row.user = user) :
      ∃ row, db'.findToken hash = some row ∧ row.user = user := by
    obtain ⟨row, hrow, rfl⟩ := found
    obtain ⟨row', hrow', huser, -⟩ := later.token row hrow
    exact ⟨row', hrow', huser⟩
  match phase with
  | .looking _ => exact ⟨h.1, fun t => by rw [same]; exact h.2 t⟩
  | .checked _ user _ =>
      exact ⟨h.1, fun t => by rw [same]; exact h.2.1 t, fun heq => keep user (h.2.2 heq)⟩
  | .updated _ user =>
      refine ⟨h.1, by rw [same]; exact h.2.1, fun heq => ⟨keep user (h.2.2 heq).1, ?_⟩⟩
      rw [same, later.users]
      exact (h.2.2 heq).2
  | .returned (some _) => exact fun mine t => by rw [same]; exact h mine t
  | .returned none =>
      intro mine
      obtain ⟨row, hrow, used, wrote⟩ := h mine
      obtain ⟨row', hrow', huser, used'⟩ := later.token row hrow
      refine ⟨row', hrow', used' used, ?_⟩
      rw [same, later.users, huser]
      exact wrote

structure Inv (W : World) (hash : String) (s : State) : Prop where
  calls : ∀ i, CallOk W hash s.db s.log i (s.phases i)
  once : ∀ i j, hashOf W i = some hash → hashOf W j = some hash →
    (i, .user) ∈ s.log → (j, .user) ∈ s.log → i = j
  -- whoever is about to set the password found the token unused
  marked : ∀ i user passwordHash, s.phases i = .checked hash user passwordHash →
    ∀ row, s.db.findToken hash = some row → row.usedAt ≠ none →
      ∃ j, hashOf W j = some hash ∧ s.phases j = .returned none

theorem inv_init (W : World) (hash : String) (db : Db) : Inv W hash (init W db) where
  calls i := by
    show CallOk W hash db [] i (enter W i)
    unfold enter
    split
    · exact fun _ _ => List.not_mem_nil
    next h => exact ⟨h, fun _ => List.not_mem_nil⟩
  once i j _ _ h := absurd h List.not_mem_nil
  marked i user passwordHash h := by
    have entered : enter W i = .checked hash user passwordHash := h
    unfold enter at entered
    split at entered <;> cases entered

theorem Inv.singleUse {W : World} {hash : String} {s : State} (inv : Inv W hash s) :
    SingleUse W hash s where
  once := inv.once
  failed i e mine h := by
    have ok := inv.calls i
    rw [h] at ok
    exact ok mine

section Preserve

variable {W : World} {hash : String} {s : State} {a : Act}

/-- A call takes a step, and the invariant holds of it again. -/
theorem calls_update (inv : Inv W hash s) {db : Db} {log : List (Nat × Table)} {phase : Phase}
    (later : Later hash s.db db) (others : ∀ i ≠ a.call, ∀ t, (i, t) ∈ log ↔ (i, t) ∈ s.log)
    (own : CallOk W hash db log a.call phase) (i : Nat) :
    CallOk W hash db log i (Function.update s.phases a.call phase i) := by
  by_cases hi : i = a.call
  · subst hi
    rw [Function.update_self]
    exact own
  · rw [Function.update_of_ne hi]
    exact (inv.calls i).frame later (others i hi)

/-- A mark stays known while no call newly gets past the check. -/
theorem marked_update (inv : Inv W hash s) {phase : Phase}
    (running : s.phases a.call ≠ .returned none)
    (unchecked : ∀ user passwordHash, phase ≠ .checked hash user passwordHash) (i : Nat)
    (user : Int) (passwordHash : String)
    (h : Function.update s.phases a.call phase i = .checked hash user passwordHash)
    (row : TokenRow) (hrow : s.db.findToken hash = some row) (used : row.usedAt ≠ none) :
    ∃ j, hashOf W j = some hash ∧ Function.update s.phases a.call phase j = .returned none := by
  have hi : i ≠ a.call := by
    rintro rfl
    rw [Function.update_self] at h
    exact unchecked user passwordHash h
  rw [Function.update_of_ne hi] at h
  obtain ⟨j, hj, hphase⟩ := inv.marked i user passwordHash h row hrow used
  have hne : j ≠ a.call := by
    rintro rfl
    exact running hphase
  exact ⟨j, hj, by rw [Function.update_of_ne hne]; exact hphase⟩

theorem mem_written {i : Nat} {t t' : Table} {written : Bool} {log : List (Nat × Table)} :
    (i, t) ∈ (if written = true then [(a.call, t')] else []) ++ log ↔
      (written = true ∧ i = a.call ∧ t = t') ∨ (i, t) ∈ log := by
  cases written <;> simp

theorem mem_written_of_ne {i : Nat} {t t' : Table} {written : Bool} {log : List (Nat × Table)}
    (hi : i ≠ a.call) :
    (i, t) ∈ (if written = true then [(a.call, t')] else []) ++ log ↔ (i, t) ∈ log := by
  rw [mem_written]
  exact or_iff_right fun h => hi h.2.1

/-- A failing call has written nothing. -/
theorem unwritten_of_fail (inv : Inv W hash s) (clean : Clean hash s a)
    (running : ∀ err, s.phases a.call ≠ .returned err)
    (why : (∃ tokenHash, s.phases a.call = .looking tokenHash) ∨ a.ok = false)
    (mine : hashOf W a.call = some hash) (t : Table) : (a.call, t) ∉ s.log := by
  have own := inv.calls a.call
  unfold Clean at clean
  cases hphase : s.phases a.call with
  | looking tokenHash =>
      rw [hphase] at own
      exact own.2 t
  | checked tokenHash user passwordHash =>
      rw [hphase] at own
      exact own.2.1 t
  | updated tokenHash user =>
      rw [hphase] at own clean
      obtain ⟨hhash, unmarked, wrote⟩ := own
      obtain rfl : tokenHash = hash := Option.some.inj (hhash.symm.trans mine)
      cases t with
      | token => exact unmarked
      | user =>
          rw [(wrote rfl).2]
          intro present
          rcases why with ⟨_, looking⟩ | failed
          · rw [hphase] at looking
            cases looking
          · rw [clean rfl present] at failed
            cases failed
  | returned err => exact absurd hphase (running err)

/-- Before a clean password update nobody has set the password. -/
theorem unwritten_of_clean (inv : Inv W hash s)
    (unmarked : ∀ row, s.db.findToken hash = some row → row.usedAt = none)
    (alone : ∀ j other, s.phases j ≠ .updated hash other) (j : Nat)
    (mine : hashOf W j = some hash) : (j, .user) ∉ s.log := by
  have ok := inv.calls j
  cases hphase : s.phases j with
  | looking tokenHash =>
      rw [hphase] at ok
      exact ok.2 _
  | checked tokenHash user passwordHash =>
      rw [hphase] at ok
      exact ok.2.1 _
  | updated tokenHash user =>
      rw [hphase] at ok
      obtain rfl : tokenHash = hash := Option.some.inj (ok.1.symm.trans mine)
      exact absurd hphase (alone j user)
  | returned err =>
      rw [hphase] at ok
      cases err with
      | some e => exact ok mine _
      | none =>
          obtain ⟨row, hrow, used, -⟩ := ok mine
          exact absurd (unmarked row hrow) used

/-- A clean step keeps the invariant. -/
theorem inv_step (inv : Inv W hash s) (clean : Clean hash s a) : Inv W hash (step W s a).1 := by
  have own := inv.calls a.call
  have moved := moves W s a
  generalize (step W s a).1 = next at moved ⊢
  cases moved with
  | idle => exact inv
  | fail e running why =>
      have unwritten := unwritten_of_fail inv clean running why
      exact
        { calls := calls_update inv (.refl ..) (fun _ _ _ => Iff.rfl) unwritten
          once := inv.once
          marked := marked_update inv (running none) (by simp) }
  | @check tokenHash passwordHash row hphase hrow unused =>
      rw [hphase] at own
      refine ⟨calls_update inv (.refl ..) (fun _ _ _ => Iff.rfl) ⟨own.1, own.2, ?_⟩, inv.once, ?_⟩
      · rintro rfl
        exact ⟨row, hrow, rfl⟩
      · intro i user passwordHash' h row' hrow' used
        dsimp only at h ⊢
        by_cases hi : i = a.call
        · subst hi
          rw [Function.update_self] at h
          obtain ⟨rfl, -, -⟩ := Phase.checked.inj h
          obtain rfl : row = row' := Option.some.inj (hrow.symm.trans hrow')
          exact absurd unused used
        · rw [Function.update_of_ne hi] at h
          obtain ⟨j, hj, hdone⟩ := inv.marked i user passwordHash' h row' hrow' used
          have hne : j ≠ a.call := by
            rintro rfl
            rw [hphase] at hdone
            cases hdone
          exact ⟨j, hj, by rw [Function.update_of_ne hne]; exact hdone⟩
  | @set tokenHash passwordHash user hphase hok =>
      rw [hphase] at own
      obtain ⟨hhash, unwritten, found⟩ := own
      unfold Clean at clean
      rw [hphase] at clean
      refine ⟨calls_update inv (later_updateUser ..) (fun i hi t => mem_written_of_ne hi) ?_, ?_,
        marked_update inv (by simp [hphase]) (by simp)⟩
      · refine ⟨hhash, ?_, fun heq => ⟨found heq, ?_⟩⟩
        · rw [mem_written]
          simpa using unwritten .token
        · rw [mem_written, Db.hasUser_updateUser]
          simp [unwritten .user]
      · intro i j hi hj mi mj
        rw [mem_written] at mi mj
        -- a write of this call is the only one
        have only (k : Nat) (hk : hashOf W k = some hash) (mk : (k, .user) ∈ s.log)
            (mine : hashOf W a.call = some hash) (present : s.db.hasUser user = true) : False := by
          have heq := Option.some.inj (hhash.symm.trans mine)
          obtain ⟨unmarked, alone⟩ := clean heq hok present
          exact unwritten_of_clean inv unmarked alone k hk mk
        rcases mi with ⟨present, rfl, -⟩ | mi
        · rcases mj with ⟨-, rfl, -⟩ | mj
          · rfl
          · exact (only j hj mj hi present).elim
        · rcases mj with ⟨present, rfl, -⟩ | mj
          · exact (only i hi mi hj present).elim
          · exact inv.once i j hi hj mi mj
  | @mark tokenHash user hphase hok =>
      rw [hphase] at own
      obtain ⟨hhash, unmarked, found⟩ := own
      refine ⟨calls_update inv (later_useToken ..) (fun i hi t => mem_written_of_ne hi) ?_, ?_, ?_⟩
      · intro mine
        obtain rfl : tokenHash = hash := Option.some.inj (hhash.symm.trans mine)
        obtain ⟨⟨row, hrow, huser⟩, wrote⟩ := found rfl
        refine ⟨{ row with usedAt := some (W.calls a.call).now }, ?_, Option.some_ne_none _, ?_⟩
        · rw [Db.findToken_useToken, hrow]
          have hash_eq : row.tokenHash = tokenHash := by
            simpa using List.find?_some hrow
          simp [hash_eq]
        · intro present
          rw [mem_written]
          exact .inr (wrote.mpr (by rw [← huser]; exact present))
      · intro i j hi hj mi mj
        rw [mem_written] at mi mj
        exact inv.once i j hi hj (mi.resolve_left (by simp)) (mj.resolve_left (by simp))
      · intro i other passwordHash h row hrow used
        by_cases heq : tokenHash = hash
        · subst heq
          exact ⟨a.call, hhash, Function.update_self ..⟩
        · have hfound : s.db.findToken hash = some row := by
            have before := hrow
            rw [Db.findToken_useToken] at before
            obtain ⟨row', hrow', rfl⟩ := Option.map_eq_some_iff.mp before
            have hash_eq : row'.tokenHash = hash := by simpa using List.find?_some hrow'
            rw [if_neg (by rw [hash_eq]; exact Ne.symm heq)]
            exact hrow'
          exact marked_update inv (by simp [hphase]) (by simp) i other passwordHash h row hfound used

/-- What was written stays written. -/
theorem log_step {i : Nat} {t : Table} (h : (i, t) ∈ s.log) : (i, t) ∈ (step W s a).1.log :=
  List.mem_append_right _ h

theorem returned_step {i : Nat} {err : Option ResetError} (h : s.phases i = .returned err) :
    (step W s a).1.phases i = .returned err := by
  show Function.update s.phases a.call _ i = _
  by_cases hi : i = a.call
  · subst hi
    rw [Function.update_self, h]
    rfl
  · rw [Function.update_of_ne hi]
    exact h

/-- A second use is never made good. -/
theorem not_singleUse_step (bad : ¬ SingleUse W hash s) : ¬ SingleUse W hash (step W s a).1 := by
  intro single
  apply bad
  exact
    { once := fun i j hi hj mi mj => single.once i j hi hj (log_step mi) (log_step mj)
      failed := fun i e mine h t mem =>
        single.failed i e mine (returned_step h) t (log_step mem) }

/-- A step that is not clean sets the password a second time, or fails after it was set. -/
theorem not_singleUse_of_not_clean (inv : Inv W hash s) (unclean : ¬ Clean hash s a) :
    ¬ SingleUse W hash (step W s a).1 := by
  intro single
  apply unclean
  have own := inv.calls a.call
  unfold Clean
  cases hphase : s.phases a.call with
  | looking tokenHash => trivial
  | returned err => trivial
  | checked tokenHash user passwordHash =>
      rintro rfl hok present
      rw [hphase] at own
      obtain ⟨mine, -, found⟩ := own
      obtain ⟨row, hrow, rfl⟩ := found rfl
      have wrote : (a.call, .user) ∈ (step W s a).1.log := by
        simp [step, stepConfirm, hphase, hok, present]
      -- nobody else has set the password
      have alone (j : Nat) (hj : hashOf W j = some tokenHash) (mj : (j, .user) ∈ s.log) :
          j = a.call := single.once j a.call hj mine (log_step mj) wrote
      constructor
      · intro row' hrow'
        by_contra used
        obtain ⟨j, hj, hdone⟩ := inv.marked a.call row.user passwordHash hphase row' hrow' used
        have ok := inv.calls j
        rw [hdone] at ok
        obtain ⟨row'', hrow'', -, mj⟩ := ok hj
        obtain rfl : row = row'' := Option.some.inj (hrow.symm.trans hrow'')
        rw [alone j hj (mj present), hphase] at hdone
        cases hdone
      · intro j other hupdated
        have ok := inv.calls j
        rw [hupdated] at ok
        obtain ⟨hj, -, about⟩ := ok
        obtain ⟨⟨row', hrow', rfl⟩, mj⟩ := about rfl
        obtain rfl : row = row' := Option.some.inj (hrow.symm.trans hrow')
        rw [alone j hj (mj.mpr present), hphase] at hupdated
        cases hupdated
  | updated tokenHash user =>
      rintro rfl present
      rw [hphase] at own
      obtain ⟨mine, -, about⟩ := own
      have wrote := (about rfl).2.mpr present
      cases hok : a.ok with
      | true => rfl
      | false =>
          have failed : (step W s a).1.phases a.call = .returned (some .statement) := by
            simp [step, stepConfirm, hphase, hok]
          exact absurd (log_step wrote) (single.failed a.call .statement mine failed .user)

end Preserve

/-- In every interleaving of confirmations, with failing statements, the tokens with one hash
are used once exactly when all steps are clean. -/
theorem single_use_iff (W : World) (hash : String) (db : Db) (acts : List Act) :
    SingleUse W hash (runState (step W) (init W db) acts) ↔
      Along (step W) (Clean hash) (init W db) acts := by
  rw [along_iff_not_bad (Inv W hash) (fun s => ¬ SingleUse W hash s), not_not]
  · exact fun s a inv clean => inv_step inv clean
  · exact fun s a inv unclean => not_singleUse_of_not_clean inv unclean
  · exact fun s a bad => not_singleUse_step bad
  · exact fun s inv bad => bad inv.singleUse
  · exact inv_init W hash db

/-! ### Calls by themselves -/

/-- The next statement, when nobody else is there. -/
def stepAlone (W : World) (i : Nat) (s : Db × Phase) (ok : Bool) : Db × Phase :=
  let next := stepConfirm W i s.1 s.2 ok
  (next.1, next.2.1)

theorem stepAlone_returned (W : World) (i : Nat) (db : Db) (err : Option ResetError) (ok : Bool) :
    stepAlone W i (db, .returned err) ok = (db, .returned err) := by
  cases ok <;> rfl

/-- A call whose statements follow each other does what `confirmPasswordReset` does. -/
theorem alone_eq_confirmPasswordReset (W : World) (i : Nat) (db : Db)
    (okSelect okUser okToken : Bool) :
    [okSelect, okUser, okToken].foldl (stepAlone W i) (db, enter W i) =
      let res := confirmPasswordReset W i db okSelect okUser okToken
      (res.1, .returned res.2) := by
  simp only [List.foldl_cons, List.foldl_nil]
  unfold confirmPasswordReset enter
  cases W.hashToken (W.calls i).token with
  | none => simp only [stepAlone_returned]
  | some tokenHash =>
      cases okSelect with
      | false =>
          have first : stepAlone W i (db, .looking tokenHash) false =
              (db, .returned (some .statement)) := rfl
          simp only [first, stepAlone_returned]
          rfl
      | true =>
          have first : stepAlone W i (db, .looking tokenHash) true =
              match db.findToken tokenHash with
              | none => (db, .returned (some .tokenInvalid))
              | some row => (db, checkRow W i tokenHash row) := by
            simp only [stepAlone, stepConfirm]
            cases db.findToken tokenHash <;> rfl
          rw [first]
          cases hrow : db.findToken tokenHash with
          | none => simp [stepAlone_returned, hrow]
          | some row =>
              dsimp only [checkRow]
              cases hcheck : checkToken row (W.calls i).now with
              | error e => simp [stepAlone_returned, hrow, hcheck]
              | ok _ =>
                  dsimp only
                  cases W.hashPassword i (W.calls i).newPassword with
                  | none => simp [stepAlone_returned, hrow, hcheck]
                  | some passwordHash =>
                      simp only [hrow, hcheck]
                      cases okUser with
                      | false =>
                          cases okToken <;> rfl
                      | true => cases okToken <;> rfl

/-! ### One token, two calls -/

/-- Two calls with the token `t`, of user 7. -/
def twoCalls : World where
  hashToken _ := some "h"
  hashPassword _ password := some password
  calls i := ⟨"t", if i = 0 then "first" else "second", 5⟩

def oneToken : Db := ⟨[⟨7, "old"⟩], [⟨7, "h", 100, none⟩]⟩

/-- Both calls check the token before either marks it: both set the password. -/
def overlapping : List Act := [⟨0, true⟩, ⟨1, true⟩, ⟨0, true⟩, ⟨0, true⟩, ⟨1, true⟩, ⟨1, true⟩]

theorem token_used_twice :
    let s := runState (step twoCalls) (init twoCalls oneToken) overlapping
    s.log = [(1, .token), (1, .user), (0, .token), (0, .user)] ∧
      s.phases 0 = .returned none ∧ s.phases 1 = .returned none ∧
      s.db.users = [⟨7, "second"⟩] ∧ ¬ SingleUse twoCalls "h" s := by
  refine ⟨by decide, by decide, by decide, by decide, ?_⟩
  intro single
  have same := single.once 0 1 rfl rfl (by decide) (by decide)
  cases same

end Lazuli.Auth.PasswordReset
