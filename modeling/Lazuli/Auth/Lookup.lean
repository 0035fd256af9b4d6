import Lazuli.Auth.Refresh

/-!
The two lookups of a session by its token (`runtime/go/lazuli/auth/resolver.go`, `session.go`).

A session table may be declared by hand, so a `StoredTable` has any columns and its rows any
NULLs. `lookupSession` climbs down a ladder of narrower statements while a column is missing;
`resolveSession` has one statement of its own. Both are compared with the live rows of the table.
-/

namespace Lazuli.Auth

/-! ### Session tables as they are stored -/

/-- The columns that a lookup names. -/
inductive SessionColumn where
  | id
  | user
  | orgID
  | tokenHash
  | expiresAt
  | revokedAt
  deriving DecidableEq

/-- A stored row. A NULL, and a column that the table lacks, holds nothing. -/
structure StoredRow where
  id : Option Int
  user : Option Int
  orgID : Option Int
  tokenHash : Option String
  expiresAt : Option Int
  revokedAt : Option Int
  deriving DecidableEq

def StoredRow.isNull (r : StoredRow) : SessionColumn → Bool
  | .id => r.id.isNone
  | .user => r.user.isNone
  | .orgID => r.orgID.isNone
  | .tokenHash => r.tokenHash.isNone
  | .expiresAt => r.expiresAt.isNone
  | .revokedAt => r.revokedAt.isNone

/-- The rows stand in the order in which a statement without `ORDER BY` reads them. -/
structure StoredTable where
  columns : List SessionColumn
  rows : List StoredRow
  absent : ∀ r ∈ rows, ∀ c, c ∉ columns → r.isNull c = true

/-- The tables of a database, by name. -/
abbrev StoredTables := String → Option StoredTable

inductive QueryError where
  | undefinedTable (table : String)
  | undefinedColumn
  | scan
  deriving DecidableEq

/-- `SELECT ... FROM table WHERE token_hash = $1 LIMIT 1`. -/
def queryRow (db : StoredTables) (table : String) (columns : List SessionColumn) (hash : String) :
    Except QueryError (Option StoredRow) :=
  match db table with
  | none => .error (.undefinedTable table)
  | some t =>
      if ∀ c ∈ SessionColumn.tokenHash :: columns, c ∈ t.columns then
        .ok (t.rows.find? (·.tokenHash = some hash))
      else .error .undefinedColumn

/-! ### `lookupSession` -/

/-- A name that `guardSessionIdent` lets through and `quoteSessionIdent` quotes. -/
def guardSessionIdent (name : String) : Bool :=
  name.toList.all fun c =>
    ('a' ≤ c && c ≤ 'z') || ('A' ≤ c && c ≤ 'Z') || ('0' ≤ c && c ≤ '9') || c = '_'

structure SessionProbe where
  hasOrg : Bool
  hasRevoked : Bool
  deriving DecidableEq

def SessionProbe.columns (p : SessionProbe) : List SessionColumn :=
  match p.hasOrg, p.hasRevoked with
  | true, true => [.id, .user, .orgID, .expiresAt, .revokedAt]
  | true, false => [.id, .user, .orgID, .expiresAt]
  | false, true => [.id, .user, .expiresAt, .revokedAt]
  | false, false => [.id, .user, .expiresAt]

/-- The widest statement first. -/
def sessionProbeLadder : List SessionProbe :=
  [⟨true, true⟩, ⟨false, true⟩, ⟨true, false⟩, ⟨false, false⟩]

structure SelectedSession where
  userID : Int
  orgID : Int
  sessionID : Int
  expiresAt : Int
  revokedAt : Option Int
  deriving DecidableEq

/-- Only `org_id` and `revoked_at` have destinations that take a NULL. -/
def SessionProbe.scan (p : SessionProbe) (r : StoredRow) : Except QueryError SelectedSession :=
  match r.id, r.user, r.expiresAt with
  | some id, some user, some expires =>
      .ok ⟨user, if p.hasOrg then r.orgID.getD 0 else 0, id, expires,
        if p.hasRevoked then r.revokedAt else none⟩
  | _, _, _ => .error .scan

def selectSession (db : StoredTables) (table hash : String) (p : SessionProbe) :
    Except QueryError (Option SelectedSession) :=
  match queryRow db table p.columns hash with
  | .error e => .error e
  | .ok none => .ok none
  | .ok (some r) => (p.scan r).map some

/-- The user, the tenant and the session that a token stands for. -/
structure ResolvedSession where
  userID : Int
  orgID : Int
  sessionID : Int
  deriving DecidableEq

inductive LookupError where
  | suspicious (resource : String)
  | query (e : QueryError)
  deriving DecidableEq

/-- The probes in turn. If all of them name a column that the table lacks, its operator is warned
and there is no session. -/
def climb (db : StoredTables) (table hash : String) (now : Int) :
    List SessionProbe → Except LookupError (Option ResolvedSession)
  | [] => .ok none
  | p :: rest =>
      match selectSession db table hash p with
      | .error .undefinedColumn => climb db table hash now rest
      | .error e => .error (.query e)
      | .ok none => .ok none
      | .ok (some s) =>
          if s.revokedAt ≠ none then .ok none
          else if ¬ now < s.expiresAt then .ok none
          else .ok (some ⟨s.userID, s.orgID, s.sessionID⟩)

def lookupSession (db : StoredTables) (resource hash : String) (now : Int) :
    Except LookupError (Option ResolvedSession) :=
  if guardSessionIdent resource then
    climb db (sessionResourceTable resource) hash now sessionProbeLadder
  else .error (.suspicious resource)

/-! ### `ResolveSession` -/

/-- `refused` is the panic of `quoteSessionIdent`. -/
inductive ResolveError where
  | tokenInvalid
  | refused (resource : String)
  | sessionNotFound
  | sessionExpired
  | query (e : QueryError)
  deriving DecidableEq

/-- The user and the session of a token. -/
def resolveSession (H : TokenHash) (db : StoredTables) (resource token : String) (now : Int) :
    Except ResolveError (Int × Int) :=
  match H.hash token with
  | none => .error .tokenInvalid
  | some hash =>
      if guardSessionIdent resource then
        match queryRow db (sessionResourceTable resource) [.id, .user, .expiresAt] hash with
        | .error e => .error (.query e)
        | .ok none => .error .sessionNotFound
        | .ok (some r) =>
            match r.id, r.user, r.expiresAt with
            | some id, some user, some expires =>
                if now < expires then .ok (user, id) else .error .sessionExpired
            | _, _, _ => .error (.query .scan)
      else .error (.refused resource)

/-! ### The rows that a lookup should go by -/

namespace StoredRow

variable {r : StoredRow} {now : Int}

/-- The row names a user and a session, which is not over. -/
def Open (r : StoredRow) (now : Int) : Prop :=
  r.id ≠ none ∧ r.user ≠ none ∧ ∃ expires, r.expiresAt = some expires ∧ now < expires

def Live (r : StoredRow) (now : Int) : Prop := r.Open now ∧ r.revokedAt = none

end StoredRow

/-- The table of a resource. A suspicious name has none. -/
def sessionTable (db : StoredTables) (resource : String) : Option StoredTable :=
  if guardSessionIdent resource then db (sessionResourceTable resource) else none

section Lookups

variable (H : TokenHash) (db : StoredTables) (resource token : String) (now : Int)

/-- The row that the database answers with, if it is asked for the token. -/
def ReadRow (r : StoredRow) : Prop :=
  ∃ hash t, H.hash token = some hash ∧ sessionTable db resource = some t ∧
    t.rows.find? (·.tokenHash = some hash) = some r

/-- A row of the token's hash is live. -/
def HasLiveRow : Prop :=
  ∃ hash t, H.hash token = some hash ∧ sessionTable db resource = some t ∧
    ∃ r ∈ t.rows, r.tokenHash = some hash ∧ r.Live now

def LookupAccepts : Prop :=
  ∃ hash session, H.hash token = some hash ∧
    lookupSession db resource hash now = .ok (some session)

def ResolveAccepts : Prop := ∃ found, resolveSession H db resource token now = .ok found

/-- Both lookups accept the tokens of live rows and no others. -/
def LookupsAgree : Prop :=
  (LookupAccepts H db resource token now ↔ HasLiveRow H db resource token now) ∧
    (ResolveAccepts H db resource token now ↔ LookupAccepts H db resource token now)

end Lookups

/-! ### The ladder -/

/-- The table has every column that the probe names. -/
def SessionProbe.Fits (p : SessionProbe) (t : StoredTable) : Prop :=
  ∀ c ∈ SessionColumn.tokenHash :: p.columns, c ∈ t.columns

instance (p : SessionProbe) (t : StoredTable) : Decidable (p.Fits t) :=
  inferInstanceAs (Decidable (∀ c ∈ SessionColumn.tokenHash :: p.columns, c ∈ t.columns))

namespace StoredTable

variable {t : StoredTable} {r : StoredRow} {hash : String} {now : Int}

/-- The columns without which no probe fits. -/
def Complete (t : StoredTable) : Prop :=
  .tokenHash ∈ t.columns ∧ .id ∈ t.columns ∧ .user ∈ t.columns ∧ .expiresAt ∈ t.columns

theorem mem_columns (mem : r ∈ t.rows) {c : SessionColumn} (some : r.isNull c = false) :
    c ∈ t.columns := by
  by_contra absent
  rw [t.absent r mem c absent] at some
  cases some

/-- A table with an open row under a hash has the columns that every probe needs. -/
theorem complete_of_open (mem : r ∈ t.rows) (hashed : r.tokenHash = some hash)
    (isOpen : r.Open now) : t.Complete := by
  obtain ⟨id, user, expires, expiresAt, -⟩ := isOpen
  refine ⟨mem_columns mem ?_, mem_columns mem ?_, mem_columns mem ?_, mem_columns mem ?_⟩
  · simp [StoredRow.isNull, hashed]
  · simpa [StoredRow.isNull, Option.isSome_iff_ne_none] using id
  · simpa [StoredRow.isNull, Option.isSome_iff_ne_none] using user
  · simp [StoredRow.isNull, expiresAt]

theorem unrevoked_of_absent (mem : r ∈ t.rows) (absent : .revokedAt ∉ t.columns) :
    r.revokedAt = none := by
  simpa [StoredRow.isNull] using t.absent r mem _ absent

theorem mem_of_find (found : t.rows.find? (·.tokenHash = some hash) = some r) :
    r ∈ t.rows ∧ r.tokenHash = some hash :=
  ⟨List.mem_of_find?_eq_some found, by simpa using List.find?_some found⟩

end StoredTable

section Ladder

variable {db : StoredTables} {t : StoredTable} {table hash : String} {now : Int}
  {p : SessionProbe} {r : StoredRow}

theorem fits_iff : p.Fits t ↔ t.Complete ∧ (p.hasOrg = true → .orgID ∈ t.columns) ∧
    (p.hasRevoked = true → .revokedAt ∈ t.columns) := by
  obtain ⟨hasOrg, hasRevoked⟩ := p
  cases hasOrg <;> cases hasRevoked <;>
    simp [SessionProbe.Fits, SessionProbe.columns, StoredTable.Complete] <;> tauto

theorem queryRow_of_has {columns : List SessionColumn} (named : db table = some t)
    (has : ∀ c ∈ SessionColumn.tokenHash :: columns, c ∈ t.columns) :
    queryRow db table columns hash = .ok (t.rows.find? (·.tokenHash = some hash)) := by
  rw [queryRow, named]
  exact if_pos has

theorem queryRow_of_lacks {columns : List SessionColumn} (named : db table = some t)
    (lacks : ¬ ∀ c ∈ SessionColumn.tokenHash :: columns, c ∈ t.columns) :
    queryRow db table columns hash = .error .undefinedColumn := by
  rw [queryRow, named]
  exact if_neg lacks

/-- A row is scanned unless it lacks what an open row has. -/
theorem scan_cases (p : SessionProbe) (r : StoredRow) (now : Int) :
    (p.scan r = .error .scan ∧ ¬ r.Open now) ∨
      ∃ s, p.scan r = .ok s ∧ (r.Open now ↔ now < s.expiresAt) ∧
        (s.revokedAt = none ↔ (p.hasRevoked = true → r.revokedAt = none)) := by
  obtain ⟨id, user, org, token, expires, revoked⟩ := r
  cases id <;> cases user <;> cases expires <;> simp [SessionProbe.scan, StoredRow.Open]

/-- The first probe that fits the table decides. -/
theorem climb_accepts (named : db table = some t) (ps : List SessionProbe) :
    (∃ session, climb db table hash now ps = .ok (some session)) ↔
      ∃ p, ps.find? (fun p => p.Fits t) = some p ∧
        ∃ r, t.rows.find? (·.tokenHash = some hash) = some r ∧ r.Open now ∧
          (p.hasRevoked = true → r.revokedAt = none) := by
  induction ps with
  | nil => simp [climb]
  | cons p ps ih =>
      by_cases fits : p.Fits t
      · rw [List.find?_cons_of_pos (by simpa using fits), climb, selectSession,
          queryRow_of_has named fits]
        cases read : t.rows.find? (·.tokenHash = some hash) with
        | none => simp
        | some r =>
            rcases scan_cases p r now with ⟨scan, closed⟩ | ⟨s, scan, opened, unrevoked⟩
            · simp [scan, closed, Except.map]
            · have decided : (¬ s.revokedAt ≠ none ∧ now < s.expiresAt) ↔
                  r.Open now ∧ (p.hasRevoked = true → r.revokedAt = none) := by
                rw [not_not, unrevoked, opened, and_comm]
              simp only [scan, Except.map]
              split
              case isTrue revoked => simpa [revoked] using decided
              case isFalse kept =>
                split
                case isTrue ended => simpa [ended] using decided
                case isFalse lasts => simpa [kept, not_not.mp lasts] using decided
      · rw [List.find?_cons_of_neg (by simpa using fits), climb, selectSession,
          queryRow_of_lacks named fits]
        exact ih

/-- On the ladder that is whether the row is live: a probe without `revoked_at` is only reached on
a table without that column. -/
theorem climb_ladder_accepts (named : db table = some t) :
    (∃ session, climb db table hash now sessionProbeLadder = .ok (some session)) ↔
      ∃ r, t.rows.find? (·.tokenHash = some hash) = some r ∧ r.Live now := by
  rw [climb_accepts named]
  constructor
  · rintro ⟨p, first, r, read, isOpen, unrevoked⟩
    refine ⟨r, read, isOpen, ?_⟩
    by_cases probed : p.hasRevoked = true
    · exact unrevoked probed
    · have fits : p.Fits t := by simpa using List.find?_some first
      refine StoredTable.unrevoked_of_absent (StoredTable.mem_of_find read).1 fun present => ?_
      have earlier : (⟨false, true⟩ : SessionProbe).Fits t :=
        fits_iff.mpr ⟨(fits_iff.mp fits).1, by simp, fun _ => present⟩
      by_cases widest : (⟨true, true⟩ : SessionProbe).Fits t
      · rw [sessionProbeLadder, List.find?_cons_of_pos (by simpa using widest)] at first
        exact probed (Option.some.inj first ▸ rfl)
      · rw [sessionProbeLadder, List.find?_cons_of_neg (by simpa using widest),
          List.find?_cons_of_pos (by simpa using earlier)] at first
        exact probed (Option.some.inj first ▸ rfl)
  · rintro ⟨r, read, isOpen, unrevoked⟩
    obtain ⟨mem, hashed⟩ := StoredTable.mem_of_find read
    have narrowest : (⟨false, false⟩ : SessionProbe).Fits t :=
      fits_iff.mpr ⟨StoredTable.complete_of_open mem hashed isOpen, by simp, by simp⟩
    have found : (sessionProbeLadder.find? fun p => p.Fits t).isSome :=
      List.find?_isSome.mpr ⟨⟨false, false⟩, by simp [sessionProbeLadder], by simpa using narrowest⟩
    obtain ⟨p, first⟩ := Option.isSome_iff_exists.mp found
    exact ⟨p, first, r, read, isOpen, fun _ => unrevoked⟩

end Ladder

section Lookups

variable {H : TokenHash} {db : StoredTables} {resource token : String} {now : Int}
  {r r' : StoredRow}

theorem ReadRow.unique (h : ReadRow H db resource token r) (h' : ReadRow H db resource token r') :
    r = r' := by
  obtain ⟨hash, t, hashed, named, read⟩ := h
  obtain ⟨hash', t', hashed', named', read'⟩ := h'
  obtain rfl := Option.some.inj (hashed.symm.trans hashed')
  obtain rfl := Option.some.inj (named.symm.trans named')
  exact Option.some.inj (read.symm.trans read')

theorem ReadRow.hasLiveRow (h : ReadRow H db resource token r) (live : r.Live now) :
    HasLiveRow H db resource token now := by
  obtain ⟨hash, t, hashed, named, read⟩ := h
  obtain ⟨mem, same⟩ := StoredTable.mem_of_find read
  exact ⟨hash, t, hashed, named, r, mem, same, live⟩

theorem HasLiveRow.readRow (h : HasLiveRow H db resource token now) :
    ∃ r, ReadRow H db resource token r := by
  obtain ⟨hash, t, hashed, named, r, mem, same, -⟩ := h
  have found : (t.rows.find? (·.tokenHash = some hash)).isSome :=
    List.find?_isSome.mpr ⟨r, mem, by simpa using same⟩
  obtain ⟨first, read⟩ := Option.isSome_iff_exists.mp found
  exact ⟨first, hash, t, hashed, named, read⟩

theorem sessionTable_eq_some {t : StoredTable} : sessionTable db resource = some t ↔
    guardSessionIdent resource = true ∧ db (sessionResourceTable resource) = some t := by
  rw [sessionTable]
  split <;> simp [*]

theorem lookupAccepts_iff : LookupAccepts H db resource token now ↔
    ∃ r, ReadRow H db resource token r ∧ r.Live now := by
  constructor
  · rintro ⟨hash, session, hashed, found⟩
    rw [lookupSession] at found
    split at found
    case isFalse => cases found
    case isTrue guarded =>
      cases named : db (sessionResourceTable resource) with
      | none =>
          rw [sessionProbeLadder, climb, selectSession, queryRow, named] at found
          cases found
      | some t =>
          obtain ⟨r, read, live⟩ := (climb_ladder_accepts named).mp ⟨session, found⟩
          exact ⟨r, ⟨hash, t, hashed, sessionTable_eq_some.mpr ⟨guarded, named⟩, read⟩, live⟩
  · rintro ⟨r, ⟨hash, t, hashed, table, read⟩, live⟩
    obtain ⟨guarded, named⟩ := sessionTable_eq_some.mp table
    have accepted : ∃ session, climb db (sessionResourceTable resource) hash now
        sessionProbeLadder = .ok (some session) :=
      (climb_ladder_accepts named).mpr ⟨r, read, live⟩
    obtain ⟨session, found⟩ := accepted
    exact ⟨hash, session, hashed, by rw [lookupSession, if_pos guarded]; exact found⟩

theorem resolveAccepts_iff : ResolveAccepts H db resource token now ↔
    ∃ r, ReadRow H db resource token r ∧ r.Open now := by
  constructor
  · rintro ⟨found, resolved⟩
    unfold resolveSession at resolved
    split at resolved
    case h_1 => cases resolved
    case h_2 hash hashed =>
      split at resolved
      case isFalse => cases resolved
      case isTrue guarded =>
        split at resolved
        case h_1 => cases resolved
        case h_2 => cases resolved
        case h_3 r read =>
          split at resolved
          case h_2 => cases resolved
          case h_1 id user expires hid huser hexpires =>
            split at resolved
            case isFalse => cases resolved
            case isTrue lasts =>
              unfold queryRow at read
              split at read
              case h_1 => cases read
              case h_2 t named =>
                split at read
                case isFalse => cases read
                case isTrue =>
                  exact ⟨r, ⟨hash, t, hashed, sessionTable_eq_some.mpr ⟨guarded, named⟩,
                    Except.ok.inj read⟩, by simp [hid], by simp [huser], expires, hexpires, lasts⟩
  · rintro ⟨r, ⟨hash, t, hashed, table, read⟩, isOpen⟩
    obtain ⟨guarded, named⟩ := sessionTable_eq_some.mp table
    obtain ⟨mem, same⟩ := StoredTable.mem_of_find read
    have complete := StoredTable.complete_of_open mem same isOpen
    have narrowest : (⟨false, false⟩ : SessionProbe).Fits t :=
      fits_iff.mpr ⟨complete, by simp, by simp⟩
    have answered : queryRow db (sessionResourceTable resource) [.id, .user, .expiresAt] hash =
        .ok (some r) := (queryRow_of_has named narrowest).trans (congrArg _ read)
    obtain ⟨hid, huser, expires, hexpires, lasts⟩ := isOpen
    obtain ⟨id, hid⟩ := Option.ne_none_iff_exists'.mp hid
    obtain ⟨user, huser⟩ := Option.ne_none_iff_exists'.mp huser
    refine ⟨(user, id), ?_⟩
    simp only [resolveSession, hashed, guarded, if_true, answered, hid, huser, hexpires,
      if_pos lasts]

/-- `ResolveSession` does not look at `revoked_at`: it goes on accepting a revoked session until
that is over. -/
theorem resolveAccepts_of_revoked (read : ReadRow H db resource token r) (isOpen : r.Open now)
    (revoked : r.revokedAt ≠ none) :
    ResolveAccepts H db resource token now ∧ ¬ LookupAccepts H db resource token now := by
  refine ⟨resolveAccepts_iff.mpr ⟨r, read, isOpen⟩, fun accepts => ?_⟩
  obtain ⟨r', read', -, unrevoked⟩ := lookupAccepts_iff.mp accepts
  exact revoked (read.unique read' ▸ unrevoked)

variable (H db resource token now) in
/-- The lookups agree as long as no session is revoked before it is over, and no row of a token's
hash hides a live one. -/
theorem lookupsAgree_iff : LookupsAgree H db resource token now ↔
    ∀ r, ReadRow H db resource token r → (r.Open now → r.revokedAt = none) ∧
      (HasLiveRow H db resource token now → r.Open now) := by
  constructor
  · rintro ⟨sound, same⟩ r read
    have live (accepts : LookupAccepts H db resource token now) : r.Live now := by
      obtain ⟨r', read', live⟩ := lookupAccepts_iff.mp accepts
      exact read.unique read' ▸ live
    exact ⟨fun isOpen => (live (same.mp (resolveAccepts_iff.mpr ⟨r, read, isOpen⟩))).2,
      fun present => (live (sound.mpr present)).1⟩
  · intro h
    refine ⟨⟨fun accepts => ?_, fun present => ?_⟩, ⟨fun accepts => ?_, fun accepts => ?_⟩⟩
    · obtain ⟨r, read, live⟩ := lookupAccepts_iff.mp accepts
      exact read.hasLiveRow live
    · obtain ⟨r, read⟩ := present.readRow
      have isOpen := (h r read).2 present
      exact lookupAccepts_iff.mpr ⟨r, read, isOpen, (h r read).1 isOpen⟩
    · obtain ⟨r, read, isOpen⟩ := resolveAccepts_iff.mp accepts
      exact lookupAccepts_iff.mpr ⟨r, read, isOpen, (h r read).1 isOpen⟩
    · obtain ⟨r, read, live⟩ := lookupAccepts_iff.mp accepts
      exact resolveAccepts_iff.mpr ⟨r, read, live.1⟩

end Lookups

/-- A session of user 7 that was revoked before it was over. -/
def revokedRow : StoredRow where
  id := some 1
  user := some 7
  orgID := none
  tokenHash := some "digest"
  expiresAt := some 100
  revokedAt := some 40

def revokedTable : StoredTable where
  columns := [.id, .user, .tokenHash, .expiresAt, .revokedAt]
  rows := [revokedRow]
  absent := by
    intro r mem c absent
    obtain rfl := List.mem_singleton.mp mem
    cases c <;> first | rfl | exact absurd (by simp) absent

def cookieHash : TokenHash where
  hash token := if token = "cookie" then some "digest" else none
  hash_ne_empty := by
    intro token h same
    split at same
    · exact Option.some.inj same ▸ by decide
    · cases same

theorem revoked_session_resolved :
    ¬ LookupsAgree cookieHash (fun _ => some revokedTable) "UserSession" "cookie" 50 := by
  have guarded : guardSessionIdent "UserSession" = true := by decide
  have read : ReadRow cookieHash (fun _ => some revokedTable) "UserSession" "cookie" revokedRow :=
    ⟨"digest", revokedTable, rfl, sessionTable_eq_some.mpr ⟨guarded, rfl⟩, by
      simp [revokedTable, revokedRow]⟩
  have isOpen : revokedRow.Open 50 := by simp [StoredRow.Open, revokedRow]
  obtain ⟨accepts, rejects⟩ := resolveAccepts_of_revoked read isOpen (by simp [revokedRow])
  exact fun agree => rejects (agree.2.mp accepts)

end Lazuli.Auth
