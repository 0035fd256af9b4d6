import Lazuli.General.Ledger
import Lazuli.General.Lines
import Mathlib.Data.List.Sort
import Mathlib.Data.String.Basic

/-!
`lazuli migrate up` and `down` (`lazuli_cli/src/migrate.rs`).

A run reads the ledger with `psql`, plans its scripts and executes them one `psql` process at a
time, the statement of the ledger after each script. `history` is the log of what a sequence of
runs has completed when each may break off behind any statement, and may find other files than
the runs before it. The collation of the database is a parameter. `kept` says what holds of the
ledger then.
-/

namespace Lazuli.Cli.Migrate

open General General.Ledger
open General.Lines (lines unlines dropReturn)

/-! ### Migration files -/

structure MigrationFile where
  version : String
  up : Option String
  down : Option String
  deriving DecidableEq

def MigrationFile.withScript (migration : MigrationFile) (direction : Direction) (path : String) :
    MigrationFile :=
  match direction with
  | .up => { migration with up := some path }
  | .down => { migration with down := some path }

/-- The migrations of a map: no two have one version, and they are in the order of versions. -/
structure Files where
  list : List MigrationFile
  ascending : list.Pairwise (·.version < ·.version)

/-- The entry of a version, with one more script. -/
def insertScript (version : String) (direction : Direction) (path : String) :
    List MigrationFile → List MigrationFile
  | [] => [(⟨version, none, none⟩ : MigrationFile).withScript direction path]
  | m :: ms =>
      if version = m.version then m.withScript direction path :: ms
      else if version < m.version then
        (⟨version, none, none⟩ : MigrationFile).withScript direction path :: m :: ms
      else m :: insertScript version direction path ms

@[simp] theorem withScript_version (migration : MigrationFile) (direction : Direction)
    (path : String) : (migration.withScript direction path).version = migration.version := by
  cases direction <;> rfl

theorem version_of_mem_insertScript {version path : String} {direction : Direction}
    {list : List MigrationFile} {m : MigrationFile}
    (mem : m ∈ insertScript version direction path list) :
    m.version = version ∨ ∃ n ∈ list, n.version = m.version := by
  induction list with
  | nil =>
      rw [List.mem_singleton.mp mem, withScript_version]
      exact Or.inl rfl
  | cons n list ih =>
      have inside {x : MigrationFile} (h : x ∈ list) : ∃ y ∈ n :: list, y.version = x.version :=
        ⟨x, List.mem_cons_of_mem n h, rfl⟩
      rw [insertScript] at mem
      split at mem
      · rename_i same
        rcases List.mem_cons.mp mem with rfl | mem
        · rw [withScript_version]
          exact Or.inl same.symm
        · exact Or.inr (inside mem)
      · split at mem
        · rcases List.mem_cons.mp mem with rfl | mem
          · rw [withScript_version]
            exact Or.inl rfl
          · exact Or.inr ⟨m, mem, rfl⟩
        · rcases List.mem_cons.mp mem with rfl | mem
          · exact Or.inr ⟨m, List.mem_cons_self, rfl⟩
          · refine (ih mem).imp_right ?_
            rintro ⟨x, hx, same⟩
            exact ⟨x, List.mem_cons_of_mem n hx, same⟩

theorem ascending_insertScript {version path : String} {direction : Direction}
    {list : List MigrationFile} (h : list.Pairwise (·.version < ·.version)) :
    (insertScript version direction path list).Pairwise (·.version < ·.version) := by
  induction list with
  | nil => exact List.pairwise_singleton _ _
  | cons n list ih =>
      obtain ⟨first, rest⟩ := List.pairwise_cons.mp h
      rw [insertScript]
      split
      · refine List.pairwise_cons.mpr ⟨?_, rest⟩
        rwa [withScript_version]
      · rename_i other
        split
        · rename_i lower
          refine List.pairwise_cons.mpr ⟨?_, h⟩
          rw [withScript_version]
          exact List.forall_mem_cons.mpr ⟨lower, fun m hm => lt_trans lower (first m hm)⟩
        · rename_i higher
          refine List.pairwise_cons.mpr ⟨fun m hm => ?_, ih rest⟩
          rcases version_of_mem_insertScript hm with new | ⟨x, hx, same⟩
          · rw [new]
            exact lt_of_le_of_ne (not_lt.mp higher) (Ne.symm other)
          · rw [← same]
            exact first x hx

def Files.empty : Files := ⟨[], .nil⟩

def Files.insert (files : Files) (version : String) (direction : Direction) (path : String) :
    Files :=
  ⟨insertScript version direction path files.list, ascending_insertScript files.ascending⟩

/-- What a directory holds, in the order in which it is read. A name that is no UTF-8 is `none`. -/
inductive Entry where
  | file (name : Option String) (path : String)
  | dir (entries : List Entry)

/-- `strip_suffix`. -/
def stripSuffix (tail s : String) : Option String :=
  (s.toList.dropSuffix? tail.toList).map String.ofList

def splitMigrationFileName (fileName : String) : Option (String × Direction) :=
  ((stripSuffix ".up.sql" fileName).map (·, .up)).or
    ((stripSuffix ".down.sql" fileName).map (·, .down))

mutual

def collectEntry (files : Files) : Entry → Files
  | .dir entries => collectMigrationDir files entries
  | .file name path =>
      match name.bind splitMigrationFileName with
      | some (version, direction) => files.insert version direction path
      | none => files

/-- A directory that does not exist holds nothing. -/
def collectMigrationDir (files : Files) : List Entry → Files
  | [] => files
  | entry :: entries => collectMigrationDir (collectEntry files entry) entries

end

def discoverMigrations (generated manual : List Entry) : Files :=
  collectMigrationDir (collectMigrationDir .empty generated) manual

/-! ### The ledger, as it is read -/

/-- The collation of the database: a linear order, by which `ORDER BY version` goes. -/
structure Collation where
  le : String → String → Prop
  decidable : DecidableRel le
  total : ∀ a b, le a b ∨ le b a
  trans : ∀ a b c, le a b → le b c → le a c
  antisymm : ∀ a b, le a b → le b a → a = b

instance (collation : Collation) : DecidableRel collation.le := collation.decidable

/-- What `psql -A -t` prints: each row on a line. -/
def psqlRows (rows : List String) : List Char := unlines (rows.map String.toList)

/-- The versions on the lines of an output. -/
def readVersions (output : List Char) : List String :=
  (((lines output).map Text.trim).filter fun line => !line.isEmpty).map String.ofList

section Reading

variable (collation : Collation) (log : List (Statement String))

def orderByVersion (rows : List String) : List String := rows.insertionSort collation.le

def orderByVersionDesc (rows : List String) : List String :=
  rows.insertionSort fun a b => collation.le b a

def appliedVersions : List String := readVersions (psqlRows (orderByVersion collation (rows log)))

def appliedVersionsDesc (steps : Nat) : List String :=
  readVersions (psqlRows ((orderByVersionDesc collation (rows log)).take steps))

end Reading

/-! ### Runs -/

inductive MigrateAction where
  | up (target : Option String) (yes : Bool)
  | down (steps : Nat) (yes : Bool)
  | status

inductive MigrationStrategy where
  | auto
  | manual
  | checkOnly
  deriving DecidableEq

/-- What a run finds: the strategy of the manifest, the database and the two directories. -/
structure Project where
  strategy : Option MigrationStrategy
  databaseUrl : Option String
  generated : List Entry
  manual : List Entry

def Project.files (project : Project) : Files :=
  discoverMigrations project.generated project.manual

/-- A run with the answer to its prompt, and the number of statements that it completes. -/
structure Run where
  project : Project
  action : MigrateAction
  input : String
  stop : Nat

def confirm (yes : Bool) (input : String) : Bool :=
  yes || String.ofList (Text.trim input.toList) ∈ ["y", "Y", "yes", "YES"]

/-- The statements of a plan, unless it is empty or not confirmed. -/
def confirmed (plan : List (Statement String)) (yes : Bool) (input : String) :
    Except String (List (Statement String)) :=
  if plan.isEmpty || confirm yes input then .ok plan else .error "migration cancelled"

def pending (files : Files) (applied : List String) (target : Option String) :
    List MigrationFile :=
  ((files.list.filter fun file => file.version ∉ applied).filter fun file =>
    target.all fun target => file.version ≤ target).filter fun file => file.up.isSome

def migrateUp (files : Files) (applied : List String) (target : Option String) (yes : Bool)
    (input : String) : Except String (List (Statement String)) :=
  confirmed (statements .up ((pending files applied target).map (·.version))) yes input

/-- The down script of a version in the ledger. -/
def rollbackOf (files : Files) (version : String) : Except String String :=
  match files.list.find? (·.version = version) with
  | none => .error ("applied migration `" ++ version ++ "` has no local migration file")
  | some file =>
      match file.down with
      | none => .error ("migration `" ++ version ++ "` has no .down.sql file")
      | some down => .ok down

def migrateDown (files : Files) (applied : List String) (yes : Bool) (input : String) :
    Except String (List (Statement String)) := do
  let _ ← applied.mapM (rollbackOf files)
  confirmed (statements .down applied) yes input

def MigrateAction.changes : MigrateAction → Bool
  | .status => false
  | _ => true

def dispatch (collation : Collation) (run : Run) (log : List (Statement String)) :
    Except String (List (Statement String)) :=
  match run.action with
  | .up target yes =>
      migrateUp run.project.files (appliedVersions collation log) target yes run.input
  | .down steps yes =>
      migrateDown run.project.files (appliedVersionsDesc collation log steps) yes run.input
  | .status => .ok []

/-- The statements that a run is to execute after a log. -/
def runMigrate (collation : Collation) (run : Run) (log : List (Statement String)) :
    Except String (List (Statement String)) :=
  match run.project.strategy, run.project.databaseUrl with
  | none, _ => .error "lazuli migrate requires Lazurite.toml — run `lazuli init --lazurite`"
  | some strategy, url =>
      if strategy = .checkOnly ∧ run.action.changes then
        .error ("lazuli migrate cannot apply or roll back migrations " ++
          "when [migrations].strategy = \"check-only\"")
      else if url.isNone then .error "lazuli migrate requires `DATABASE_URL` env var set"
      else dispatch collation run log

/-- The log after a run: the statements up to which it came. -/
def Run.after (collation : Collation) (log : List (Statement String)) (run : Run) :
    List (Statement String) :=
  log ++ ((runMigrate collation run log).toOption.getD []).take run.stop

def history (collation : Collation) (runs : List Run) : List (Statement String) :=
  runs.foldl (Run.after collation) []

/-! ### Versions that are read back -/

/-- The line of the version is read as the version. -/
def Plain (version : String) : Prop :=
  version ≠ "" ∧ '\n' ∉ version.toList ∧ Text.trim version.toList = version.toList

instance (version : String) : Decidable (Plain version) := inferInstanceAs (Decidable (_ ∧ _ ∧ _))

theorem Plain.trim_dropReturn {version : String} (plain : Plain version) :
    Text.trim (dropReturn version.toList) = version.toList := by
  have noReturn : version.toList.getLast? ≠ some '\r' := by
    intro last
    have visible := Text.isWhitespace_getLast_trim (s := version.toList)
    rw [plain.2.2] at visible
    cases visible '\r' last
  rw [dropReturn, if_neg noReturn, plain.2.2]

theorem readVersions_psqlRows {versions : List String} (plain : ∀ v ∈ versions, Plain v) :
    readVersions (psqlRows versions) = versions := by
  have breaks : ∀ line ∈ versions.map String.toList, '\n' ∉ line :=
    List.forall_mem_map.mpr fun v hv => (plain v hv).2.1
  have read := Lines.lines_unlines breaks []
  have last : lines [] = [] := rfl
  rw [last, List.append_nil, List.append_nil] at read
  have trimmed : ((versions.map String.toList).map dropReturn).map Text.trim =
      versions.map String.toList := by
    rw [List.map_map, List.map_map]
    exact List.map_congr_left fun v hv => (plain v hv).trim_dropReturn
  have nonempty : ∀ line ∈ versions.map String.toList, (!line.isEmpty) = true := by
    refine List.forall_mem_map.mpr fun v hv => ?_
    rw [Bool.not_eq_true', List.isEmpty_eq_false_iff, Ne, String.toList_eq_nil_iff]
    exact (plain v hv).1
  rw [readVersions, psqlRows, read, trimmed, List.filter_eq_self.mpr nonempty, List.map_map]
  exact (List.map_congr_left fun v _ => String.ofList_toList).trans (List.map_id versions)

section Applied

variable {collation : Collation} {log : List (Statement String)}

theorem mem_orderByVersionDesc {rows : List String} {v : String} :
    v ∈ orderByVersionDesc collation rows ↔ v ∈ rows :=
  (List.perm_insertionSort _ rows).mem_iff

theorem mem_appliedVersions (plain : ∀ v ∈ rows log, Plain v) {v : String} :
    v ∈ appliedVersions collation log ↔ v ∈ rows log := by
  have sorted : (orderByVersion collation (rows log)).Perm (rows log) :=
    List.perm_insertionSort _ _
  rw [appliedVersions, readVersions_psqlRows fun v hv => plain v (sorted.mem_iff.mp hv)]
  exact sorted.mem_iff

theorem appliedVersionsDesc_eq (plain : ∀ v ∈ rows log, Plain v) (steps : Nat) :
    appliedVersionsDesc collation log steps =
      (orderByVersionDesc collation (rows log)).take steps :=
  readVersions_psqlRows fun v hv =>
    plain v (mem_orderByVersionDesc.mp (List.mem_of_mem_take hv))

theorem pairwise_orderByVersionDesc (rows : List String) :
    (orderByVersionDesc collation rows).Pairwise fun a b => collation.le b a := by
  have total : Std.Total fun a b => collation.le b a := ⟨fun a b => collation.total b a⟩
  have trans : IsTrans String fun a b => collation.le b a :=
    ⟨fun a b c hab hbc => collation.trans c b a hbc hab⟩
  exact List.pairwise_insertionSort _ rows

end Applied

/-! ### What a run executes -/

section Runs

variable {collation : Collation} {log plan : List (Statement String)} {run : Run}

theorem confirmed_eq_ok {stmts : List (Statement String)} {yes : Bool} {input : String}
    (ok : confirmed stmts yes input = .ok plan) : plan = stmts := by
  rw [confirmed] at ok
  split at ok
  · exact (Except.ok.inj ok).symm
  · cases ok

theorem dispatch_of_ok (ok : runMigrate collation run log = .ok plan) :
    dispatch collation run log = .ok plan := by
  unfold runMigrate at ok
  split at ok
  · cases ok
  · split at ok
    · cases ok
    · split at ok
      · cases ok
      · exact ok

theorem plan_up {target : Option String} {yes : Bool} (action : run.action = .up target yes)
    (ok : runMigrate collation run log = .ok plan) :
    plan = statements .up
      ((pending run.project.files (appliedVersions collation log) target).map (·.version)) := by
  have sent := dispatch_of_ok ok
  rw [dispatch, action] at sent
  exact confirmed_eq_ok sent

theorem plan_down {steps : Nat} {yes : Bool} (action : run.action = .down steps yes)
    (ok : runMigrate collation run log = .ok plan) :
    plan = statements .down (appliedVersionsDesc collation log steps) := by
  have sent := dispatch_of_ok ok
  rw [dispatch, action] at sent
  simp only [migrateDown] at sent
  cases scripts : (appliedVersionsDesc collation log steps).mapM
      (rollbackOf run.project.files) with
  | error e =>
      rw [scripts] at sent
      cases sent
  | ok paths =>
      rw [scripts] at sent
      exact confirmed_eq_ok sent

theorem plan_status (action : run.action = .status)
    (ok : runMigrate collation run log = .ok plan) : plan = [] := by
  have sent := dispatch_of_ok ok
  rw [dispatch, action] at sent
  exact (Except.ok.inj sent).symm

/-- The versions that are not in the ledger, with an up script and up to the target. -/
theorem mem_pending (plain : ∀ v ∈ rows log, Plain v) {files : Files} {target : Option String}
    {v : String} :
    v ∈ (pending files (appliedVersions collation log) target).map (·.version) ↔
      (∃ file ∈ files.list, file.version = v ∧ file.up.isSome = true) ∧
        (∀ t ∈ target, v ≤ t) ∧ v ∉ rows log := by
  have within {w : String} : (target.all fun t => w ≤ t) = true ↔ ∀ t ∈ target, w ≤ t := by
    simp [Option.all_eq_true]
  simp only [pending, List.mem_map, List.mem_filter, decide_eq_true_eq, within,
    mem_appliedVersions plain]
  constructor
  · rintro ⟨file, ⟨⟨⟨mem, new⟩, low⟩, up⟩, rfl⟩
    exact ⟨⟨file, mem, rfl, up⟩, low, new⟩
  · rintro ⟨⟨file, mem, rfl, up⟩, low, new⟩
    exact ⟨file, ⟨⟨⟨mem, new⟩, low⟩, up⟩, rfl⟩

theorem ascending_pending (files : Files) (applied : List String) (target : Option String) :
    ((pending files applied target).map (·.version)).Pairwise (· < ·) :=
  List.pairwise_map.mpr (((files.ascending.filter _).filter _).filter _)

theorem nodup_appliedVersionsDesc (plain : ∀ v ∈ rows log, Plain v) (steps : Nat) :
    (appliedVersionsDesc collation log steps).Nodup := by
  have sorted : (orderByVersionDesc collation (rows log)).Perm (rows log) :=
    List.perm_insertionSort _ _
  rw [appliedVersionsDesc_eq plain]
  exact (sorted.nodup_iff.mpr (nodup_rows log)).sublist (List.take_sublist _ _)

/-- What holds of a log that runs have written. -/
structure Sound (log : List (Statement String)) : Prop where
  lawful : Lawful log
  plain : ∀ v ∈ rows log, Plain v

theorem Sound.append_statements {d : Direction} {items : List String} (sound : Sound log)
    (distinct : items.Nodup) (due : ∀ v ∈ items, d = .up ↔ v ∉ rows log)
    (plain : d = .up → ∀ v ∈ items, Plain v) (n : Nat) :
    Sound (log ++ (statements d items).take n) where
  lawful := sound.lawful.append_statements distinct due n
  plain := by
    intro v mem
    rcases mem_rows_of_append mem with old | new
    · exact sound.plain v old
    · obtain ⟨w, hw, same | same⟩ := mem_statements.mp (List.mem_of_mem_take new)
      · cases same
      · obtain ⟨rfl, rfl⟩ := Statement.ledger.inj same
        exact plain rfl v hw

theorem Sound.after (sound : Sound log)
    (plain : ∀ file ∈ run.project.files.list, Plain file.version) :
    Sound (run.after collation log) := by
  rw [Run.after]
  cases ok : runMigrate collation run log with
  | error e => simpa [Except.toOption] using sound
  | ok plan =>
      change Sound (log ++ plan.take run.stop)
      cases action : run.action with
      | up target yes =>
          rw [plan_up action ok]
          have distinct := (ascending_pending run.project.files (appliedVersions collation log)
            target).imp ne_of_lt
          refine sound.append_statements distinct (fun v hv => ?_) (fun _ v hv => ?_) run.stop
          · exact iff_of_true rfl ((mem_pending sound.plain).mp hv).2.2
          · obtain ⟨⟨file, mem, rfl, -⟩, -⟩ := (mem_pending sound.plain).mp hv
            exact plain file mem
      | down steps yes =>
          rw [plan_down action ok]
          refine sound.append_statements (nodup_appliedVersionsDesc sound.plain steps)
            (fun v hv => ?_) (fun up => by cases up) run.stop
          rw [appliedVersionsDesc_eq sound.plain] at hv
          have listed := mem_orderByVersionDesc.mp (List.mem_of_mem_take hv)
          exact iff_of_false (fun up => by cases up) (not_not_intro listed)
      | status =>
          rw [plan_status action ok, List.take_nil, List.append_nil]
          exact sound

theorem sound_history {runs : List Run}
    (plain : ∀ run ∈ runs, ∀ file ∈ run.project.files.list, Plain file.version) :
    Sound (history collation runs) := by
  induction runs using List.reverseRecOn with
  | nil => exact ⟨lawful_nil, fun v mem => absurd mem List.not_mem_nil⟩
  | append_singleton runs run ih =>
      have before := ih fun r hr => plain r (List.mem_append_left _ hr)
      rw [history, List.foldl_append]
      exact before.after (plain run (List.mem_append_right _ (List.mem_singleton_self _)))

end Runs

/-! ### What the ledger tells of -/

/-- What holds of the ledger and of each run when runs have been broken off anywhere. -/
structure Kept (collation : Collation) (runs : List Run) : Prop where
  /-- No up script is executed twice without its down script in between, unless the first
  execution was cut off from its statement in the ledger. -/
  once : ∀ a b c v,
    history collation runs = a ++ .script .up v :: (b ++ .script .up v :: c) →
      .script .down v ∈ b ∨ CutOff (a ++ .script .up v :: b) v
  /-- The ledger is right about a version unless the last script of the version was cut off from
  its statement. -/
  listed : ∀ v, (v ∈ rows (history collation runs) ↔
    lastScript (history collation runs) v = some (.script .up v)) ↔
      ¬ CutOff (history collation runs) v
  /-- A run executes the statements it has planned, in order, up to where it is broken off. -/
  stopped : ∀ earlier run later, runs = earlier ++ run :: later →
    ∃ plan, history collation (earlier ++ [run]) = history collation earlier ++ plan.take run.stop ∧
      (plan = [] ∨ runMigrate collation run (history collation earlier) = .ok plan)
  /-- An up run plans the pending versions in ascending order. -/
  ascending : ∀ earlier run later, runs = earlier ++ run :: later →
    ∀ target yes plan, run.action = .up target yes →
      runMigrate collation run (history collation earlier) = .ok plan →
        ∃ versions, plan = statements .up versions ∧ versions.Pairwise (· < ·) ∧
          ∀ v, v ∈ versions ↔
            (∃ file ∈ run.project.files.list, file.version = v ∧ file.up.isSome = true) ∧
              (∀ t ∈ target, v ≤ t) ∧ v ∉ rows (history collation earlier)
  /-- A down run plans the first versions of the ledger in the descending order of the database. -/
  descending : ∀ earlier run later, runs = earlier ++ run :: later →
    ∀ steps yes plan, run.action = .down steps yes →
      runMigrate collation run (history collation earlier) = .ok plan →
        ∃ order : List String, order.Perm (rows (history collation earlier)) ∧
          order.Pairwise (fun a b => collation.le b a) ∧
            plan = statements .down (order.take steps)

theorem kept {collation : Collation} {runs : List Run}
    (plain : ∀ run ∈ runs, ∀ file ∈ run.project.files.list, Plain file.version) :
    Kept collation runs := by
  have sound : Sound (history collation runs) := sound_history plain
  have before {earlier later : List Run} {run : Run} (split : runs = earlier ++ run :: later) :
      Sound (history collation earlier) := by
    refine sound_history fun r hr => plain r ?_
    rw [split]
    exact List.mem_append_left _ hr
  constructor
  case once =>
    intro a b c v split
    have lawful := sound.lawful
    rw [split] at lawful
    exact down_or_cutOff lawful
  case listed => exact fun v => mem_rows_iff_lastScript sound.lawful
  case stopped =>
    intro earlier run later split
    refine ⟨(runMigrate collation run (history collation earlier)).toOption.getD [], ?_, ?_⟩
    · rw [history, List.foldl_append]
      rfl
    · cases runMigrate collation run (history collation earlier) with
      | error e => exact Or.inl rfl
      | ok plan => exact Or.inr rfl
  case ascending =>
    intro earlier run later split target yes plan action ok
    exact ⟨_, plan_up action ok, ascending_pending _ _ _,
      fun v => mem_pending (before split).plain⟩
  case descending =>
    intro earlier run later split steps yes plan action ok
    refine ⟨orderByVersionDesc collation (rows (history collation earlier)),
      List.perm_insertionSort _ _, pairwise_orderByVersionDesc _, ?_⟩
    rw [plan_down action ok, appliedVersionsDesc_eq (before split).plain]

/-! ### Runs that lead the ledger astray -/

def byteOrder : Collation where
  le a b := a ≤ b
  decidable := inferInstance
  total := le_total
  trans := fun _ _ _ => le_trans
  antisymm := fun _ _ => le_antisymm

/-- A project with scripts of these names. -/
def projectOf (names : List String) : Project :=
  ⟨some .auto, some "postgres://db", names.map fun name => .file (some name) ("sql/" ++ name), []⟩

theorem kept_late :
    Kept byteOrder [⟨projectOf ["2.up.sql", "2.down.sql"], .up none true, "", 1⟩,
      ⟨projectOf ["1.up.sql", "1.down.sql", "2.up.sql", "2.down.sql"], .up none true, "", 2⟩] :=
  kept (by decide)

/-- A late version is applied last and not undone first, a script is executed again after a run
that broke off behind it, and so is one whose version ends in a space. -/
theorem astray :
    history byteOrder
        [⟨projectOf ["2.up.sql", "2.down.sql"], .up none true, "", 2⟩,
          ⟨projectOf ["1.up.sql", "1.down.sql", "2.up.sql", "2.down.sql"], .up none true, "", 2⟩,
          ⟨projectOf ["1.up.sql", "1.down.sql", "2.up.sql", "2.down.sql"], .down 1 true, "", 2⟩] =
      [.script .up "2", .ledger .up "2", .script .up "1", .ledger .up "1",
        .script .down "2", .ledger .down "2"] ∧
    rows (history byteOrder [⟨projectOf ["1.up.sql"], .up none true, "", 1⟩]) = [] ∧
    history byteOrder
        [⟨projectOf ["1.up.sql"], .up none true, "", 1⟩,
          ⟨projectOf ["1.up.sql"], .up none true, "", 2⟩] =
      [.script .up "1", .script .up "1", .ledger .up "1"] ∧
    history byteOrder
        [⟨projectOf ["1 .up.sql"], .up none true, "", 2⟩,
          ⟨projectOf ["1 .up.sql"], .up none true, "", 2⟩] =
      [.script .up "1 ", .ledger .up "1 ", .script .up "1 ", .ledger .up "1 "] := by
  refine ⟨?_, ?_, ?_, ?_⟩
  · rfl
  · rfl
  · rfl
  · rfl

/-! ### Runs that are broken off and resumed -/

section Resumed

variable {collation : Collation} {log : List (Statement String)} {run : Run} {files : Files}
  {target : Option String} {yes : Bool} {v : String}

/-- What an up run with a target brings into the ledger. -/
def Due (files : Files) (target : Option String) (v : String) : Prop :=
  (∃ file ∈ files.list, file.version = v ∧ file.up.isSome = true) ∧ ∀ t ∈ target, v ≤ t

/-- The versions that an up run is to apply. -/
def duty (collation : Collation) (run : Run) (target : Option String)
    (log : List (Statement String)) : List String :=
  (pending run.project.files (appliedVersions collation log) target).map (·.version)

theorem mem_duty (sound : Sound log) :
    v ∈ duty collation run target log ↔ Due run.project.files target v ∧ v ∉ rows log :=
  (mem_pending sound.plain).trans and_assoc.symm

theorem length_duty_le :
    (duty collation run target log).length ≤ run.project.files.list.length := by
  rw [duty, List.length_map]
  exact ((List.length_filter_le _ _).trans (List.length_filter_le _ _)).trans
    (List.length_filter_le _ _)

/-- Nothing but the ledger decides what an up run executes: nothing in a project that is not to
be migrated or without an answer, and what is pending otherwise. -/
theorem runMigrate_up (collation : Collation) (action : run.action = .up target yes) :
    (∀ log, (runMigrate collation run log).toOption.getD [] = []) ∨
      ∀ log, runMigrate collation run log =
        .ok (statements .up (duty collation run target log)) := by
  cases strategy : run.project.strategy with
  | none => exact Or.inl fun log => by simp [runMigrate, strategy, Except.toOption]
  | some kind =>
      by_cases forbidden : kind = .checkOnly ∧ run.action.changes = true
      · exact Or.inl fun log => by simp [runMigrate, strategy, forbidden, Except.toOption]
      by_cases nowhere : run.project.databaseUrl.isNone = true
      · exact Or.inl fun log => by
          simp [runMigrate, strategy, forbidden, nowhere, Except.toOption]
      have sent (log : List (Statement String)) : runMigrate collation run log =
          confirmed (statements .up (duty collation run target log)) yes run.input := by
        have reached : runMigrate collation run log = dispatch collation run log := by
          simp only [runMigrate, strategy]
          rw [if_neg forbidden, if_neg nowhere]
        rw [reached, dispatch, action]
        rfl
      simp only [sent, confirmed]
      cases confirm yes run.input with
      | true => exact Or.inr fun log => if_pos (Bool.or_true _)
      | false =>
          refine Or.inl fun log => ?_
          split
          · rename_i empty
            rw [Bool.or_false, List.isEmpty_iff] at empty
            exact empty
          · rfl

/-- A run that is broken off leaves an uninterrupted one behind it where it leaves it without. -/
theorem mem_rows_after_after (sound : Sound log) (action : run.action = .up target yes)
    (plain : ∀ file ∈ run.project.files.list, Plain file.version)
    (whole : 2 * run.project.files.list.length ≤ run.stop) (n : Nat) :
    v ∈ rows (run.after collation (Run.after collation log { run with stop := n })) ↔
      v ∈ rows (run.after collation log) := by
  have broken : Run.after collation log { run with stop := n } =
      log ++ ((runMigrate collation run log).toOption.getD []).take n := rfl
  rcases runMigrate_up collation action with idle | plans
  · rw [broken, idle, List.take_nil, List.append_nil]
  · have through {log : List (Statement String)} (sound : Sound log) :
        v ∈ rows (run.after collation log) ↔ Due run.project.files target v ∨ v ∈ rows log := by
      have all : (statements .up (duty collation run target log)).length ≤ run.stop := by
        rw [length_statements]
        exact (Nat.mul_le_mul_left 2 length_duty_le).trans whole
      rw [Run.after, plans]
      change v ∈ rows (log ++ (statements .up (duty collation run target log)).take run.stop) ↔ _
      rw [List.take_of_length_le all, mem_rows_append_statements]
      by_cases listed : v ∈ rows log <;> simp [mem_duty sound, listed]
    have next : Sound (Run.after collation log { run with stop := n }) := sound.after plain
    rw [through next, through sound, broken, plans]
    change _ ∨ v ∈ rows (log ++ (statements .up (duty collation run target log)).take n) ↔ _
    rw [mem_rows_append_take]
    by_cases part : v ∈ (duty collation run target log).take (n / 2)
    · simp [part, ((mem_duty sound).mp (List.mem_of_mem_take part)).1]
    · simp [part]

end Resumed

/-- Versions that were applied last are undone first exactly if the database orders them behind
those of the ledger before. -/
theorem mem_rows_undone {collation : Collation} {log done : List (Statement String)}
    {versions : List String} (applied : done = log ++ statements .up versions)
    (distinct : versions.Nodup) (new : ∀ v ∈ versions, v ∉ rows log) :
    (∀ v, v ∈ rows (done ++ statements .down
        ((orderByVersionDesc collation (rows done)).take versions.length)) ↔ v ∈ rows log) ↔
      ∀ v ∈ versions, ∀ w ∈ rows log, collation.le w v := by
  have listed {v : String} : v ∈ rows done ↔ v ∈ versions ∨ v ∈ rows log := by
    rw [applied, mem_rows_append_statements]
    by_cases mem : v ∈ versions <;> simp [mem]
  have sorted : (orderByVersionDesc collation (rows done)).Perm (rows done) :=
    List.perm_insertionSort _ _
  have parts : (orderByVersionDesc collation (rows done)).Perm (versions ++ rows log) := by
    refine sorted.trans ((List.perm_ext_iff_of_nodup (nodup_rows _) ?_).mpr fun v => ?_)
    · refine List.nodup_append.mpr ⟨distinct, nodup_rows _, ?_⟩
      rintro v hv w hw rfl
      exact new v hv hw
    · rw [listed, List.mem_append]
  rw [← mem_take_iff_before (fun a b ab ba => collation.antisymm a b ba ab)
    (pairwise_orderByVersionDesc _) parts (sorted.nodup_iff.mpr (nodup_rows _))]
  refine forall_congr' fun v => ?_
  have known (h : v ∈ (orderByVersionDesc collation (rows done)).take versions.length) :
      v ∈ versions ∨ v ∈ rows log :=
    listed.mp (mem_orderByVersionDesc.mp (List.mem_of_mem_take h))
  have fresh := new v
  rw [mem_rows_append_statements]
  by_cases taken : v ∈ (orderByVersionDesc collation (rows done)).take versions.length
  · by_cases mem : v ∈ versions <;> simp_all
  · by_cases mem : v ∈ versions <;> simp_all

end Lazuli.Cli.Migrate
