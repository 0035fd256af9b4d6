import Lazuli.General.Lines
import Lazuli.General.Lookup
import Lazuli.Migration.Baseline
import Lazuli.Migration.Indexes

/-!
The names of unique constraints and the codes registered for them (`unique_violation_codes` in
`emitter/migration_ddl/constraint.rs`, `emitter/unique_violation_codes.rs`,
`runtime/go/lazuli/handle_db_errors.go`).

A uniqueness with a domain code has a name in the DDL, and so has a conditional one. The name is
registered for the code as it is written; PostgreSQL reports it cut to 63 bytes. A `Database` has
for everything unique in a module the name that PostgreSQL reports. To what has no name in the DDL
PostgreSQL gives one that nothing else has.
-/

namespace Lazuli.Migration

open Ir General

/-! ### Registration -/

/-- The name and the code that are registered for a constraint. -/
def violationCode (tableName : String) : Constraint → Option (String × String)
  | .index _ => none
  | .unique unique => do
      let code ← unique.errorCode
      if unique.fields = [] then none
      else
        some
          (if unique.when.isSome then partialUniqueIndexName tableName unique.fields
            else uniqueConstraintName tableName unique.fields, code)

def uniqueViolationCodes (resource : Resource) : List (String × String) :=
  resource.constraints.filterMap (violationCode (lowerSnake resource.name))

/-- The pairs of the file of a feature, in its order. -/
def uniqueViolationCodesFile (feature : Feature) : List (String × String) :=
  (feature.resources.mergeSort fun a b => a.name ≤ b.name).flatMap fun resource =>
    (uniqueViolationCodes resource).mergeSort fun a b => a.1 ≤ b.1

def CodeUniqueViolation : String := "unique_violation"

/-- `RegisterUniqueViolationCode` leaves out what is blank. -/
def registrations (m : Module) : List (String × String) :=
  (m.features.flatMap uniqueViolationCodesFile).filter fun pair => pair.1 ≠ "" ∧ pair.2 ≠ ""

def lookupUniqueViolationCode (m : Module) (constraintName : String) : String :=
  ((lastWhere (fun pair => pair.1 = constraintName) (registrations m)).map (·.2)).getD ""

/-- `classifyDBError` for the state 23505. -/
def classifyUniqueViolation (m : Module) (constraintName : String) : String :=
  let domain := lookupUniqueViolationCode m constraintName
  if domain ≠ "" then domain else CodeUniqueViolation

/-! ### What PostgreSQL reports -/

/-- The first characters, up to that many bytes. -/
def clip : Nat → List Char → List Char
  | _, [] => []
  | n, c :: cs => if c.utf8Size ≤ n then c :: clip (n - c.utf8Size) cs else []

def maxIdentifierBytes : Nat := 63

def pgName (name : String) : String := String.ofList (clip maxIdentifierBytes name.toList)

/-- A uniqueness that a resource of a feature declares. -/
structure Uniqueness where
  feature : String
  resource : String
  unique : UniqueConstraint

/-- Something unique in a table: its name in the DDL, what declares it, and what is registered for
it. -/
structure Unique where
  ddlName : Option String := none
  declared : Option Uniqueness := none
  registered : Option (String × String) := none

def Unique.code (u : Unique) : Option String := u.declared.bind (·.unique.errorCode)

/-- A constraint as the line or the index that it becomes. -/
def constraintUnique (feature resource : String) (c : Constraint) : Option Unique :=
  let tableName := lowerSnake resource
  match c with
  | .index _ => none
  | .unique unique =>
      let made (name : Option String) : Unique :=
        ⟨name, some ⟨feature, resource, unique⟩, violationCode tableName c⟩
      match uniqueConstraintSql tableName c with
      | some (.unique name _) => some (made name)
      | _ => (partialUniqueIndexSql tableName c).map fun index => made index.name

/-- The lines without a name: keys, and fields that are unique by themselves. -/
def keyUniques (feature : Feature) (resource : Resource) : List Unique :=
  ((if compositePrimary resource then [] else [implicitId]) ++
    inlineUniqueConstraintSql resource (effectiveTenancy feature resource) ++
    (compositeKeySql resource).toList).map fun _ => {}

def uniques (m : Module) : List Unique :=
  m.features.flatMap fun feature => feature.resources.flatMap fun resource =>
    keyUniques feature resource ++
      resource.constraints.filterMap (constraintUnique feature.name resource.name)

structure Database (m : Module) where
  entries : List (Unique × String)
  complete : entries.map Prod.fst = uniques m
  named : ∀ e ∈ entries, ∀ name, e.1.ddlName = some name → e.2 = pgName name
  generated : entries.Pairwise fun a b =>
    a.1.ddlName = none ∨ b.1.ddlName = none → a.2 ≠ b.2

/-- What is registered is what is reported, only one uniqueness declared twice is reported alike,
and each violation gets its code. -/
structure Mapped (m : Module) (db : Database m) : Prop where
  registered : ∀ e ∈ db.entries, ∀ code, e.1.code = some code → e.1.registered = some (e.2, code)
  distinct : db.entries.Pairwise fun a b => a.2 = b.2 → a.1 = b.1
  mapped : ∀ e ∈ db.entries,
    classifyUniqueViolation m e.2 = e.1.code.getD CodeUniqueViolation

/-! ### Words -/

/-- A constraint whose name the DDL gives. -/
def namedUniqueness (feature resource : String) : Constraint → Option Uniqueness
  | .index _ => none
  | .unique unique =>
      if unique.fields ≠ [] ∧ (unique.when.isSome ∨ unique.errorCode.isSome) then
        some ⟨feature, resource, unique⟩
      else none

def namedUniquenesses (m : Module) : List Uniqueness :=
  m.features.flatMap fun feature => feature.resources.flatMap fun resource =>
    resource.constraints.filterMap (namedUniqueness feature.name resource.name)

/-- The words of a name in lower case. -/
def snakeWords (name : String) : List (List Char) := (lowerSnake name).toList.splitOn '_'

namespace Uniqueness

variable (u : Uniqueness)

/-- The words of the resource, those of the fields, and the kind. -/
def words : List (List Char) :=
  snakeWords u.resource ++ u.unique.fields.flatMap snakeWords ++
    [if u.unique.when.isSome then "uidx".toList else "key".toList]

/-- The words with underscores between them. -/
def spelled : List Char := ['_'].intercalate u.words

/-- The bytes of the words and the underscores. -/
def bytes : Nat := (u.words.map (·.length + 1)).sum - 1

end Uniqueness

/-- Names with a code fit, no two have the same words, and none is cut to what another is cut
to. -/
structure Apart (m : Module) : Prop where
  short : ∀ u ∈ namedUniquenesses m, u.unique.errorCode.isSome → u.bytes ≤ maxIdentifierBytes
  words : (namedUniquenesses m).Pairwise fun u v => u.words = v.words → u = v
  cut : (namedUniquenesses m).Pairwise fun u v =>
    maxIdentifierBytes < u.bytes ∨ maxIdentifierBytes < v.bytes →
      u.spelled.take maxIdentifierBytes = v.spelled.take maxIdentifierBytes → u = v
  coded : ∀ u ∈ namedUniquenesses m, u.unique.errorCode ≠ some ""

/-! ### Names as words -/

section Names

theorem snakeWords_ne_nil (name : String) : snakeWords name ≠ [] := List.splitOn_ne_nil _ _

theorem intercalate_snakeWords (name : String) :
    ['_'].intercalate (snakeWords name) = (lowerSnake name).toList :=
  List.intercalate_splitOn '_'

theorem notMem_of_mem_snakeWords {name : String} {w : List Char} (h : w ∈ snakeWords name) :
    '_' ∉ w :=
  Lines.notMem_of_mem_splitOn h

theorem toList_fieldSlug (fields : List String) :
    (fieldSlug fields).toList = ['_'].intercalate (fields.flatMap snakeWords) := by
  rw [Lines.intercalate_flatMap fun name _ => snakeWords_ne_nil name, fieldSlug,
    String.toList_intercalate, List.map_map]
  simp only [intercalate_snakeWords]
  rfl

theorem underscore_plain : ∀ c ∈ ['_'], isPlainChar c = true := List.forall_mem_singleton.mpr rfl

theorem snakeWords_plain {name : String} :
    ∀ w ∈ snakeWords name, ∀ c ∈ w, isPlainChar c = true := by
  refine (Lines.forall_mem_intercalate underscore_plain).mp ?_
  rw [intercalate_snakeWords]
  exact lowerSnake_plain name

theorem utf8Size_of_plain {c : Char} (h : isPlainChar c = true) : c.utf8Size = 1 := by
  rw [Char.utf8Size_eq_one_iff]
  simp only [isPlainChar, isPlainStart, Char.isLower, Char.isDigit, Bool.or_eq_true,
    Bool.and_eq_true, decide_eq_true_eq] at h
  rcases h with (rfl | ⟨-, h⟩) | ⟨-, h⟩
  · decide
  · exact UInt32.le_trans h (by decide)
  · exact UInt32.le_trans h (by decide)

theorem clip_of_plain {s : List Char} (h : ∀ c ∈ s, isPlainChar c = true) (n : Nat) :
    clip n s = s.take n := by
  induction s generalizing n with
  | nil => simp [clip]
  | cons c s ih =>
      obtain ⟨hc, hs⟩ := List.forall_mem_cons.mp h
      rw [clip, utf8Size_of_plain hc]
      cases n with
      | zero => simp
      | succ n => simp [ih hs]

end Names

namespace Uniqueness

variable {u v : Uniqueness}

/-- The name in the DDL. -/
def name (u : Uniqueness) : String :=
  if u.unique.when.isSome then partialUniqueIndexName (lowerSnake u.resource) u.unique.fields
  else uniqueConstraintName (lowerSnake u.resource) u.unique.fields

theorem toList_name (h : u.unique.fields ≠ []) : u.name.toList = u.spelled := by
  have hfields : u.unique.fields.flatMap snakeWords ≠ [] := by
    obtain ⟨field, hfield⟩ := List.exists_mem_of_ne_nil _ h
    obtain ⟨w, hw⟩ := List.exists_mem_of_ne_nil _ (snakeWords_ne_nil field)
    exact List.ne_nil_of_mem (List.mem_flatMap.mpr ⟨field, hfield, hw⟩)
  have hleft : snakeWords u.resource ++ u.unique.fields.flatMap snakeWords ≠ [] :=
    List.append_ne_nil_of_right_ne_nil _ hfields
  rw [spelled, words, Lines.intercalate_append hleft (by simp),
    Lines.intercalate_append (snakeWords_ne_nil _) hfields, intercalate_snakeWords,
    ← toList_fieldSlug, name]
  split <;> simp [partialUniqueIndexName, uniqueConstraintName, fieldSlug]

theorem words_ne_nil (u : Uniqueness) : u.words ≠ [] := by
  simp [words]

theorem length_spelled (u : Uniqueness) : u.spelled.length = u.bytes := by
  have h := Lines.length_intercalate '_' u.words_ne_nil
  rw [bytes, ← h, spelled, Nat.add_sub_cancel]

theorem notMem_of_mem_words {w : List Char} (h : w ∈ u.words) : '_' ∉ w := by
  rw [words, List.mem_append, List.mem_append, List.mem_flatMap, List.mem_singleton] at h
  rcases h with (h | ⟨field, -, h⟩) | rfl
  · exact notMem_of_mem_snakeWords h
  · exact notMem_of_mem_snakeWords h
  · split <;> decide

/-- The words are read back from the name. -/
theorem spelled_eq_iff : u.spelled = v.spelled ↔ u.words = v.words := by
  refine ⟨fun h => ?_, fun h => by rw [spelled, h, spelled]⟩
  have read (u : Uniqueness) : u.spelled.splitOn '_' = u.words :=
    List.splitOn_intercalate '_' (fun _ => notMem_of_mem_words) u.words_ne_nil
  rw [← read u, h, read v]

theorem spelled_plain (u : Uniqueness) : ∀ c ∈ u.spelled, isPlainChar c = true := by
  refine (Lines.forall_mem_intercalate underscore_plain).mpr fun w h => ?_
  rw [words, List.mem_append, List.mem_append, List.mem_flatMap, List.mem_singleton] at h
  rcases h with (h | ⟨field, -, h⟩) | rfl
  · exact snakeWords_plain w h
  · exact snakeWords_plain w h
  · split <;> exact List.all_eq_true.mp rfl

theorem pgName_name (h : u.unique.fields ≠ []) :
    pgName u.name = String.ofList (u.spelled.take maxIdentifierBytes) := by
  rw [pgName, toList_name h, clip_of_plain u.spelled_plain]

theorem name_eq_pgName_iff (h : u.unique.fields ≠ []) :
    u.name = pgName u.name ↔ u.bytes ≤ maxIdentifierBytes := by
  rw [pgName_name h, ← String.toList_inj, toList_name h, String.toList_ofList, eq_comm,
    List.take_eq_self_iff, length_spelled]

theorem pgName_eq_iff (hu : u.unique.fields ≠ []) (hv : v.unique.fields ≠ []) :
    pgName u.name = pgName v.name ↔
      u.spelled.take maxIdentifierBytes = v.spelled.take maxIdentifierBytes := by
  rw [pgName_name hu, pgName_name hv, ← String.toList_inj, String.toList_ofList,
    String.toList_ofList]

theorem name_ne_empty (u : Uniqueness) : u.name ≠ "" := by
  rw [name]
  split <;> simp [partialUniqueIndexName, uniqueConstraintName]

/-- Two names are cut alike only if they have the same words, or one of them is cut. -/
theorem cut_eq_iff :
    (u.spelled.take maxIdentifierBytes = v.spelled.take maxIdentifierBytes → u = v) ↔
      (u.words = v.words → u = v) ∧
      (maxIdentifierBytes < u.bytes ∨ maxIdentifierBytes < v.bytes →
        u.spelled.take maxIdentifierBytes = v.spelled.take maxIdentifierBytes → u = v) := by
  constructor
  · intro h
    exact ⟨fun same => h (by rw [spelled_eq_iff.mpr same]), fun _ => h⟩
  · rintro ⟨words, cut⟩ same
    by_cases long : maxIdentifierBytes < u.bytes ∨ maxIdentifierBytes < v.bytes
    · exact cut long same
    · obtain ⟨hu, hv⟩ := not_or.mp long
      rw [not_lt, ← length_spelled] at hu hv
      rw [List.take_of_length_le hu, List.take_of_length_le hv] at same
      exact words (spelled_eq_iff.mp same)

/-- A declared uniqueness with its name, if it has one. -/
def entry (u : Uniqueness) : Unique where
  ddlName := if u.unique.when.isSome ∨ u.unique.errorCode.isSome then some u.name else none
  declared := some u
  registered := u.unique.errorCode.map fun code => (u.name, code)

end Uniqueness

/-! ### What is unique in a module -/

section Entries

variable {m : Module}

theorem constraintUnique_eq (feature resource : String) (unique : UniqueConstraint) :
    constraintUnique feature resource (.unique unique) =
      if unique.fields = [] then none
      else some (Uniqueness.entry ⟨feature, resource, unique⟩) := by
  obtain ⟨fields, per, when, code⟩ := unique
  by_cases hfields : fields = []
  · cases when <;>
      simp [constraintUnique, uniqueConstraintSql, uniqueFieldsSql, partialUniqueIndexSql, hfields]
  · cases when <;> cases code <;>
      simp [constraintUnique, uniqueConstraintSql, uniqueFieldsSql, partialUniqueIndexSql, hfields,
        Uniqueness.entry, Uniqueness.name, violationCode]

theorem violationCode_eq (feature resource : String) (c : Constraint) :
    violationCode (lowerSnake resource) c =
      (constraintUnique feature resource c).bind (·.registered) := by
  cases c with
  | index index => rfl
  | unique unique =>
      rw [constraintUnique_eq]
      obtain ⟨fields, per, when, code⟩ := unique
      by_cases hfields : fields = [] <;> cases code <;>
        simp [violationCode, hfields, Uniqueness.entry, Uniqueness.name]

/-- What gives something its name in the DDL. -/
def Unique.namedBy (u : Unique) : Option Uniqueness :=
  if u.ddlName.isSome then u.declared else none

theorem namedUniqueness_eq (feature resource : String) (c : Constraint) :
    namedUniqueness feature resource c =
      (constraintUnique feature resource c).bind Unique.namedBy := by
  cases c with
  | index index => rfl
  | unique unique =>
      rw [constraintUnique_eq]
      obtain ⟨fields, per, when, code⟩ := unique
      by_cases hfields : fields = [] <;> cases when <;> cases code <;>
        simp [namedUniqueness, hfields, Uniqueness.entry, Unique.namedBy]

theorem filterMap_uniques {α : Type*} (f : Unique → Option α) (hf : f {} = none) (m : Module) :
    (uniques m).filterMap f =
      m.features.flatMap fun feature => feature.resources.flatMap fun resource =>
        resource.constraints.filterMap fun c =>
          (constraintUnique feature.name resource.name c).bind f := by
  have hkeys (feature : Feature) (resource : Resource) :
      (keyUniques feature resource).filterMap f = [] := by
    rw [List.filterMap_eq_nil_iff]
    intro u hu
    obtain ⟨column, -, rfl⟩ := List.mem_map.mp hu
    exact hf
  simp only [uniques, List.filterMap_flatMap, List.filterMap_append, hkeys, List.nil_append,
    List.filterMap_filterMap]

theorem filterMap_namedBy (m : Module) :
    (uniques m).filterMap (·.namedBy) = namedUniquenesses m := by
  rw [filterMap_uniques _ rfl]
  simp only [← namedUniqueness_eq]
  rfl

theorem mem_registrations {pair : String × String} :
    pair ∈ registrations m ↔
      (∃ u ∈ uniques m, u.registered = some pair) ∧ pair.1 ≠ "" ∧ pair.2 ≠ "" := by
  have hfile (feature : Feature) : pair ∈ uniqueViolationCodesFile feature ↔
      pair ∈ feature.resources.flatMap uniqueViolationCodes := by
    simp [uniqueViolationCodesFile]
  have hall : pair ∈ m.features.flatMap uniqueViolationCodesFile ↔
      pair ∈ (uniques m).filterMap (·.registered) := by
    rw [filterMap_uniques _ rfl]
    simp only [List.mem_flatMap, List.mem_filterMap, hfile, uniqueViolationCodes]
    simp only [← violationCode_eq]
  rw [registrations, List.mem_filter, hall, List.mem_filterMap]
  simp

theorem unique_cases {u : Unique} (h : u ∈ uniques m) :
    u = {} ∨ ∃ d : Uniqueness, d.unique.fields ≠ [] ∧ u = d.entry := by
  obtain ⟨feature, -, h⟩ := List.mem_flatMap.mp h
  obtain ⟨resource, -, h⟩ := List.mem_flatMap.mp h
  rcases List.mem_append.mp h with h | h
  · obtain ⟨column, -, rfl⟩ := List.mem_map.mp h
    exact .inl rfl
  · obtain ⟨c, -, h⟩ := List.mem_filterMap.mp h
    cases c with
    | index index => cases h
    | unique unique =>
        rw [constraintUnique_eq] at h
        by_cases hfields : unique.fields = []
        · rw [if_pos hfields] at h
          cases h
        · rw [if_neg hfields] at h
          exact .inr ⟨_, hfields, (Option.some.inj h).symm⟩

end Entries

/-! ### The names of a database -/

theorem length_clip_le (n : Nat) (s : List Char) : (clip n s).length ≤ n := by
  induction s generalizing n with
  | nil => simp [clip]
  | cons c s ih =>
      have hpos := c.utf8Size_pos
      rw [clip]
      split
      · have hrest := ih (n - c.utf8Size)
        rw [List.length_cons]
        omega
      · simp

/-- A name for what is at a place: the one in the DDL, or one that is longer than each of these. -/
def someName (p : Unique × Nat) : String :=
  match p.1.ddlName with
  | some name => pgName name
  | none => String.ofList (List.replicate (maxIdentifierBytes + 1 + p.2) 'x')

theorem someName_ne {p q : Unique × Nat} (before : p.2 < q.2)
    (unnamed : p.1.ddlName = none ∨ q.1.ddlName = none) : someName p ≠ someName q := by
  have hlength (p : Unique × Nat) : p.1.ddlName = none →
      (someName p).toList.length = maxIdentifierBytes + 1 + p.2 := by
    intro h
    rw [someName, h, String.toList_ofList, List.length_replicate]
  have hshort (p : Unique × Nat) : p.1.ddlName ≠ none →
      (someName p).toList.length ≤ maxIdentifierBytes := by
    intro h
    obtain ⟨name, h⟩ := Option.ne_none_iff_exists'.mp h
    simp only [someName, h, pgName, String.toList_ofList]
    exact length_clip_le _ _
  intro same
  have equal : (someName p).toList.length = (someName q).toList.length := by rw [same]
  have hp := hlength p
  have hq := hlength q
  have hp' := hshort p
  have hq' := hshort q
  by_cases h : p.1.ddlName = none <;> by_cases h' : q.1.ddlName = none <;> grind

namespace Database

theorem nonempty (m : Module) : Nonempty (Database m) := by
  have increasing : (uniques m).zipIdx.Pairwise fun p q => p.2 < q.2 := by
    rw [← List.pairwise_map, List.zipIdx_map_snd]
    exact List.pairwise_lt_range' _
  refine ⟨⟨(uniques m).zipIdx.map fun p => (p.1, someName p), ?_, ?_, ?_⟩⟩
  · rw [List.map_map]
    exact List.zipIdx_map_fst ..
  · intro e he name hname
    obtain ⟨p, -, rfl⟩ := List.mem_map.mp he
    have hname : p.1.ddlName = some name := hname
    simp only [someName, hname]
  · rw [List.pairwise_map]
    exact increasing.imp fun before unnamed => someName_ne before unnamed

variable {m : Module} (db : Database m)

theorem mem_uniques {e : Unique × String} (h : e ∈ db.entries) : e.1 ∈ uniques m :=
  db.complete ▸ List.mem_map_of_mem h

theorem exists_entry {u : Unique} (h : u ∈ uniques m) : ∃ e ∈ db.entries, e.1 = u :=
  List.mem_map.mp (db.complete.symm ▸ h)

theorem filterMap_namedBy : (db.entries.filterMap fun e => e.1.namedBy) = namedUniquenesses m := by
  rw [← Migration.filterMap_namedBy m, ← db.complete, List.filterMap_map]
  rfl

/-- Something with a name in the DDL. -/
theorem spec_of_namedBy {e : Unique × String} (he : e ∈ db.entries) {d : Uniqueness}
    (hd : e.1.namedBy = some d) :
    d.unique.fields ≠ [] ∧ e.1 = d.entry ∧ e.2 = pgName d.name := by
  rcases unique_cases (db.mem_uniques he) with h | ⟨d', hfields, h⟩
  · rw [h] at hd
    cases hd
  · rw [h, Unique.namedBy] at hd
    split at hd
    next hname =>
      obtain rfl : d' = d := Option.some.inj hd
      refine ⟨hfields, h, db.named e he _ ?_⟩
      rw [h]
      by_cases hkind : d'.unique.when.isSome ∨ d'.unique.errorCode.isSome
      · exact if_pos hkind
      · simp [Uniqueness.entry, hkind] at hname
    next => cases hd

/-- Something without a name is declared without a code. -/
theorem spec_of_not_namedBy {e : Unique × String} (he : e ∈ db.entries)
    (hd : e.1.namedBy = none) : e.1.ddlName = none ∧ e.1.code = none := by
  rcases unique_cases (db.mem_uniques he) with h | ⟨d, hfields, h⟩
  · rw [h]
    exact ⟨rfl, rfl⟩
  · rw [h] at hd ⊢
    by_cases hname : d.unique.when.isSome ∨ d.unique.errorCode.isSome
    · simp [Unique.namedBy, Uniqueness.entry, hname] at hd
    · simp only [not_or, Option.not_isSome_iff_eq_none] at hname
      simp [Unique.code, Uniqueness.entry, hname]

/-- Whether two are reported alike is decided by what has a name in the DDL. -/
theorem distinct_iff :
    (db.entries.Pairwise fun a b => a.2 = b.2 → a.1 = b.1) ↔
      (namedUniquenesses m).Pairwise fun u v => pgName u.name = pgName v.name → u = v := by
  rw [← db.filterMap_namedBy, List.pairwise_filterMap]
  constructor
  · intro h
    refine h.imp_of_mem fun ha hb distinct u hu v hv same => ?_
    obtain ⟨-, hua, hna⟩ := db.spec_of_namedBy ha hu
    obtain ⟨-, hvb, hnb⟩ := db.spec_of_namedBy hb hv
    have equal : u.entry = v.entry := by
      rw [← hua, ← hvb, distinct (by rw [hna, hnb, same])]
    exact Option.some.inj (congrArg Unique.declared equal)
  · intro h
    refine (h.and db.generated).imp_of_mem fun {a b} ha hb both same => ?_
    cases hu : a.1.namedBy with
    | none => exact absurd same (both.2 (.inl (db.spec_of_not_namedBy ha hu).1))
    | some u =>
        cases hv : b.1.namedBy with
        | none => exact absurd same (both.2 (.inr (db.spec_of_not_namedBy hb hv).1))
        | some v =>
            obtain ⟨-, hua, hna⟩ := db.spec_of_namedBy ha hu
            obtain ⟨-, hvb, hnb⟩ := db.spec_of_namedBy hb hv
            rw [hua, hvb, both.1 u hu v hv (by rw [← hna, ← hnb, same])]

theorem exists_of_mem_named {d : Uniqueness} (h : d ∈ namedUniquenesses m) :
    ∃ e ∈ db.entries, e.1.namedBy = some d := by
  rw [← db.filterMap_namedBy] at h
  exact List.mem_filterMap.mp h

theorem mem_named {e : Unique × String} (he : e ∈ db.entries) {d : Uniqueness}
    (hd : e.1.namedBy = some d) : d ∈ namedUniquenesses m := by
  rw [← db.filterMap_namedBy]
  exact List.mem_filterMap.mpr ⟨e, he, hd⟩

/-- What is registered for something with a code. -/
theorem spec_of_registered {e : Unique × String} (he : e ∈ db.entries) {pair : String × String}
    (hpair : e.1.registered = some pair) :
    ∃ d, e.1.namedBy = some d ∧ d.unique.errorCode = some pair.2 ∧ pair.1 = d.name := by
  rcases unique_cases (db.mem_uniques he) with h | ⟨d, -, h⟩
  · rw [h] at hpair
    cases hpair
  · rw [h] at hpair ⊢
    obtain ⟨code, hcode, rfl⟩ := Option.map_eq_some_iff.mp hpair
    exact ⟨d, by simp [Unique.namedBy, Uniqueness.entry, hcode], hcode, rfl⟩

theorem registered_iff :
    (∀ e ∈ db.entries, ∀ code, e.1.code = some code → e.1.registered = some (e.2, code)) ↔
      ∀ u ∈ namedUniquenesses m, u.unique.errorCode.isSome → u.bytes ≤ maxIdentifierBytes := by
  constructor
  · intro h u hu hcode
    obtain ⟨e, he, hd⟩ := db.exists_of_mem_named hu
    obtain ⟨hfields, hentry, hname⟩ := db.spec_of_namedBy he hd
    obtain ⟨code, hcode⟩ := Option.isSome_iff_exists.mp hcode
    have here := h e he code (by rw [hentry]; exact hcode)
    rw [hentry, hname] at here
    obtain ⟨code', -, hpair⟩ := Option.map_eq_some_iff.mp here
    exact (Uniqueness.name_eq_pgName_iff hfields).mp (congrArg Prod.fst hpair)
  · intro h e he code hcode
    cases hd : e.1.namedBy with
    | none => rw [(db.spec_of_not_namedBy he hd).2] at hcode; cases hcode
    | some d =>
        obtain ⟨hfields, hentry, hname⟩ := db.spec_of_namedBy he hd
        rw [hentry] at hcode ⊢
        have hcode : d.unique.errorCode = some code := hcode
        have short := h d (db.mem_named he hd) (by rw [hcode]; rfl)
        rw [hname, ← (Uniqueness.name_eq_pgName_iff hfields).mpr short]
        simp [Uniqueness.entry, hcode]

end Database

/-! ### Which violations reach their codes -/

section Main

variable {m : Module}

theorem classifyUniqueViolation_ne_empty (m : Module) (name : String) :
    classifyUniqueViolation m name ≠ "" := by
  unfold classifyUniqueViolation
  dsimp only
  split
  · assumption
  · decide

theorem classifyUniqueViolation_eq {name code : String} (hcode : code ≠ "")
    (here : (name, code) ∈ registrations m)
    (only : ∀ code', (name, code') ∈ registrations m → code' = code) :
    classifyUniqueViolation m name = code := by
  have found : lookupUniqueViolationCode m name = code := by
    rw [lookupUniqueViolationCode, lastWhere_of_unique here (by simp)]
    · rfl
    · rintro ⟨name', code'⟩ hmem hname
      obtain rfl : name' = name := by simpa using hname
      rw [only code' hmem]
  rw [classifyUniqueViolation, found, if_pos hcode]

theorem classifyUniqueViolation_none {name : String}
    (none : ∀ code, (name, code) ∉ registrations m) :
    classifyUniqueViolation m name = CodeUniqueViolation := by
  have missed : lookupUniqueViolationCode m name = "" := by
    have found : lastWhere (fun pair => pair.1 = name) (registrations m) = Option.none := by
      rw [lastWhere, List.find?_eq_none]
      rintro ⟨name', code⟩ hmem hname
      obtain rfl : name' = name := by simpa using hname
      exact none code (List.mem_reverse.mp hmem)
    rw [lookupUniqueViolationCode, found]
    rfl
  rw [classifyUniqueViolation, missed, if_neg (by simp)]

theorem fields_ne_nil {u : Uniqueness} (h : u ∈ namedUniquenesses m) : u.unique.fields ≠ [] := by
  rw [← filterMap_namedBy] at h
  obtain ⟨entry, hentry, hu⟩ := List.mem_filterMap.mp h
  rcases unique_cases hentry with rfl | ⟨d, hfields, rfl⟩
  · cases hu
  · rw [Unique.namedBy] at hu
    split at hu
    · exact Option.some.inj hu ▸ hfields
    · cases hu

theorem distinct_iff_apart :
    ((namedUniquenesses m).Pairwise fun u v => pgName u.name = pgName v.name → u = v) ↔
      ((namedUniquenesses m).Pairwise fun u v => u.words = v.words → u = v) ∧
      (namedUniquenesses m).Pairwise fun u v =>
        maxIdentifierBytes < u.bytes ∨ maxIdentifierBytes < v.bytes →
          u.spelled.take maxIdentifierBytes = v.spelled.take maxIdentifierBytes → u = v := by
  rw [← List.pairwise_and_iff]
  refine List.Pairwise.iff_of_mem fun {u v} hu hv => ?_
  have cut := Uniqueness.pgName_eq_iff (fields_ne_nil hu) (fields_ne_nil hv)
  exact (imp_congr_left cut).trans Uniqueness.cut_eq_iff

section Alike

variable {db : Database m}
  (registered : ∀ e ∈ db.entries, ∀ code, e.1.code = some code →
    e.1.registered = some (e.2, code))
  (distinct : db.entries.Pairwise fun a b => a.2 = b.2 → a.1 = b.1)

include distinct in
theorem eq_of_reported_alike {e e' : Unique × String} (he : e ∈ db.entries)
    (he' : e' ∈ db.entries) (same : e.2 = e'.2) : e.1 = e'.1 :=
  List.Pairwise.forall_of_forall_of_flip (fun _ _ _ => rfl) distinct
    (distinct.imp fun h same => (h same.symm).symm) he he' same

include registered distinct in
/-- Under a reported name only the code of what is violated is registered. -/
theorem code_of_registration {e : Unique × String} (he : e ∈ db.entries) {code : String}
    (h : (e.2, code) ∈ registrations m) : e.1.code = some code := by
  obtain ⟨⟨u, hu, hpair⟩, -⟩ := mem_registrations.mp h
  obtain ⟨e', he', rfl⟩ := db.exists_entry hu
  obtain ⟨d, hd, hcode, -⟩ := db.spec_of_registered he' hpair
  have hcode' : e'.1.code = some code := by
    rw [(db.spec_of_namedBy he' hd).2.1]
    exact hcode
  have reported := registered e' he' code hcode'
  rw [hpair] at reported
  have same : e.2 = e'.2 := congrArg Prod.fst (Option.some.inj reported)
  rw [eq_of_reported_alike distinct he he' same, hcode']

include registered distinct in
theorem classify_eq_code (coded : ∀ u ∈ namedUniquenesses m, u.unique.errorCode ≠ some "")
    {e : Unique × String} (he : e ∈ db.entries) :
    classifyUniqueViolation m e.2 = e.1.code.getD CodeUniqueViolation := by
  cases hcode : e.1.code with
  | none =>
      refine classifyUniqueViolation_none fun code h => ?_
      rw [code_of_registration registered distinct he h] at hcode
      cases hcode
  | some code =>
      have hpair := registered e he code hcode
      obtain ⟨d, hd, herror, hname⟩ := db.spec_of_registered he hpair
      have hne : code ≠ "" := by
        rintro rfl
        exact coded d (db.mem_named he hd) herror
      refine classifyUniqueViolation_eq hne (mem_registrations.mpr ?_) fun code' h => ?_
      · exact ⟨⟨e.1, db.mem_uniques he, hpair⟩, hname ▸ d.name_ne_empty, hne⟩
      · have hcode' := code_of_registration registered distinct he h
        exact Option.some.inj (hcode'.symm.trans hcode)

end Alike

theorem mapped_iff (m : Module) (db : Database m) : Mapped m db ↔ Apart m := by
  constructor
  · rintro ⟨registered, distinct, mapped⟩
    obtain ⟨words, cut⟩ := distinct_iff_apart.mp (db.distinct_iff.mp distinct)
    refine ⟨db.registered_iff.mp registered, words, cut, fun u hu hcode => ?_⟩
    obtain ⟨e, he, hd⟩ := db.exists_of_mem_named hu
    have here := mapped e he
    rw [(db.spec_of_namedBy he hd).2.1] at here
    have blank : u.entry.code = some "" := hcode
    rw [blank] at here
    exact classifyUniqueViolation_ne_empty m _ here
  · rintro ⟨short, words, cut, coded⟩
    have registered := db.registered_iff.mpr short
    have distinct := db.distinct_iff.mpr (distinct_iff_apart.mpr ⟨words, cut⟩)
    exact ⟨registered, distinct, fun e he => classify_eq_code registered distinct coded he⟩

end Main

/-! ### Two tables whose names run together -/

def teamEmail : UniqueConstraint where
  fields := ["member_email"]
  errorCode := some "TEAM_CONTACT_TAKEN"

def memberEmail : UniqueConstraint where
  fields := ["email"]
  errorCode := some "MEMBER_EMAIL_TAKEN"

def teams : Feature where
  name := "teams"
  resources :=
    [{ name := "Team"
       fields := [{ name := "member_email", typeRef := .builtin .text, required := true }]
       constraints := [.unique teamEmail] },
      { name := "TeamMember"
        fields := [{ name := "email", typeRef := .builtin .text, required := true }]
        constraints := [.unique memberEmail] }]

def teamsModule : Module := ⟨[teams]⟩

/-- Both are `team_member_email_key`, under which the code of the second is registered. -/
theorem team_reported_as_member : ∃ db : Database teamsModule, ¬ Mapped teamsModule db := by
  obtain ⟨db⟩ := Database.nonempty teamsModule
  refine ⟨db, fun mapped => ?_⟩
  have distinct := (distinct_iff_apart.mp (db.distinct_iff.mp mapped.distinct)).1
  have same : Uniqueness.words ⟨"teams", "Team", teamEmail⟩ =
      Uniqueness.words ⟨"teams", "TeamMember", memberEmail⟩ := by decide
  have equal := List.rel_of_pairwise_cons distinct List.mem_cons_self same
  exact absurd (congrArg Uniqueness.resource equal) (by decide)

end Lazuli.Migration
