import Mathlib
import Lazuli.Migration.TableLines

/-!
A migration read back.

The lines of the text are those that were written, since every text inside of one stands on one
line. So the table is found and its columns are read, all of them and in order
(`parse_migration`).
-/

namespace Lazuli.Migration

open Ir
open General.Lines

/-! ### The file -/

section File

theorem oneLine_double {s : List Char} {f : Char → List Char} (hf : ∀ c, f c = [c] ∨ f c = [c, c])
    (h : OneLine s) : OneLine (s.flatMap f) := by
  refine oneLine_of_forall fun d hd => ?_
  obtain ⟨c, hc, hd⟩ := List.mem_flatMap.mp hd
  have hsame : d = c := by rcases hf c with hfc | hfc <;> simpa [hfc] using hd
  exact hsame ▸ h.forall_mem c hc

theorem oneLine_quoteText {text : String} (h : OneLine text.toList) :
    OneLine (quoteText text).toList := by
  have hdouble := oneLine_double (f := fun c => if c = '\x27' then [c, c] else [c])
    (fun c => by by_cases hc : c = '\x27' <;> simp [hc]) h
  simp [quoteText, hdouble]

theorem oneLine_quoteIdent {name : String} (h : OneLine name.toList) :
    OneLine (quoteIdent name).toList := by
  have hdouble := oneLine_double (f := doubleQuotes)
    (fun c => by by_cases hc : c = '"' <;> simp [doubleQuotes, hc]) h
  simp [quoteIdent, hdouble]

theorem oneLine_sqlIdent {name : String} (h : OneLine name.toList) :
    OneLine (sqlIdent name).toList := by
  rw [sqlIdent]
  split
  · exact h
  · exact oneLine_quoteIdent h

theorem oneLine_of_plainChars {s : List Char} (h : ∀ c ∈ s, isPlainChar c = true) : OneLine s :=
  oneLine_of_forall fun c hc => ⟨ne_of_plain (h c hc) rfl, ne_of_plain (h c hc) rfl⟩

theorem oneLine_of_plain {name : String} (h : isPlainSqlIdent name = true) :
    OneLine name.toList := by
  rw [isPlainSqlIdent, Bool.and_eq_true, List.all_eq_true] at h
  exact oneLine_of_plainChars h.2

theorem isPlainChar_toLower {c : Char} (h : c.isAlphanum = true) :
    isPlainChar c.toLower = true := by
  rw [Char.isAlphanum, Bool.or_eq_true] at h
  rcases h with halpha | hdigit
  · have hlower : c.toLower.isLower = true := by rwa [Char.isLower_toLower_eq_isAlpha]
    simp [isPlainChar, isPlainStart, hlower]
  · have hupper : c.isUpper = false := by
      simp only [Char.isDigit, Char.isUpper, Bool.and_eq_true, decide_eq_true_eq,
        decide_eq_false_iff_not] at *
      grind
    rw [Char.toLower_eq_of_not_isUpper (by simp [hupper])]
    simp [isPlainChar, hdigit]

/-- What is written is plain: capitals are made small, and other characters are left out. -/
theorem lowerSnakeFrom_plain {out s : List Char} (hout : ∀ c ∈ out, isPlainChar c = true)
    (small sep : Bool) : ∀ c ∈ lowerSnakeFrom out small sep s, isPlainChar c = true := by
  have hconcat {out : List Char} {c : Char} (hout : ∀ a ∈ out, isPlainChar a = true)
      (hc : isPlainChar c = true) : ∀ a ∈ out ++ [c], isPlainChar a = true :=
    List.forall_mem_append.mpr ⟨hout, List.forall_mem_singleton.mpr hc⟩
  have hmark {out : List Char} (hout : ∀ a ∈ out, isPlainChar a = true) (b : Bool) :
      ∀ a ∈ (if b then out ++ ['_'] else out), isPlainChar a = true := by
    cases b with
    | false => exact hout
    | true => exact hconcat hout rfl
  induction s generalizing out small sep with
  | nil => exact hout
  | cons c s ih =>
      rw [lowerSnakeFrom]
      split
      · exact ih (hmark hout _) _ _
      · split
        next hupper =>
          have halphanum : c.isAlphanum = true := by simp [Char.isAlphanum, Char.isAlpha, hupper]
          exact ih (hconcat (hmark hout _) (isPlainChar_toLower halphanum)) _ _
        next =>
          split
          next halphanum => exact ih (hconcat hout (isPlainChar_toLower halphanum)) _ _
          next => exact ih hout _ _

theorem lowerSnake_plain (raw : String) : ∀ c ∈ (lowerSnake raw).toList, isPlainChar c = true := by
  intro c hc
  rw [lowerSnake, String.toList_ofList] at hc
  exact lowerSnakeFrom_plain (List.forall_mem_nil _) _ _ c ((List.rdropWhile_prefix _ _).subset hc)

theorem oneLine_lowerSnake (raw : String) : OneLine (lowerSnake raw).toList :=
  oneLine_of_plainChars (lowerSnake_plain raw)

theorem oneLine_columnList {columns : List String} (h : ∀ c ∈ columns, OneLine c.toList) :
    OneLine (columnList columns).toList := by
  have hlist : OneLine (", ".intercalate (columns.map sqlIdent)).toList := by
    rw [String.toList_intercalate]
    refine oneLine_intercalate (by decide) fun t ht => ?_
    simp only [List.map_map, List.mem_map, Function.comp_apply] at ht
    obtain ⟨c, hc, rfl⟩ := ht
    exact oneLine_sqlIdent (h c hc)
  rw [columnList, String.toList_append, String.toList_append, oneLine_append, oneLine_append]
  exact ⟨⟨by decide, hlist⟩, by decide⟩

theorem oneLine_lineEnd {comment : Option String} (h : ∀ text ∈ comment, OneLine text.toList)
    (last : Bool) : OneLine (lineEnd last comment).toList := by
  cases comment with
  | none => cases last <;> decide
  | some text => cases last <;> simp [lineEnd, h text rfl]

theorem oneLine_columnLine {column : SqlColumn} (hbody : OneLine column.renderBody.toList)
    (hcomment : ∀ comment ∈ column.trailingComment, OneLine comment.toList) (last : Bool) :
    OneLine (columnLine column last).toList := by
  rw [columnLine_eq, oneLine_append, oneLine_append]
  exact ⟨by decide, hbody, oneLine_lineEnd hcomment last⟩

theorem oneLine_commentValue (raw : String) : OneLine (commentValue raw).toList := by
  refine oneLine_of_forall fun c hc => ?_
  rw [commentValue, String.toList_ofList] at hc
  obtain ⟨d, -, rfl⟩ := List.mem_map.mp hc
  by_cases hd : d = '\n' ∨ d = '\r'
  · rw [if_pos hd]
    decide
  · rw [if_neg hd]
    exact not_or.mp hd

end File

/-- How the grammar lets a resource be written: names are plain, and other texts stand on one
line. -/
structure Written (resource : Resource) : Prop where
  names : ∀ field ∈ resource.fields, isPlainSqlIdent field.name = true
  derived : ∀ field ∈ resource.fields, ∀ expr ∈ field.derivedFrom, OneLine expr.toList
  keys : ∀ field ∈ resource.fields, OneLine field.key.toList
  uniques : ∀ unique, Constraint.unique unique ∈ resource.constraints →
    ∀ name ∈ unique.fields, OneLine name.toList
  composite : ∀ ck ∈ resource.compositeKey, ∀ name ∈ ck.fields, OneLine name.toList
  refs : ∀ pref ∈ resource.polymorphicRefs, isPlainSqlIdent pref.typeField = true ∧
    isPlainSqlIdent pref.idField = true ∧ ∀ target ∈ pref.targets, OneLine target.toList

/-- A line of a table that is read as what it declares. -/
structure SqlColumn.Fine (column : SqlColumn) : Prop where
  readable : column.Readable
  oneLine : ∀ last, OneLine (columnLine column last).toList

section Resource

variable {m : Module} {feature : Feature} {resource : Resource}

theorem fine_unique {constraint : Option String} {columns : List String}
    (hname : ∀ name ∈ constraint, OneLine name.toList) (h : ∀ c ∈ columns, OneLine c.toList) :
    (SqlColumn.unique constraint columns).Fine where
  readable := readable_unique constraint columns
  oneLine := by
    refine oneLine_columnLine ?_ (by simp [SqlColumn.trailingComment])
    have hlist := oneLine_columnList h
    unfold SqlColumn.renderBody
    cases constraint with
    | none => simpa using hlist
    | some name => simpa [hlist] using oneLine_sqlIdent (hname name rfl)

theorem fine_fields (hw : Written resource)
    (hmoney : ∀ field ∈ resource.fields, isMoney field = false) :
    ∀ column ∈ resource.fields.flatMap (fieldColumns m resource), column.Fine := by
  intro column hmem
  obtain ⟨field, hfield, hmem⟩ := List.mem_flatMap.mp hmem
  rw [fieldColumns, hmoney field hfield] at hmem
  obtain rfl : column = _ := List.mem_singleton.mp hmem
  obtain ⟨ws, hws⟩ := typeText_pgTypeForField m field
  have hplain := hw.names field hfield
  refine ⟨readable_typed hplain hws _ _ _, oneLine_columnLine ?_ ?_⟩
  · have hname := oneLine_sqlIdent (oneLine_of_plain hplain)
    have htype : OneLine (pgTypeForField m field).toList :=
      oneLine_of_forall fun c hc => (hws.chars c hc).2
    unfold SqlColumn.renderBody
    cases hderived : field.derivedFrom with
    | none => cases field.required <;> simp [hname, htype]
    | some expr =>
        have hexpr := hw.derived field hfield expr hderived
        cases field.required <;> simp [hname, htype, hexpr]
  · intro comment hcomment
    have hkey := hw.keys field hfield
    rw [SqlColumn.trailingComment, encryptionMarkerFor] at hcomment
    split at hcomment
    · obtain rfl := Option.mem_some_iff.mp hcomment
      simp [hkey]
    · obtain rfl := Option.mem_some_iff.mp hcomment
      simp [hkey]
    · cases hcomment

theorem fine_of_decide {column : SqlColumn} (h : column.Readable)
    (hbody : OneLine column.renderBody.toList) (hcomment : column.trailingComment = none) :
    column.Fine := by
  refine ⟨h, oneLine_columnLine hbody ?_⟩
  rw [hcomment]
  intro _ hnone
  cases hnone

theorem fine_softDelete (resource : Resource) :
    ∀ column ∈ softDeleteColumns resource, column.Fine := by
  obtain ⟨_, htime⟩ := typeText_base "TIMESTAMPTZ" (by decide)
  obtain ⟨_, hbigint⟩ := typeText_base "BIGINT" (by decide)
  have hat : (SqlColumn.typed "deleted_at" "TIMESTAMPTZ" false).Fine :=
    fine_of_decide (readable_typed (by decide) htime _ _ _) (by decide +kernel) rfl
  have hby : (SqlColumn.typed "deleted_by" "BIGINT" false).Fine :=
    fine_of_decide (readable_typed (by decide) hbigint _ _ _) (by decide +kernel) rfl
  intro column hmem
  rw [softDeleteColumns] at hmem
  split at hmem
  · rcases List.mem_cons.mp hmem with rfl | hmem
    · exact hat
    · split at hmem
      · rw [List.mem_singleton.mp hmem]
        exact hby
      · cases hmem
  · cases hmem

theorem fine_polymorphic (hw : Written resource) :
    ∀ column ∈ polymorphicRefColumns resource, column.Fine := by
  intro column hmem
  refine ⟨readable_polymorphic (fun pref hpref => ⟨(hw.refs pref hpref).1,
    (hw.refs pref hpref).2.1⟩) column hmem, ?_⟩
  obtain ⟨pref, hpref, hmem⟩ := List.mem_flatMap.mp hmem
  obtain ⟨htype, hid, htargets⟩ := hw.refs pref hpref
  have htype := oneLine_sqlIdent (oneLine_of_plain htype)
  have hid := oneLine_sqlIdent (oneLine_of_plain hid)
  have htexts : OneLine (", ".intercalate (pref.targets.map quoteText)).toList := by
    rw [String.toList_intercalate]
    refine oneLine_intercalate (by decide) fun t ht => ?_
    simp only [List.map_map, List.mem_map, Function.comp_apply] at ht
    obtain ⟨target, htarget, rfl⟩ := ht
    exact oneLine_quoteText (htargets target htarget)
  simp only [List.mem_cons, List.not_mem_nil, or_false] at hmem
  rcases hmem with rfl | rfl
  · refine oneLine_columnLine ?_ (by simp [SqlColumn.trailingComment])
    unfold SqlColumn.renderBody
    simp only [String.toList_append, oneLine_append]
    exact ⟨⟨htype, by decide⟩, ⟨⟨⟨by decide, htype⟩, by decide⟩, htexts⟩, by decide⟩
  · refine oneLine_columnLine ?_ (by simp [SqlColumn.trailingComment])
    unfold SqlColumn.renderBody
    simp [hid]

theorem oneLine_uniqueConstraintName {table : String} (htable : OneLine table.toList)
    (fields : List String) : OneLine (uniqueConstraintName table fields).toList := by
  have hfields : OneLine ("_".intercalate (fields.map lowerSnake)).toList := by
    rw [String.toList_intercalate]
    refine oneLine_intercalate (by decide) fun t ht => ?_
    simp only [List.map_map, List.mem_map, Function.comp_apply] at ht
    obtain ⟨name, -, rfl⟩ := ht
    exact oneLine_lowerSnake name
  simp only [uniqueConstraintName, String.toList_append, oneLine_append]
  exact ⟨⟨⟨htable, by decide⟩, hfields⟩, by decide⟩

theorem fine_uniqueFields {fields : List String} {per constraint : Option String}
    {column : SqlColumn} (hfields : ∀ name ∈ fields, OneLine name.toList)
    (hname : ∀ name ∈ constraint, OneLine name.toList)
    (h : uniqueFieldsSql fields per constraint = some column) : column.Fine := by
  rw [uniqueFieldsSql] at h
  split at h
  · cases h
  · obtain rfl := Option.some_inj.mp h
    refine fine_unique hname fun name hmem => ?_
    rcases List.mem_append.mp hmem with hmem | hmem
    · exact hfields name hmem
    · obtain ⟨axis, -, rfl⟩ := Option.map_eq_some_iff.mp (Option.mem_toList.mp hmem)
      rw [String.toList_append, oneLine_append]
      exact ⟨oneLine_lowerSnake axis, by decide⟩

theorem fine_foreignKey {name table : String} (hname : isPlainSqlIdent name = true)
    (htable : OneLine table.toList) : (SqlColumn.foreignKey name table).Fine := by
  refine fine_of_decide (readable_foreignKey name table) ?_ rfl
  unfold SqlColumn.renderBody
  simp [oneLine_sqlIdent (oneLine_of_plain hname), oneLine_quoteIdent htable]

theorem fine_constraints (hw : Written resource) :
    ∀ column ∈ tableConstraints m feature resource, column.Fine := by
  intro column hmem
  simp only [tableConstraints, List.mem_append] at hmem
  rcases hmem with ((hmem | hmem) | hmem) | hmem
  · obtain ⟨field, hfield, hcolumn⟩ := List.mem_filterMap.mp hmem
    have hplain := hw.names field (List.mem_of_mem_filter hfield)
    exact fine_uniqueFields (by simpa using oneLine_of_plain hplain) (by simp) hcolumn
  · obtain ⟨constraint, hconstraint, hcolumn⟩ := List.mem_filterMap.mp hmem
    cases constraint with
    | index index => cases hcolumn
    | unique unique =>
        rw [uniqueConstraintSql] at hcolumn
        split at hcolumn
        · cases hcolumn
        · refine fine_uniqueFields (hw.uniques unique hconstraint) (fun name hname => ?_) hcolumn
          obtain ⟨_, -, rfl⟩ := Option.map_eq_some_iff.mp hname
          exact oneLine_uniqueConstraintName (oneLine_lowerSnake _) _
  · rw [Option.mem_toList, compositeKeySql] at hmem
    obtain ⟨ck, hck, hcolumn⟩ := Option.bind_eq_some_iff.mp hmem
    have hlines := hw.composite ck hck
    split at hcolumn
    · cases hcolumn
    · obtain rfl := Option.some_inj.mp hcolumn
      split
      · refine fine_of_decide (readable_primaryKey ck.fields) ?_ rfl
        unfold SqlColumn.renderBody
        simp [oneLine_columnList hlines]
      · exact fine_unique (by simp) hlines
  · obtain ⟨field, hfield, hcolumn⟩ := List.mem_filterMap.mp hmem
    rw [foreignKeyConstraint] at hcolumn
    split at hcolumn
    · obtain ⟨_, -, rfl⟩ := Option.map_eq_some_iff.mp hcolumn
      exact fine_foreignKey (hw.names field hfield) (oneLine_lowerSnake _)
    · cases hcolumn

/-- Every line of the table is read as what it declares. -/
theorem fine_resourceColumns (hw : Written resource)
    (horg : effectiveTenancy feature resource ≠ .org)
    (hmoney : ∀ field ∈ resource.fields, isMoney field = false)
    (hrotation : sessionRotationEnabledForResource m feature resource = none) :
    ∀ column ∈ resourceColumns m feature resource, column.Fine := by
  intro column hmem
  rw [resourceColumns, if_neg horg, missingRotation, hrotation] at hmem
  simp only [List.mem_append] at hmem
  rcases hmem with ((((((hmem | hmem) | hmem) | hmem) | hmem) | hmem) | hmem) | hmem
  · split at hmem
    · cases hmem
    · rw [List.mem_singleton.mp hmem]
      exact fine_of_decide readable_id (by decide +kernel) rfl
  · cases hmem
  · exact fine_fields hw hmoney column hmem
  · simp at hmem
  · split at hmem
    · have hread := readable_timestamps column hmem
      simp only [timestampColumns, List.mem_cons, List.not_mem_nil, or_false] at hmem
      rcases hmem with rfl | rfl
      · exact fine_of_decide hread (by decide +kernel) rfl
      · exact fine_of_decide hread (by decide +kernel) rfl
    · cases hmem
  · exact fine_softDelete resource column hmem
  · exact fine_constraints hw column hmem
  · exact fine_polymorphic hw column hmem

/-! ### The text -/

theorem oneLine_headerLines (label : String) :
    ∀ line ∈ headerLines feature resource label, OneLine line.toList := by
  intro line hmem
  have hlabel := oneLine_commentValue label
  have hfeature := oneLine_commentValue feature.name
  have hresource := oneLine_commentValue resource.name
  simp only [headerLines, List.mem_append, List.mem_cons, List.not_mem_nil, or_false] at hmem
  rcases hmem with (rfl | rfl | rfl | rfl) | hmem
  · decide +kernel
  · simp [hlabel]
  · simp [hfeature, hresource]
  · decide
  · split at hmem
    · simp only [List.mem_cons, List.not_mem_nil, or_false] at hmem
      rcases hmem with rfl | rfl
      · decide +kernel
      · decide
    · cases hmem

/-- The table begins behind the header. -/
theorem headerLines_not_start (label : String) :
    ∀ line ∈ headerLines feature resource label,
      lineStartsCreateTable line.toList = false := by
  intro line hmem
  simp only [headerLines, List.mem_append, List.mem_cons, List.not_mem_nil, or_false] at hmem
  rcases hmem with (rfl | rfl | rfl | rfl) | hmem
  · rfl
  · rw [String.toList_append]
    rfl
  · rw [String.toList_append, String.toList_append, String.toList_append]
    rfl
  · rfl
  · split at hmem
    · simp only [List.mem_cons, List.not_mem_nil, or_false] at hmem
      rcases hmem with rfl | rfl <;> rfl
    · cases hmem

theorem oneLine_columnLines {columns : List SqlColumn} (h : ∀ column ∈ columns, column.Fine) :
    ∀ line ∈ columnLines columns, OneLine line.toList := by
  induction columns with
  | nil => simp [columnLines]
  | cons column columns ih =>
      obtain ⟨hcolumn, hcolumns⟩ := List.forall_mem_cons.mp h
      cases columns with
      | nil => simpa [columnLines] using hcolumn.oneLine true
      | cons _ _ => exact List.forall_mem_cons.mpr ⟨hcolumn.oneLine false, ih hcolumns⟩

theorem toList_join_lines (ls : List String) :
    (String.join (ls.map (· ++ "\n"))).toList = unlines (ls.map String.toList) := by
  induction ls with
  | nil => rfl
  | cons line ls ih =>
      rw [List.map_cons, String.join_cons, String.toList_append, ih]
      simp [unlines]

theorem lines_emitResourceMigration (label : String)
    (hfine : ∀ column ∈ resourceColumns m feature resource, column.Fine) :
    ∃ rest create, lineStartsCreateTable create = true ∧
      lines (emitResourceMigration m feature resource label).toList =
        (headerLines feature resource label).map String.toList ++
          create :: ((columnLines (resourceColumns m feature resource)).map String.toList ++
            ");".toList :: rest) := by
  let create := "CREATE TABLE IF NOT EXISTS " ++ quoteIdent (lowerSnake resource.name) ++ " ("
  let table := headerLines feature resource label ++ [create] ++
    columnLines (resourceColumns m feature resource) ++ [");"]
  let indexes := (resourceIndexes m feature resource).flatMap fun index => ["", index.text]
  have hcreate : OneLine create.toList := by
    have hname := oneLine_quoteIdent (oneLine_lowerSnake resource.name)
    simp only [create, String.toList_append, oneLine_append]
    exact ⟨⟨by decide, hname⟩, by decide⟩
  have htable : ∀ line ∈ table.map String.toList, OneLine line := by
    intro line hline
    obtain ⟨text, htext, rfl⟩ := List.mem_map.mp hline
    simp only [table, List.mem_append, List.mem_singleton] at htext
    rcases htext with ((htext | rfl) | htext) | rfl
    · exact oneLine_headerLines label text htext
    · exact hcreate
    · exact oneLine_columnLines hfine text htext
    · decide
  have htext : (emitResourceMigration m feature resource label).toList =
      unlines (table.map String.toList) ++ unlines (indexes.map String.toList) := by
    have hlines : migrationLines m feature resource label = table ++ indexes := rfl
    rw [emitResourceMigration, toList_join_lines, hlines]
    simp [unlines]
  refine ⟨lines (unlines (indexes.map String.toList)), create.toList, ?_, ?_⟩
  · simp only [create, String.toList_append]
    rfl
  · rw [htext, lines_unlines_of_oneLine htable]
    simp [table]

/-- The migration is read, and of its table the names and the types of the columns. -/
theorem parse_migration (label : String) (hw : Written resource)
    (horg : effectiveTenancy feature resource ≠ .org)
    (hmoney : ∀ field ∈ resource.fields, isMoney field = false)
    (hrotation : sessionRotationEnabledForResource m feature resource = none) :
    ∃ schema, parseBaselineFromStr (emitResourceMigration m feature resource label) = .ok schema ∧
      schema.columns.map Column.signature =
        (resourceColumns m feature resource).filterMap SqlColumn.signature := by
  have hfine := fine_resourceColumns hw horg hmoney hrotation
  obtain ⟨rest, create, hcreate, hlines⟩ := lines_emitResourceMigration label hfine
  obtain ⟨cs, hcs, hsig⟩ := parseColumns_table (fun c hc => (hfine c hc).readable) rest
  have hheader : ∀ line ∈ (headerLines feature resource label).map String.toList,
      (!lineStartsCreateTable line) = true := by
    intro line hline
    obtain ⟨text, htext, rfl⟩ := List.mem_map.mp hline
    rw [headerLines_not_start label text htext]
    rfl
  refine ⟨⟨cs⟩, ?_, hsig⟩
  rw [parseBaselineFromStr, hlines, List.dropWhile_append_of_pos hheader,
    List.dropWhile_cons_of_neg (by simp [hcreate])]
  simp only [hcs]

end Resource

end Lazuli.Migration
