import Mathlib
import Lazuli.Migration.ColumnText

/-!
The lines of a table read back.

Each line that the printer writes between the brackets of `CREATE TABLE` is read as what it
declares: a column as its name and its type, whatever stands behind them, and a constraint as
nothing (`parseColumns_table`).
-/

namespace Lazuli.Migration

open Ir
open General.Text (isWhitespace trim rdropWhile_append)
open General.Lines

/-! ### Lines of columns -/

/-- Of a column its name and its type. -/
def Column.signature (c : Column) : String × String := (c.name, c.sqlType)

/-- The line is read as the column, or as none, whatever comes behind it. -/
def Reads (line : List Char) (signature : Option (String × String)) : Prop :=
  ∃ column : Option Column, column.map Column.signature = signature ∧
    ∀ rest, parseColumns (line :: rest) = (parseColumns rest).map (column.toList ++ ·)

/-- No words of a type stand in what is behind one. -/
def Typeless (s : List Char) : Prop :=
  ∀ t : ColumnTail, t.default = none → (walkTail t (words s)).sqlTypeParts = t.sqlTypeParts

/-- What may stand behind a type and in front of the rest `y` of the line. -/
structure Behind (s y : List Char) : Prop where
  start : s = [] ∧ y = [] ∨ ∃ rest, s = ' ' :: rest
  last : ∀ c ∈ s.getLast?, isWhitespace c = false ∧ c ≠ ','
  dashless : '-' ∉ s
  typeless : Typeless (s ++ y)

section Lines

variable {p x s text : List Char} {ws : List (List Char)} {name type : String}

theorem reads_of_solid (hp : Solid p) (x : List Char) :
    Reads ("    ".toList ++ (p ++ x)) ((parseBody (p ++ lineRest x)).map Column.signature) := by
  refine ⟨_, rfl, fun rest => ?_⟩
  obtain ⟨c, more, hc, -, hclose⟩ := hp.head
  have hne : (p ++ x.rdropWhile isWhitespace).isEmpty = false := by simp [hp.ne_nil]
  have hends : endsTable (p ++ x.rdropWhile isWhitespace) = false := by
    rw [endsTable, hc]
    have hfirst : (')' == c) = false := beq_eq_false_iff_ne.mpr (Ne.symm hclose)
    simp [hclose, List.isPrefixOf, hfirst]
  rw [parseColumns]
  simp only [hp.trim_indented, hne, hends, Bool.false_eq_true, if_false, hp.lineBody_eq]

theorem solid_column (hn : NameText text name) (ht : TypeText type ws) {y : List Char}
    (hs : Behind s y) : Solid (text ++ ' ' :: (type.toList ++ s)) where
  head := by
    obtain ⟨c, rest, rfl, hc⟩ := hn.head
    exact ⟨c, _, rfl, hn.blank c List.mem_cons_self, hc⟩
  last c hc := by
    obtain ⟨rfl, -⟩ | ⟨rest, rfl⟩ := hs.start
    · have htext : text ++ ' ' :: (type.toList ++ []) = (text ++ [' ']) ++ type.toList := by simp
      rw [htext, List.getLast?_append_of_ne_nil _ ht.text_ne_nil] at hc
      exact ht.last c hc
    · have htext : text ++ ' ' :: (type.toList ++ ' ' :: rest) =
          (text ++ ' ' :: type.toList) ++ ' ' :: rest := by simp
      rw [htext, List.getLast?_append_of_ne_nil _ (List.cons_ne_nil _ _)] at hc
      exact hs.last c hc
  dashless hmem := by
    simp only [List.mem_append, List.mem_cons] at hmem
    rcases hmem with hmem | hmem | hmem | hmem
    · exact hn.dashless hmem
    · cases hmem
    · exact (ht.chars _ hmem).1 rfl
    · exact hs.dashless hmem

/-- The words behind a name are those of the type, and others. -/
theorem typeParts_column (ht : TypeText type ws) {y : List Char} (hs : Behind s y) :
    (walkTail {} (words (type.toList ++ (s ++ y)))).sqlTypeParts = ws := by
  have hwords : words (type.toList ++ (s ++ y)) = ws ++ words (s ++ y) := by
    obtain ⟨rfl, rfl⟩ | ⟨rest, rfl⟩ := hs.start
    · have hnil : words [] = [] := rfl
      simpa [hnil] using ht.words_eq
    · rw [List.cons_append, words_append rfl, words_cons rfl, ht.words_eq]
  rw [hwords, walkTail_types ht.plain rfl]
  exact hs.typeless _ rfl

/-- A line with the name and the type of a column in front is read as that column. -/
theorem reads_column (hn : NameText text name) (hne : name ≠ "") (ht : TypeText type ws)
    (hs : Behind s (lineRest x)) :
    Reads ("    ".toList ++ (text ++ ' ' :: (type.toList ++ s) ++ x)) (some (name, type)) := by
  have hreads := reads_of_solid (solid_column hn ht hs) x
  have htext : text ++ ' ' :: (type.toList ++ s) ++ lineRest x =
      text ++ ' ' :: (type.toList ++ (s ++ lineRest x)) := by simp
  have hparts := typeParts_column ht hs
  rw [htext, hn.parseBody_eq hne _ (by rw [hparts]; exact ht.ne_nil), hparts] at hreads
  simpa [Column.signature, ht.joinWords_eq] using hreads

end Lines

/-! ### What stands behind a type -/

section Behind

variable {s y : List Char}

theorem lineRest_comment (first : List Char) (hfirst : first = " ".toList ∨ first = ", ".toList)
    (comment : List Char) : lineRest (first ++ "--".toList ++ comment) = [] := by
  have hlast : ∀ c ∈ (first ++ "--".toList).getLast?, isWhitespace c = false := by
    intro c hc
    rw [List.getLast?_append_of_ne_nil _ (by decide)] at hc
    obtain rfl : '-' = c := by simpa using hc
    rfl
  have hdashless : '-' ∉ first := by
    rcases hfirst with rfl | rfl <;> decide
  rw [lineRest, rdropWhile_append hlast, List.append_assoc, withoutComment,
    before_append hdashless]
  rcases hfirst with rfl | rfl <;> rfl

/-- What the printer puts at the end of a line. -/
def lineEnd (last : Bool) (comment : Option String) : String :=
  (if last then "" else ",") ++
    match comment with
    | some comment => " -- " ++ comment
    | none => ""

theorem columnLine_eq (column : SqlColumn) (last : Bool) :
    (columnLine column last).toList =
      "    ".toList ++
        (column.renderBody.toList ++ (lineEnd last column.trailingComment).toList) := by
  unfold columnLine lineEnd
  cases column.trailingComment with
  | none => simp only [String.toList_append, List.append_assoc]
  | some comment => simp only [String.toList_append, List.append_assoc]

/-- Nothing is left of it. -/
theorem lineRest_lineEnd (last : Bool) (comment : Option String) :
    lineRest (lineEnd last comment).toList = [] := by
  cases comment with
  | none => cases last <;> rfl
  | some comment =>
      cases last with
      | false =>
          have hrest := lineRest_comment ", ".toList (.inr rfl) (' ' :: comment.toList)
          simpa [lineEnd] using hrest
      | true =>
          have hrest := lineRest_comment " ".toList (.inl rfl) (' ' :: comment.toList)
          simpa [lineEnd] using hrest

theorem typeless_suffix (kw : List Char) (hnot : isWord ["NOT"] kw = false)
    (hnull : isWord ["NULL"] kw = false) (hdefault : isWord ["DEFAULT"] kw = false) (hsuffix : isWord suffixKeywords kw = true)
    (hword : words kw = [kw]) (y : List Char) :
    Typeless (' ' :: (kw ++ ' ' :: y)) := by
  intro t _
  rw [words_cons rfl, words_append rfl, hword, List.singleton_append,
    walkTail_suffix hnot hnull hdefault hsuffix]

theorem last_of_eq {d : Char} (h : s.getLast? = some d) (hd : isWhitespace d = false ∧ d ≠ ',') :
    ∀ c ∈ s.getLast?, isWhitespace c = false ∧ c ≠ ',' := by
  intro c hc
  rw [h, Option.mem_some_iff] at hc
  exact hc ▸ hd

theorem behind_nil : Behind [] [] where
  start := .inl ⟨rfl, rfl⟩
  last := by simp
  dashless := by simp
  typeless t _ := by
    have hnil : words ([] ++ []) = [] := rfl
    rw [hnil, walkTail_nil]

theorem Behind.notNull (h : Behind s y) : Behind (" NOT NULL".toList ++ s) y where
  start := .inr ⟨_, rfl⟩
  last c hc := by
    obtain ⟨rfl, -⟩ | ⟨rest, rfl⟩ := h.start
    · exact last_of_eq (d := 'L') rfl (by decide) c hc
    · rw [List.getLast?_append_of_ne_nil _ (List.cons_ne_nil _ _)] at hc
      exact h.last c hc
  dashless hmem := by
    rcases List.mem_append.mp hmem with hmem | hmem
    · exact absurd hmem (by decide)
    · exact h.dashless hmem
  typeless t ht := by
    have hwords : words (" NOT NULL".toList ++ s ++ y) =
        "NOT".toList :: "NULL".toList :: words (s ++ y) := by
      obtain ⟨rfl, rfl⟩ | ⟨rest, rfl⟩ := h.start
      · rfl
      · have htext : " NOT NULL".toList ++ ' ' :: rest ++ y =
            ' ' :: ("NOT".toList ++ ' ' :: ("NULL".toList ++ ' ' :: (rest ++ y))) := by simp
        rw [htext, words_cons rfl, words_append rfl, words_append rfl, List.cons_append,
          words_cons rfl]
        rfl
    rw [hwords, walkTail_notNull]
    exact h.typeless _ ht

theorem behind_generated (y : List Char) : Behind " GENERATED ALWAYS AS (".toList y where
  start := .inr ⟨_, rfl⟩
  last := last_of_eq (d := '(') rfl (by decide)
  dashless := by decide
  typeless := typeless_suffix "GENERATED".toList (by decide) (by decide) (by decide)
    (by decide) rfl _

theorem behind_check (y : List Char) : Behind " CHECK (".toList y where
  start := .inr ⟨_, rfl⟩
  last := last_of_eq (d := '(') rfl (by decide)
  dashless := by decide
  typeless := typeless_suffix "CHECK".toList (by decide) (by decide) (by decide)
    (by decide) rfl _

theorem behind_primary : Behind " PRIMARY KEY".toList [] where
  start := .inr ⟨_, rfl⟩
  last := last_of_eq (d := 'Y') rfl (by decide)
  dashless := by decide
  typeless := typeless_suffix "PRIMARY".toList (by decide) (by decide) (by decide)
    (by decide) rfl _

theorem behind_now : Behind " DEFAULT NOW()".toList [] where
  start := .inr ⟨_, rfl⟩
  last := last_of_eq (d := ')') rfl (by decide)
  dashless := by decide
  typeless t _ := by
    have hwords : words (" DEFAULT NOW()".toList ++ []) = ["DEFAULT".toList, "NOW()".toList] := by
      rfl
    rw [hwords, walkTail_now]

end Behind

/-! ### The lines of a table -/

/-- The name and the type that a line declares. -/
def SqlColumn.signature : SqlColumn → Option (String × String)
  | .typed name type _ _ _ => some (name, type)
  | .raw name rest | .quoted name rest =>
      some (name, String.ofList (rest.toList.takeWhile (· ≠ ' ')))
  | .reference name _ => some (name, "BIGINT")
  | .unique _ _ | .primaryKey _ | .foreignKey _ _ => none

/-- The line is read as what it declares. -/
def SqlColumn.Readable (column : SqlColumn) : Prop :=
  ∀ last, Reads (columnLine column last).toList column.signature

section Table

variable {column : SqlColumn} {name type : String} {ws : List (List Char)}
  {text s p more : List Char}

/-- A column with nothing but fixed text behind its type. -/
theorem readable_of_closed (hn : NameText text name) (hne : name ≠ "") (ht : TypeText type ws)
    (hs : Behind s []) (hbody : column.renderBody.toList = text ++ ' ' :: (type.toList ++ s))
    (hsig : column.signature = some (name, type)) : column.Readable := by
  intro last
  have hend : Behind s (lineRest (lineEnd last column.trailingComment).toList) := by
    rwa [lineRest_lineEnd]
  have hreads := reads_column hn hne ht hend
  rwa [columnLine_eq, hbody, hsig]

/-- A column with other text behind the fixed one. -/
theorem readable_of_open (more : List Char) (hn : NameText text name) (hne : name ≠ "")
    (ht : TypeText type ws) (hs : ∀ y, Behind s y)
    (hbody : column.renderBody.toList = text ++ ' ' :: (type.toList ++ s) ++ more)
    (hsig : column.signature = some (name, type)) : column.Readable := by
  intro last
  have hreads := reads_column hn hne ht
    (hs (lineRest (more ++ (lineEnd last column.trailingComment).toList)))
  rw [columnLine_eq, hbody, hsig]
  rwa [← List.append_assoc _ more] at hreads

theorem readable_of_constraint (more : List Char) (hp : Solid p)
    (hkeyword : ∃ keyword ∈ constraintPrefixes, keyword.toList <+: upperCase p)
    (hbody : column.renderBody.toList = p ++ more) (hsig : column.signature = none) :
    column.Readable := by
  intro last
  have hreads := reads_of_solid hp (more ++ (lineEnd last column.trailingComment).toList)
  obtain ⟨keyword, hmem, hprefix⟩ := hkeyword
  have hconstraint (y : List Char) : isTableLevelConstraint (p ++ y) = true := by
    refine List.any_eq_true.mpr ⟨keyword, hmem, List.isPrefixOf_iff_prefix.mpr ?_⟩
    rw [upperCase, List.map_append]
    exact hprefix.trans (List.prefix_append _ _)
  rw [parseBody, hconstraint, Bool.or_true, if_pos rfl] at hreads
  rwa [columnLine_eq, hbody, hsig, List.append_assoc p]

theorem ne_empty_of_plain (h : isPlainSqlIdent name = true) : name ≠ "" := by
  rintro rfl
  revert h
  decide

theorem readable_typed (hname : isPlainSqlIdent name = true) (ht : TypeText type ws)
    (required : Bool) (generatedAs comment : Option String) :
    (SqlColumn.typed name type required generatedAs comment).Readable := by
  have hn := nameText_sqlIdent name hname
  have hne := ne_empty_of_plain hname
  cases generatedAs with
  | none =>
      cases required with
      | false =>
          refine readable_of_closed hn hne ht behind_nil ?_ rfl
          unfold SqlColumn.renderBody
          simp
      | true =>
          refine readable_of_closed hn hne ht behind_nil.notNull ?_ rfl
          unfold SqlColumn.renderBody
          simp
  | some expr =>
      cases required with
      | false =>
          refine readable_of_open (expr.toList ++ ") STORED".toList) hn hne ht
            behind_generated ?_ rfl
          unfold SqlColumn.renderBody
          simp
      | true =>
          refine readable_of_open (expr.toList ++ ") STORED".toList) hn hne ht
            (fun y => (behind_generated y).notNull) ?_ rfl
          unfold SqlColumn.renderBody
          simp

theorem readable_id : implicitId.Readable := by
  obtain ⟨ws, hws⟩ := typeText_of_isTypeText "BIGSERIAL" (by decide +kernel)
  exact readable_of_closed (nameText_sqlIdent "id" (by decide)) (by decide) hws
    behind_primary (by decide) rfl

theorem readable_timestamps : ∀ column ∈ timestampColumns, column.Readable := by
  obtain ⟨ws, hws⟩ := typeText_base "TIMESTAMPTZ" (by decide)
  intro column hmem
  simp only [timestampColumns, List.mem_cons, List.not_mem_nil, or_false] at hmem
  rcases hmem with rfl | rfl
  · exact readable_of_closed (nameText_sqlIdent "created_at" (by decide)) (by decide)
      hws behind_now.notNull (by decide) rfl
  · exact readable_of_closed (nameText_sqlIdent "updated_at" (by decide)) (by decide)
      hws behind_now.notNull (by decide) rfl

theorem readable_polymorphic {resource : Resource}
    (hplain : ∀ pref ∈ resource.polymorphicRefs,
      isPlainSqlIdent pref.typeField = true ∧ isPlainSqlIdent pref.idField = true) :
    ∀ column ∈ polymorphicRefColumns resource, column.Readable := by
  obtain ⟨_, htext⟩ := typeText_base "TEXT" (by decide)
  obtain ⟨_, hbigint⟩ := typeText_base "BIGINT" (by decide)
  intro column hmem
  obtain ⟨pref, hpref, hmem⟩ := List.mem_flatMap.mp hmem
  obtain ⟨htype, hid⟩ := hplain pref hpref
  simp only [List.mem_cons, List.not_mem_nil, or_false] at hmem
  rcases hmem with rfl | rfl
  · refine readable_of_open ((sqlIdent pref.typeField ++ " IN (" ++
      ", ".intercalate (pref.targets.map quoteText) ++ "))").toList) (nameText_sqlIdent _ htype)
      (ne_empty_of_plain htype) htext (fun y => (behind_check y).notNull) ?_ ?_
    · unfold SqlColumn.renderBody
      simp
    · simp [SqlColumn.signature]
  · refine readable_of_closed (nameText_sqlIdent _ hid) (ne_empty_of_plain hid) hbigint
      behind_nil.notNull ?_ rfl
    unfold SqlColumn.renderBody
    simp

/-- The texts in front of the columns of a constraint. -/
def constraintTexts : List String := ["UNIQUE (", "PRIMARY KEY (", "FOREIGN KEY ("]

theorem solid_constraintText {front : String} (h : front ∈ constraintTexts) :
    Solid front.toList := by
  simp only [constraintTexts, List.mem_cons, List.not_mem_nil, or_false] at h
  rcases h with rfl | rfl | rfl
  · exact ⟨⟨_, _, rfl, rfl, by decide⟩, last_of_eq (d := '(') rfl (by decide), by decide⟩
  · exact ⟨⟨_, _, rfl, rfl, by decide⟩, last_of_eq (d := '(') rfl (by decide), by decide⟩
  · exact ⟨⟨_, _, rfl, rfl, by decide⟩, last_of_eq (d := '(') rfl (by decide), by decide⟩

theorem readable_of_constraintText (front : String) (more : List Char) (h : front ∈ constraintTexts)
    (hbody : column.renderBody.toList = front.toList ++ more) (hsig : column.signature = none) :
    column.Readable := by
  refine readable_of_constraint more (solid_constraintText h) ?_ hbody hsig
  simp only [constraintTexts, List.mem_cons, List.not_mem_nil, or_false] at h
  rcases h with rfl | rfl | rfl
  · exact ⟨"UNIQUE ", by decide, by decide⟩
  · exact ⟨"PRIMARY KEY ", by decide, by decide⟩
  · exact ⟨"FOREIGN KEY ", by decide, by decide⟩

/-- The first character of a name that is written. -/
theorem head_sqlIdent (name : String) :
    ∃ c rest, (sqlIdent name).toList = c :: rest ∧ (c = '"' ∨ isPlainChar c = true) := by
  rw [sqlIdent]
  split
  next h =>
    rw [Bool.and_eq_true, isPlainSqlIdent, Bool.and_eq_true, List.all_eq_true] at h
    obtain ⟨⟨hstart, hplain⟩, -⟩ := h
    cases hname : name.toList with
    | nil =>
        rw [hname] at hstart
        cases hstart
    | cons c rest => exact ⟨c, rest, rfl, .inr (hplain c (hname ▸ List.mem_cons_self))⟩
  next =>
    have htext : (quoteIdent name).toList = '"' :: (name.toList.flatMap doubleQuotes ++ ['"']) := by
      simp [quoteIdent]
    exact ⟨'"', _, htext, .inl rfl⟩

theorem readable_unique (constraint : Option String) (columns : List String) :
    (SqlColumn.unique constraint columns).Readable := by
  cases constraint with
  | none =>
      refine readable_of_constraintText "UNIQUE ("
        (", ".intercalate (columns.map sqlIdent) ++ ")").toList (by decide) ?_ rfl
      unfold SqlColumn.renderBody
      simp [columnList]
  | some name =>
      obtain ⟨c, rest, hname, hc⟩ := head_sqlIdent name
      have hsolid : Solid ("CONSTRAINT ".toList ++ [c]) := by
        refine ⟨⟨_, _, rfl, rfl, by decide⟩, last_of_eq (d := c) (by simp) ?_, ?_⟩
        · rcases hc with rfl | hc
          · decide
          · exact ⟨isWhitespace_of_plain hc, ne_of_plain hc (by decide)⟩
        · intro hmem
          have hdash : c = '-' := by simpa [eq_comm] using hmem
          rcases hc with rfl | hc
          · cases hdash
          · exact ne_of_plain hc (by decide) hdash
      refine readable_of_constraint (rest ++ (" UNIQUE " ++ columnList columns).toList) hsolid
        ⟨"CONSTRAINT ", by decide, ?_⟩ ?_ rfl
      · rw [upperCase, List.map_append]
        exact List.prefix_append _ _
      · unfold SqlColumn.renderBody
        simp [hname]

theorem readable_primaryKey (columns : List String) : (SqlColumn.primaryKey columns).Readable := by
  refine readable_of_constraintText "PRIMARY KEY ("
    (", ".intercalate (columns.map sqlIdent) ++ ")").toList (by decide) ?_ rfl
  unfold SqlColumn.renderBody
  simp [columnList]

theorem readable_foreignKey (name table : String) :
    (SqlColumn.foreignKey name table).Readable := by
  refine readable_of_constraintText "FOREIGN KEY ("
    (sqlIdent name ++ ") REFERENCES " ++ quoteIdent table ++ " (id)").toList (by decide) ?_ rfl
  unfold SqlColumn.renderBody
  simp

theorem parseColumns_close (more : List (List Char)) :
    parseColumns (");".toList :: more) = some [] := by
  have htrim : trim ");".toList = ");".toList := rfl
  rw [parseColumns, htrim]
  rfl

theorem Reads.parseColumns_eq {line : List Char} {rest : List (List Char)} {columns : List Column}
    {signature : Option (String × String)} (h : Reads line signature)
    (hrest : parseColumns rest = some columns) :
    ∃ cs, parseColumns (line :: rest) = some cs ∧
      cs.map Column.signature = signature.toList ++ columns.map Column.signature := by
  obtain ⟨c, rfl, hline⟩ := h
  refine ⟨c.toList ++ columns, by rw [hline, hrest]; rfl, ?_⟩
  cases c <;> rfl

/-- Of the lines of a table those are read that declare a column. -/
theorem parseColumns_table {columns : List SqlColumn} (h : ∀ column ∈ columns, column.Readable)
    (more : List (List Char)) :
    ∃ cs, parseColumns ((columnLines columns).map String.toList ++ ");".toList :: more) = some cs ∧
      cs.map Column.signature = columns.filterMap SqlColumn.signature := by
  induction columns with
  | nil => exact ⟨[], parseColumns_close more, rfl⟩
  | cons column columns ih =>
      obtain ⟨cs, hcs, hsig⟩ := ih fun c hc => h c (List.mem_cons_of_mem _ hc)
      have hlines : ∃ last, columnLines (column :: columns) =
          columnLine column last :: columnLines columns := by
        cases columns with
        | nil => exact ⟨true, rfl⟩
        | cons _ _ => exact ⟨false, rfl⟩
      obtain ⟨last, hlines⟩ := hlines
      obtain ⟨cs', hcs', hsig'⟩ := (h column List.mem_cons_self last).parseColumns_eq hcs
      refine ⟨cs', by rw [hlines]; exact hcs', ?_⟩
      rw [hsig', hsig, List.filterMap_cons]
      cases column.signature <;> rfl

end Table

end Lazuli.Migration
