import Mathlib
import Lazuli.General.CamelCase
import Lazuli.Migration.SchemaDiff

/-!
The text of a column.

The parser takes a line apart from both ends: white space, a comment, a comma. What the printer
put in front of them is `Solid` enough to stay. A name is read whether it is quoted or not, and
the words of a type end where the next keyword stands.
-/

namespace Lazuli.Migration

open Ir
open General.Text (isWhitespace trim rdropWhile_append)
open General.Lines

/-! ### Lines -/

/-- The front of a line that the parser leaves as it is. -/
structure Solid (p : List Char) : Prop where
  head : ∃ c rest, p = c :: rest ∧ isWhitespace c = false ∧ c ≠ ')'
  last : ∀ c ∈ p.getLast?, isWhitespace c = false ∧ c ≠ ','
  dashless : '-' ∉ p

/-- What is left of the rest of a line. -/
def lineRest (x : List Char) : List Char :=
  (stripComma (withoutComment (x.rdropWhile isWhitespace))).rdropWhile isWhitespace

section Lines

variable {p x : List Char}

theorem Solid.ne_nil (h : Solid p) : p ≠ [] := by
  obtain ⟨c, rest, rfl, -⟩ := h.head
  exact List.cons_ne_nil _ _

theorem Solid.rdrop (h : Solid p) (x : List Char) :
    (p ++ x).rdropWhile isWhitespace = p ++ x.rdropWhile isWhitespace :=
  rdropWhile_append (fun c hc => (h.last c hc).1) x

theorem Solid.trim_append (h : Solid p) (x : List Char) :
    trim (p ++ x) = p ++ x.rdropWhile isWhitespace := by
  obtain ⟨c, rest, hp, hc, -⟩ := h.head
  have hdrop : (p ++ x).dropWhile isWhitespace = p ++ x := by
    rw [hp, List.cons_append, List.dropWhile_cons_of_neg (by simp [hc])]
  rw [trim, hdrop, h.rdrop]

theorem Solid.withoutComment_append (h : Solid p) (x : List Char) :
    withoutComment (p ++ x) = p ++ withoutComment x := by
  rw [withoutComment, before_append h.dashless, withoutComment]
  cases before '-' x with
  | none => rfl
  | some text => exact h.rdrop text

theorem Solid.stripComma_append (h : Solid p) (x : List Char) :
    stripComma (p ++ x) = p ++ stripComma x := by
  cases hx : x with
  | nil =>
      have hlast : p.getLast? ≠ some ',' := fun hc => (h.last _ hc).2 rfl
      rw [List.append_nil, stripComma, if_neg hlast]
      simp [stripComma]
  | cons c rest =>
      have hne : c :: rest ≠ [] := List.cons_ne_nil _ _
      rw [stripComma, stripComma, List.getLast?_append_of_ne_nil _ hne]
      split
      · rw [List.dropLast_append_of_ne_nil hne]
      · rfl

theorem Solid.lineBody_eq (h : Solid p) (x : List Char) :
    lineBody (p ++ x.rdropWhile isWhitespace) = p ++ lineRest x := by
  rw [lineBody, h.withoutComment_append, h.stripComma_append, h.trim_append, lineRest]

theorem Solid.trim_indented (h : Solid p) (x : List Char) :
    trim ("    ".toList ++ (p ++ x)) = p ++ x.rdropWhile isWhitespace := by
  obtain ⟨c, rest, hp, hc, -⟩ := h.head
  have hdrop : ("    ".toList ++ (p ++ x)).dropWhile isWhitespace = p ++ x := by
    have hspace : isWhitespace ' ' = true := rfl
    rw [hp]
    simp [hspace, hc]
  rw [trim, hdrop, h.rdrop]

end Lines

/-! ### Names -/

section Names

variable {c : Char} {s text : List Char} {name : String}

theorem isWhitespace_of_plain (h : isPlainChar c = true) : isWhitespace c = false := by
  simp only [isPlainChar, isPlainStart, Char.isLower, Bool.or_eq_true, Bool.and_eq_true,
    decide_eq_true_eq, UInt32.le_iff_toNat_le] at h
  rcases h with (rfl | hlower) | hdigit
  · rfl
  · have hval : 97 ≤ c.val.toNat ∧ c.val.toNat ≤ 122 := hlower
    exact General.Text.isWhitespace_of_visible (by omega)
  · exact General.Text.isWhitespace_of_isDigit hdigit

theorem toLower_of_plain (h : isPlainChar c = true) : c.toLower = c := by
  apply Char.toLower_eq_of_not_isUpper
  simp only [isPlainChar, isPlainStart, Bool.or_eq_true, decide_eq_true_eq] at h
  rcases h with (rfl | h) | h
  · decide
  · exact Char.not_isUpper_of_isLower h
  · simp only [Char.isDigit, Char.isUpper, Bool.and_eq_true, decide_eq_true_eq] at *
    grind

theorem notMem_upperCase {d : Char} (hd : d.isUpper = false) (h : d ∉ s) : d ∉ upperCase s := by
  intro hmem
  obtain ⟨c, hc, same⟩ := List.mem_map.mp hmem
  exact h (General.CamelCase.eq_of_toUpper_eq hd same ▸ hc)

/-- How a name is written in front of a column. -/
structure NameText (text : List Char) (name : String) : Prop where
  head : ∃ c rest, text = c :: rest ∧ c ≠ ')'
  blank : ∀ a ∈ text, isWhitespace a = false
  dashless : '-' ∉ text
  unopened : '(' ∉ text
  strip : stripIdentQuotes text = name.toList
  word : String.ofList (upperCase text) ∉ ["PRIMARY", "UNIQUE", "FOREIGN", "CHECK", "CONSTRAINT"]

theorem ne_of_plain {d : Char} (h : isPlainChar c = true) (hd : isPlainChar d = false) : c ≠ d := by
  rintro rfl
  rw [h] at hd
  cases hd

theorem flatMap_doubleQuotes (h : '"' ∉ s) : s.flatMap doubleQuotes = s := by
  induction s with
  | nil => rfl
  | cons c s ih =>
      obtain ⟨hc, hs⟩ := not_or.mp (mt List.mem_cons.mpr h)
      rw [List.flatMap_cons, ih hs, doubleQuotes, if_neg (Ne.symm hc)]
      rfl

theorem dropWhile_quotes (h : '"' ∉ s) : s.dropWhile (· = '"') = s := by
  cases s with
  | nil => rfl
  | cons c s =>
      have hc : c ≠ '"' := fun same => h (same ▸ List.mem_cons_self)
      rw [List.dropWhile_cons_of_neg (by simp [hc])]

theorem rdropWhile_quotes (h : '"' ∉ s) : s.rdropWhile (· = '"') = s := by
  rw [List.rdropWhile_eq_self_iff]
  intro hne
  have hlast : s.getLast hne ≠ '"' := fun same => h (same ▸ List.getLast_mem hne)
  simp [hlast]

/-- A name that is a word in front of a constraint is a reserved one. -/
theorem reserved_of_word (h : ∀ a ∈ name.toList, isPlainChar a = true)
    (hword : String.ofList (upperCase name.toList) ∈
      ["PRIMARY", "UNIQUE", "FOREIGN", "CHECK", "CONSTRAINT"]) :
    isSqlReservedWord name = true := by
  have hlower : (upperCase name.toList).map Char.toLower = name.toList := by
    rw [upperCase, List.map_map]
    refine List.map_congr_left (fun a ha => ?_) |>.trans (List.map_id _)
    rw [Function.comp_apply, Char.toLower_toUpper_eq_toLower, toLower_of_plain (h a ha), id]
  have hname (upper lower : String) (same : String.ofList (upperCase name.toList) = upper)
      (hmap : String.ofList (upper.toList.map Char.toLower) = lower) : name = lower := by
    rw [← hmap, ← same, String.toList_ofList, hlower, String.ofList_toList]
  simp only [List.mem_cons, List.not_mem_nil, or_false] at hword
  rcases hword with same | same | same | same | same
  · rw [hname _ "primary" same (by decide)]
    decide
  · rw [hname _ "unique" same (by decide)]
    decide
  · rw [hname _ "foreign" same (by decide)]
    decide
  · rw [hname _ "check" same (by decide)]
    decide
  · rw [hname _ "constraint" same (by decide)]
    decide

theorem nameText_sqlIdent (name : String) (h : isPlainSqlIdent name = true) :
    NameText (sqlIdent name).toList name := by
  have hboth := h
  rw [isPlainSqlIdent, Bool.and_eq_true, List.all_eq_true] at hboth
  obtain ⟨hstart, hplain⟩ := hboth
  have hne : name.toList ≠ [] := by
    intro hnil
    rw [hnil] at hstart
    cases hstart
  have hnot {d : Char} (hd : isPlainChar d = false) : d ∉ name.toList :=
    fun hmem => ne_of_plain (hplain d hmem) hd rfl
  have hquote : '"' ∉ name.toList := hnot (by decide)
  rw [sqlIdent, h, Bool.true_and]
  cases hreserved : isSqlReservedWord name with
  | false =>
      obtain ⟨c, rest, hname⟩ := List.exists_cons_of_ne_nil hne
      exact {
        head := ⟨c, rest, hname, ne_of_plain (hplain c (hname ▸ List.mem_cons_self)) (by decide)⟩
        blank := fun a ha => isWhitespace_of_plain (hplain a ha)
        dashless := hnot (by decide)
        unopened := hnot (by decide)
        strip := by
          rw [stripIdentQuotes, if_pos (by simp), dropWhile_quotes hquote, rdropWhile_quotes hquote]
        word := fun hword => by
          rw [if_pos (by simp)] at hword
          rw [reserved_of_word hplain hword] at hreserved
          cases hreserved }
  | true =>
      have htext : (quoteIdent name).toList = '"' :: (name.toList ++ ['"']) := by
        simp [quoteIdent, flatMap_doubleQuotes hquote]
      simp only [Bool.not_true, Bool.false_eq_true, if_false]
      rw [htext]
      have hcases {d : Char} (hd : d ∈ '"' :: (name.toList ++ ['"'])) :
          d = '"' ∨ isPlainChar d = true := by
        simp only [List.mem_cons, List.mem_append, List.not_mem_nil, or_false] at hd
        rcases hd with hd | hd | hd
        · exact .inl hd
        · exact .inr (hplain d hd)
        · exact .inl hd
      exact {
        head := ⟨_, _, rfl, by decide⟩
        blank := fun a ha => by
          rcases hcases ha with rfl | ha
          · rfl
          · exact isWhitespace_of_plain ha
        dashless := fun hmem => by
          rcases hcases hmem with h | h <;> cases h
        unopened := fun hmem => by
          rcases hcases hmem with h | h <;> cases h
        strip := by
          have hfront : ('"' :: (name.toList ++ ['"'])).dropWhile (· = '"') =
              name.toList ++ ['"'] := by
            obtain ⟨c, rest, hname⟩ := List.exists_cons_of_ne_nil hne
            have hc : c ≠ '"' := fun same => hquote (hname ▸ same ▸ List.mem_cons_self)
            rw [hname]
            simp [hc]
          rw [stripIdentQuotes, hfront, List.rdropWhile_concat_pos _ _ _ (by simp),
            rdropWhile_quotes hquote]
        word := fun hword => by
          have hhead : ∀ w ∈ ["PRIMARY", "UNIQUE", "FOREIGN", "CHECK", "CONSTRAINT"],
              w.toList.head? ≠ some '"' := by decide
          refine hhead _ hword ?_
          rw [String.toList_ofList]
          rfl }

/-- The first word of the front of a constraint line. -/
theorem takeWhile_of_constraint {body : List Char} (h : isTableLevelConstraint body = true) :
    String.ofList ((upperCase body).takeWhile fun a => a ≠ ' ' && a ≠ '(') ∈
      ["PRIMARY", "UNIQUE", "FOREIGN", "CHECK", "CONSTRAINT"] := by
  obtain ⟨keyword, hmem, hprefix⟩ := List.any_eq_true.mp h
  obtain ⟨more, hmore⟩ := List.isPrefixOf_iff_prefix.mp hprefix
  rw [← hmore]
  simp only [constraintPrefixes, List.mem_cons, List.not_mem_nil, or_false] at hmem
  rcases hmem with rfl | rfl | rfl | rfl | rfl | rfl | rfl | rfl | rfl <;> simp

theorem NameText.no_constraint (h : NameText text name) (rest : List Char) :
    isTableLevelConstraint (text ++ ' ' :: rest) = false := by
  rw [Bool.eq_false_iff]
  intro hconstraint
  have hword := takeWhile_of_constraint hconstraint
  have hblank : ' ' ∉ text := fun hmem => by
    have := h.blank _ hmem
    cases this
  have hupper : ∀ a ∈ upperCase text, (a ≠ ' ' && a ≠ '(') = true := by
    intro a ha
    have hspace : a ≠ ' ' := fun same => notMem_upperCase rfl hblank (same ▸ ha)
    have hopen : a ≠ '(' := fun same => notMem_upperCase rfl h.unopened (same ▸ ha)
    simp [hspace, hopen]
  have hsplit : upperCase (text ++ ' ' :: rest) = upperCase text ++ ' ' :: upperCase rest := by
    simp [upperCase]
  rw [hsplit, List.takeWhile_append_of_pos hupper] at hword
  exact h.word (by simpa using hword)

theorem NameText.ne_nil (h : NameText text name) : text ≠ [] := by
  obtain ⟨c, rest, rfl, -⟩ := h.head
  exact List.cons_ne_nil _ _

/-- A line that begins with a name is a column if the words behind it begin with a type. -/
theorem NameText.parseBody_eq (h : NameText text name) (hne : name ≠ "") (rest : List Char)
    (htype : (walkTail {} (words rest)).sqlTypeParts ≠ []) :
    parseBody (text ++ ' ' :: rest) =
      some ⟨name, joinWords (walkTail {} (words rest)).sqlTypeParts,
        (walkTail {} (words rest)).nullable, (walkTail {} (words rest)).default⟩ := by
  have hbody : (text ++ ' ' :: rest).isEmpty = false := by simp
  have hname : name.toList.isEmpty = false := by simpa using hne
  have hparts : (walkTail {} (words rest)).sqlTypeParts.isEmpty = false := by simpa using htype
  rw [parseBody, hbody, h.no_constraint, Bool.or_self, if_neg Bool.false_ne_true, parseColumnLine,
    words_append rfl, words_of_forall h.ne_nil h.blank]
  simp only [List.cons_append, List.nil_append, h.strip, hname, hparts, Bool.or_self,
    Bool.false_eq_true, if_false, String.ofList_toList]

end Names

/-! ### Types -/

/-- A word of a type. -/
structure TypeWord (w : List Char) : Prop where
  ne_nil : w ≠ []
  blank : ∀ a ∈ w, isWhitespace a = false
  keyword : isWord (["NOT", "NULL", "DEFAULT"] ++ suffixKeywords) w = false

section Types

variable {t : ColumnTail} {w tok : List Char} {ws rest : List (List Char)}

theorem isWord_append (l l' : List String) (w : List Char) :
    isWord (l ++ l') w = (isWord l w || isWord l' w) := by
  simp [isWord]

theorem walkTail_type (hw : TypeWord w) (hd : t.default = none) :
    walkTail t (w :: rest) = walkTail { t with sqlTypeParts := t.sqlTypeParts ++ [w] } rest := by
  have hkey := hw.keyword
  rw [show ["NOT", "NULL", "DEFAULT"] ++ suffixKeywords =
    ["NOT"] ++ (["NULL"] ++ (["DEFAULT"] ++ suffixKeywords)) from rfl, isWord_append, isWord_append,
    isWord_append] at hkey
  simp only [Bool.or_eq_false_iff] at hkey
  obtain ⟨hnot, hnull, hdefault, hsuffix⟩ := hkey
  rw [walkTail.eq_def]
  simp [hnot, hnull, hdefault, hsuffix, hd]

theorem walkTail_types (hws : ∀ w ∈ ws, TypeWord w) (hd : t.default = none) :
    walkTail t (ws ++ rest) = walkTail { t with sqlTypeParts := t.sqlTypeParts ++ ws } rest := by
  induction ws generalizing t with
  | nil => simp
  | cons w ws ih =>
      rw [List.cons_append, walkTail_type (hws w List.mem_cons_self) hd,
        ih (t := { t with sqlTypeParts := t.sqlTypeParts ++ [w] })
          (fun v hv => hws v (List.mem_cons_of_mem _ hv)) hd]
      simp

theorem walkTail_nil : walkTail t [] = t := by
  rw [walkTail]

theorem walkTail_notNull : walkTail t ("NOT".toList :: "NULL".toList :: rest) =
    walkTail { t with nullable := false } rest := by
  have hnot : isWord ["NOT"] "NOT".toList = true := by decide
  have hnull : isWord ["NULL"] "NULL".toList = true := by decide
  rw [walkTail.eq_def]
  simp only [hnot, hnull, if_true]

theorem walkTail_suffix (hnot : isWord ["NOT"] tok = false) (hnull : isWord ["NULL"] tok = false)
    (hdefault : isWord ["DEFAULT"] tok = false) (hsuffix : isWord suffixKeywords tok = true) :
    walkTail t (tok :: rest) = t := by
  rw [walkTail.eq_def]
  simp [hnot, hnull, hdefault, hsuffix]

/-- A default of one word. -/
theorem walkTail_default (hnot : isWord ["NOT"] tok = false) (hnull : isWord ["NULL"] tok = false)
    (hdefault : isWord ["DEFAULT"] tok = true) (hw : isWord suffixKeywords w = false) :
    walkTail t [tok, w] = { t with default := some (String.ofList w) } := by
  rw [walkTail.eq_def]
  simp [hnot, hnull, hdefault, hw, walkTail_nil, joinWords]

theorem walkTail_now :
    walkTail t ["DEFAULT".toList, "NOW()".toList] = { t with default := some "NOW()" } :=
  walkTail_default (by decide) (by decide) (by decide) (by decide)

end Types

/-- A type as it is written, and its words. -/
structure TypeText (type : String) (ws : List (List Char)) : Prop where
  ne_nil : ws ≠ []
  joined : type.toList = [' '].intercalate ws
  plain : ∀ w ∈ ws, TypeWord w
  chars : ∀ c ∈ type.toList, c ≠ '-' ∧ c ≠ '\n' ∧ c ≠ '\r'
  last : ∀ c ∈ type.toList.getLast?, isWhitespace c = false ∧ c ≠ ','

section TypeTexts

variable {type : String} {ws : List (List Char)} {w : List Char}

theorem TypeText.words_eq (h : TypeText type ws) : words type.toList = ws := by
  rw [h.joined, words_intercalate fun w hw => ⟨(h.plain w hw).ne_nil, (h.plain w hw).blank⟩]

theorem TypeText.text_ne_nil (h : TypeText type ws) : type.toList ≠ [] := by
  intro hnil
  have hwords := h.words_eq
  rw [hnil] at hwords
  exact h.ne_nil (hwords.symm.trans rfl)

theorem TypeText.joinWords_eq (h : TypeText type ws) : joinWords ws = type := by
  rw [← String.toList_inj, joinWords, String.toList_intercalate, h.joined]
  simp [List.map_map, Function.comp_def]

theorem TypeWord.bracketed (h : TypeWord w) : TypeWord (w ++ "[]".toList) where
  ne_nil := by simp
  blank a ha := by
    rcases List.mem_append.mp ha with ha | ha
    · exact h.blank a ha
    · rcases List.mem_cons.mp ha with rfl | ha
      · rfl
      · rw [List.mem_singleton.mp ha]
        rfl
  keyword := by
    rw [isWord, decide_eq_false_iff_not]
    intro hmem
    have hkeys : (["NOT", "NULL", "DEFAULT"] ++ suffixKeywords).all
        (fun key => !key.toList.contains '[') = true := by decide +kernel
    have hkey := List.all_eq_true.mp hkeys _ hmem
    rw [String.toList_ofList] at hkey
    simp [upperCase] at hkey

theorem TypeText.bracketed (h : TypeText type ws) : ∃ ws, TypeText (type ++ "[]") ws := by
  have hws := List.dropLast_append_getLast h.ne_nil
  refine ⟨ws.dropLast ++ [ws.getLast h.ne_nil ++ "[]".toList], by simp, ?_, ?_, ?_, ?_⟩
  · rw [intercalate_concat_append, hws, String.toList_append, h.joined]
  · intro w hw
    rcases List.mem_append.mp hw with hw | hw
    · exact h.plain w (List.mem_of_mem_dropLast hw)
    · rw [List.mem_singleton.mp hw]
      exact (h.plain _ (List.getLast_mem h.ne_nil)).bracketed
  · intro c hc
    rw [String.toList_append] at hc
    rcases List.mem_append.mp hc with hc | hc
    · exact h.chars c hc
    · have hbrackets : c = '[' ∨ c = ']' := by simpa using hc
      rcases hbrackets with rfl | rfl <;> decide
  · intro c hc
    have hlast : c = ']' := by simpa [eq_comm] using hc
    rw [hlast]
    decide

/-- The word may stand in a type. -/
def isTypeWord (w : List Char) : Bool :=
  !w.isEmpty && w.all (fun a => !isWhitespace a) &&
    !isWord (["NOT", "NULL", "DEFAULT"] ++ suffixKeywords) w

def isTypeText (type : String) : Bool :=
  let ws := words type.toList
  !ws.isEmpty && ws.all isTypeWord && type.toList = [' '].intercalate ws &&
    type.toList.all (fun c => c ≠ '-' && c ≠ '\n' && c ≠ '\r') &&
      type.toList.getLast?.all fun c => !isWhitespace c && c ≠ ','

theorem typeWord_of_isTypeWord (h : isTypeWord w = true) : TypeWord w := by
  simp only [isTypeWord, Bool.and_eq_true, Bool.not_eq_true', List.all_eq_true,
    List.isEmpty_eq_false_iff] at h
  exact ⟨h.1.1, h.1.2, h.2⟩

theorem typeText_of_isTypeText (type : String) (h : isTypeText type = true) :
    ∃ ws, TypeText type ws := by
  simp only [isTypeText, Bool.and_eq_true, Bool.not_eq_true', List.all_eq_true,
    decide_eq_true_eq, List.isEmpty_eq_false_iff, Option.all_eq_true] at h
  obtain ⟨⟨⟨⟨hne, hall⟩, hjoined⟩, hchars⟩, hlast⟩ := h
  exact ⟨_, hne, hjoined, fun w hw => typeWord_of_isTypeWord (hall w hw),
    fun c hc => ⟨(hchars c hc).1.1, (hchars c hc).1.2, (hchars c hc).2⟩, hlast⟩

/-- The types of columns, but for arrays. -/
def baseTypes : List String :=
  ["TEXT", "BIGINT", "BOOLEAN", "NUMERIC(20, 6)", "DATE", "TIMESTAMPTZ", "JSONB", "NUMERIC(20,4)",
    "geography(point, 4326)", "BYTEA"]

theorem typeText_base (type : String) (h : type ∈ baseTypes) : ∃ ws, TypeText type ws := by
  have hall : baseTypes.all isTypeText = true := by decide +kernel
  exact typeText_of_isTypeText type (List.all_eq_true.mp hall type h)

theorem typeText_pgTypeFor (typeRef : TypeRef) : ∃ ws, TypeText (pgTypeFor typeRef) ws := by
  have htext : ∃ ws, TypeText "TEXT" ws := typeText_base _ (by decide)
  induction typeRef with
  | builtin type => cases type <;> exact typeText_base _ (by simp [pgTypeFor, pgTypeForBuiltin,
      baseTypes])
  | capability cap => cases cap <;> exact typeText_base _ (by decide)
  | many inner ih =>
      obtain ⟨ws, hws⟩ := ih
      exact hws.bracketed
  | userDefined _ | enumRef _ | unresolved _ => exact htext

theorem typeText_pgTypeForEnum (m : Module) (name : String) :
    ∃ ws, TypeText (pgTypeForEnum m name) ws := by
  rw [pgTypeForEnum]
  split
  · split
    · exact typeText_base _ (by decide)
    · exact typeText_base _ (by decide)
  · exact typeText_base _ (by decide)

theorem typeText_pgTypeForField (m : Module) (field : Field) :
    ∃ ws, TypeText (pgTypeForField m field) ws := by
  rw [pgTypeForField]
  split
  · split
    · exact typeText_base _ (by decide)
    · split
      · exact typeText_base _ (by decide)
      · exact typeText_pgTypeForEnum m _
  · exact typeText_pgTypeForEnum m _
  · split
    · exact typeText_base _ (by decide)
    · exact (typeText_base "TEXT" (by decide)).elim fun _ h => h.bracketed
  · exact typeText_pgTypeFor _

end TypeTexts

end Lazuli.Migration
