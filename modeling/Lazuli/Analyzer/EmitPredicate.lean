import Lazuli.Codegen.GuardText
import Lazuli.General.Find
import Lazuli.General.Lines

/-!
The conditions of the events that a webhook emits (`crates/lazuli_analyzer/src/workflow.rs`).

`emits <event> when <condition>` is lifted where the condition compares a path with a string
(`EqText`) or looks it up in a list of strings (`InText`); any other text is kept. `lowerEmit`
splits at the first operator and at every comma, whatever is in quotes: `emit_exact_iff` says which
texts it lifts as they are meant.
-/

namespace Lazuli.Analyzer.EmitPredicate

open General.Text General.Find
open Codegen (isPathChar)

/-! ### The lift -/

inductive EmitPredicateKind where
  | equals (path literal : List Char)
  | isIn (path : List Char) (literals : List (List Char))
  | other (raw : List Char)
  deriving DecidableEq

/-- What is in quotes of one kind. A single quote is not in quotes. -/
def stripQuotes (raw : List Char) : Option (List Char) :=
  match trim raw with
  | [] => none
  | q :: rest =>
      if (q = '"' ∨ q = '\'') ∧ rest.getLast? = some q then some rest.dropLast else none

/-- The text in front of the first `==` and behind it. -/
def splitEq : List Char → Option (List Char × List Char)
  | '=' :: '=' :: rest => some ([], rest)
  | c :: cs => (splitEq cs).map fun (lhs, rhs) => (c :: lhs, rhs)
  | [] => none

def isAsciiWhitespace (c : Char) : Bool := c ∈ [' ', '\t', '\n', '\x0c', '\r']

/-- Nothing is here, or a blank. -/
def Bounded : Option Char → Bool
  | none => true
  | some c => isAsciiWhitespace c

/-- `find_word` for the word `in`: the text in front of it, backwards, and the text behind it. -/
def findIn (before : List Char) : List Char → Option (List Char × List Char)
  | 'i' :: 'n' :: after =>
      if Bounded before.head? && Bounded after.head? then some (before.reverse, after)
      else findIn ('n' :: 'i' :: before) after
  | c :: cs => findIn (c :: before) cs
  | [] => none

def equalsKind (text : List Char) : Option EmitPredicateKind := do
  let (lhs, rhs) ← splitEq text
  let literal ← stripQuotes rhs
  if trim lhs ≠ [] ∧ ' ' ∉ trim lhs then some (.equals (trim lhs) literal) else none

/-- What is in parentheses. -/
def unwrap : List Char → Option (List Char)
  | '(' :: rest => if rest.getLast? = some ')' then some rest.dropLast else none
  | _ => none

/-- The strings between the commas. Pieces that are not in quotes are dropped. -/
def members (inner : List Char) : List (List Char) := (inner.splitOn ',').filterMap stripQuotes

def inKind (text : List Char) : Option EmitPredicateKind := do
  let (path, rhs) ← findIn [] text
  let inner ← unwrap (trim rhs)
  if trim path ≠ [] ∧ ' ' ∉ trim path ∧ members inner ≠ [] then
    some (.isIn (trim path) (members inner))
  else none

def lowerEmit (raw : List Char) : EmitPredicateKind :=
  ((equalsKind (trim raw)).or (inKind (trim raw))).getD (.other (trim raw))

/-! ### The grammar -/

/-- A path is made of identifier characters and dots. `in` is a keyword. -/
def IsPath (path : List Char) : Prop :=
  path ≠ [] ∧ path ≠ "in".toList ∧ ∀ c ∈ path, isPathChar c = true

/-- A string in quotes of one kind, with none of them in it. -/
def Quoted (text literal : List Char) : Prop :=
  ∃ q, (q = '"' ∨ q = '\'') ∧ q ∉ literal ∧ text = q :: (literal ++ [q])

def Blank (w : List Char) : Prop := ∀ c ∈ w, isWhitespace c = true

/-- `<path> == <string>`, with or without blanks around the operator. -/
def EqText (text path literal : List Char) : Prop :=
  IsPath path ∧ ∃ w w' quoted, Blank w ∧ Blank w' ∧ Quoted quoted literal ∧
    text = path ++ (w ++ ('=' :: '=' :: (w' ++ quoted)))

/-- Strings with commas between them, possibly with blanks around each. -/
def Listed (inner : List Char) (literals : List (List Char)) : Prop :=
  ∃ items : List (List Char × List Char), items ≠ [] ∧
    (∀ item ∈ items, Quoted (trim item.1) item.2) ∧
    inner = [','].intercalate (items.map Prod.fst) ∧ literals = items.map Prod.snd

/-- `<path> in (<string>, ...)`, with blanks on both sides of the keyword. -/
def InText (text path : List Char) (literals : List (List Char)) : Prop :=
  IsPath path ∧ ∃ w c d w' inner, Blank w ∧ Blank w' ∧ isAsciiWhitespace c = true ∧
    isAsciiWhitespace d = true ∧ Listed inner literals ∧
    text = path ++ (w ++ (c :: 'i' :: 'n' :: d :: (w' ++ ('(' :: (inner ++ [')'])))))

/-- The condition is lifted as what it says, and kept where it is neither. -/
structure Exact (raw : List Char) : Prop where
  equals : ∀ path literal, lowerEmit raw = .equals path literal ↔ EqText (trim raw) path literal
  isIn : ∀ path literals, lowerEmit raw = .isIn path literals ↔ InText (trim raw) path literals
  other : ∀ text, lowerEmit raw = .other text ↔ text = trim raw ∧
    (∀ path literal, ¬ EqText (trim raw) path literal) ∧
    ∀ path literals, ¬ InText (trim raw) path literals

/-! ### Blanks and quotes -/

section Blanks

variable {c : Char} {s w path literal : List Char}

theorem trim_blank_append (h : Blank w) (s : List Char) : trim (w ++ s) = trim s := by
  rw [trim, trim, List.dropWhile_append_of_pos h]

/-- Blanks behind a text that neither begins nor ends with one. -/
theorem trim_append_blank (ne : s ≠ []) (trimmed : trim s = s) (h : Blank w) :
    trim (s ++ w) = s := by
  have none : w.rdropWhile isWhitespace = [] := by
    rw [List.rdropWhile_eq_nil_iff]
    exact h
  rw [trim_append ne (trimmed ▸ isWhitespace_head_trim) (trimmed ▸ isWhitespace_getLast_trim), none,
    List.append_nil]

theorem isWhitespace_of_isAsciiWhitespace (h : isAsciiWhitespace c = true) :
    isWhitespace c = true := by
  simp only [isAsciiWhitespace, List.mem_cons, List.not_mem_nil, or_false, decide_eq_true_eq] at h
  rcases h with rfl | rfl | rfl | rfl | rfl
  all_goals rfl

theorem isWhitespace_of_isPathChar (h : isPathChar c = true) : isWhitespace c = false := by
  simp only [isPathChar, Bool.or_eq_true, decide_eq_true_eq] at h
  rcases h with (alnum | rfl) | rfl
  · rcases Bool.or_eq_true_iff.mp alnum with alpha | digit
    · apply isWhitespace_of_visible
      rcases Bool.or_eq_true_iff.mp alpha with upper | lower
      · obtain ⟨low, high⟩ := of_decide_eq_true upper
        have low : 65 ≤ c.val.toNat := UInt32.le_iff_toNat_le.mp low
        have high : c.val.toNat ≤ 90 := UInt32.le_iff_toNat_le.mp high
        omega
      · obtain ⟨low, high⟩ := Bool.and_eq_true_iff.mp lower
        have low : 97 ≤ c.val.toNat := UInt32.le_iff_toNat_le.mp (of_decide_eq_true low)
        have high : c.val.toNat ≤ 122 := UInt32.le_iff_toNat_le.mp (of_decide_eq_true high)
        omega
    · exact isWhitespace_of_isDigit digit
  all_goals rfl

theorem IsPath.trim_eq (h : IsPath path) : trim path = path :=
  trim_eq_self (fun _ mem => isWhitespace_of_isPathChar (h.2.2 _ (List.mem_of_mem_head? mem)))
    fun _ mem => isWhitespace_of_isPathChar (h.2.2 _ (List.mem_of_getLast? mem))

/-- What is no path character is not in a path with blanks behind it. -/
theorem IsPath.notMem (h : IsPath path) (blank : Blank w) (noPath : isPathChar c = false)
    (noBlank : isWhitespace c = false) : c ∉ path ++ w := by
  intro mem
  rcases List.mem_append.mp mem with mem | mem
  · rw [h.2.2 c mem] at noPath
    cases noPath
  · rw [blank c mem] at noBlank
    cases noBlank

theorem stripQuotes_eq_some_iff : stripQuotes s = some literal ↔
    ∃ q, (q = '"' ∨ q = '\'') ∧ trim s = q :: (literal ++ [q]) := by
  unfold stripQuotes
  cases trim s with
  | nil => exact iff_of_false nofun fun ⟨_, _, h⟩ => by cases h
  | cons q rest =>
      dsimp only
      constructor
      · intro h
        split at h
        · rename_i quoted
          obtain rfl := Option.some.inj h
          have whole := List.dropLast_append_getLast? q quoted.2
          exact ⟨q, quoted.1, by rw [whole]⟩
        · cases h
      · rintro ⟨q', quote, same⟩
        obtain ⟨rfl, rfl⟩ := List.cons.inj same
        rw [if_pos ⟨quote, List.getLast?_concat⟩, List.dropLast_concat]

theorem Quoted.stripQuotes_eq (h : Quoted (trim s) literal) : stripQuotes s = some literal := by
  obtain ⟨q, quote, -, same⟩ := h
  exact stripQuotes_eq_some_iff.mpr ⟨q, quote, same⟩

end Blanks

/-! ### The first operator -/

section Operators

variable {t lhs rhs before after p : List Char}

theorem splitEq_eq_some (h : splitEq t = some (lhs, rhs)) : t = lhs ++ '=' :: '=' :: rhs := by
  induction t using splitEq.induct generalizing lhs with
  | case1 rest =>
      cases h
      rfl
  | case2 c cs _ ih =>
      rw [splitEq] at h
      · obtain ⟨⟨l, r⟩, found, same⟩ := Option.map_eq_some_iff.mp h
        cases same
        rw [List.cons_append, ← ih found]
      · assumption
  | case3 => cases h

theorem splitEq_append (h : '=' ∉ lhs) (rhs : List Char) :
    splitEq (lhs ++ '=' :: '=' :: rhs) = some (lhs, rhs) := by
  induction lhs with
  | nil => rfl
  | cons c lhs ih =>
      obtain ⟨ne, rest⟩ := List.ne_and_not_mem_of_not_mem_cons h
      rw [List.cons_append, splitEq, ih rest]
      · rfl
      · exact fun _ same _ => ne same.symm

theorem findIn_eq_some {seen : List Char} (h : findIn seen t = some (before, after)) :
    ∃ mid, before = seen.reverse ++ mid ∧ t = mid ++ 'i' :: 'n' :: after ∧
      Bounded (mid.reverse ++ seen).head? = true ∧ Bounded after.head? = true := by
  induction seen, t using findIn.induct with
  | case1 seen rest bounded =>
      rw [findIn, if_pos bounded] at h
      cases h
      obtain ⟨left, right⟩ := Bool.and_eq_true_iff.mp bounded
      exact ⟨[], (List.append_nil _).symm, rfl, left, right⟩
  | case2 seen rest inside ih =>
      rw [findIn, if_neg inside] at h
      obtain ⟨mid, same, rest_eq, left, right⟩ := ih h
      refine ⟨'i' :: 'n' :: mid, ?_, by rw [rest_eq]; rfl, ?_, right⟩
      · rw [same]
        simp
      · simpa using left
  | case3 seen c cs notHere ih =>
      rw [findIn] at h
      · obtain ⟨mid, same, rest_eq, left, right⟩ := ih h
        refine ⟨c :: mid, ?_, by rw [rest_eq]; rfl, ?_, right⟩
        · rw [same]
          simp
        · simpa using left
      · assumption
  | case4 => cases h

theorem bounded_of_word {c : Char} (h : isWhitespace c = false) : Bounded (some c) = false := by
  apply Bool.eq_false_iff.mpr
  intro blank
  rw [isWhitespace_of_isAsciiWhitespace blank] at h
  cases h

/-- The rest of a word is passed over. -/
theorem findIn_word (seen : List Char) (word : ∀ c ∈ p, isWhitespace c = false)
    (inside : Bounded seen.head? = false) (rest : List Char)
    (next : ∀ c ∈ rest.head?, isWhitespace c = true) :
    findIn seen (p ++ rest) = findIn (p.reverse ++ seen) rest := by
  induction seen, p using findIn.induct with
  | case1 seen p bounded =>
      rw [inside] at bounded
      cases bounded
  | case2 seen p _ ih =>
      have later := ih (fun c mem => word c (List.mem_cons_of_mem _ (List.mem_cons_of_mem _ mem)))
        (bounded_of_word (word 'n' (List.mem_cons_of_mem _ List.mem_cons_self)))
      rw [List.cons_append, List.cons_append, findIn, inside, Bool.false_and,
        if_neg Bool.false_ne_true, later]
      simp
  | case3 seen c p notHere ih =>
      have later := ih (fun d mem => word d (List.mem_cons_of_mem _ mem))
        (bounded_of_word (word c List.mem_cons_self))
      rw [List.cons_append, findIn, later]
      · simp
      · intro after first second
        cases p with
        | nil =>
            rw [List.nil_append] at second
            cases next 'n' (by rw [second]; rfl)
        | cons d p =>
            obtain ⟨rfl, -⟩ := List.cons.inj second
            exact notHere _ first rfl
  | case4 => rfl

/-- A path in front of the keyword is passed over. -/
theorem findIn_start (path : IsPath p) (rest : List Char)
    (next : ∀ c ∈ rest.head?, isWhitespace c = true) :
    findIn [] (p ++ rest) = findIn p.reverse rest := by
  obtain ⟨filled, noKeyword, chars⟩ := path
  have word : ∀ c ∈ p, isWhitespace c = false :=
    fun c mem => isWhitespace_of_isPathChar (chars c mem)
  cases p with
  | nil => exact absurd rfl filled
  | cons c p =>
      have first := bounded_of_word (word c List.mem_cons_self)
      have later : ∀ d ∈ p, isWhitespace d = false :=
        fun d mem => word d (List.mem_cons_of_mem _ mem)
      by_cases begins : c = 'i' ∧ ∃ p', p = 'n' :: p'
      · obtain ⟨rfl, p, rfl⟩ := begins
        cases p with
        | nil => exact absurd rfl noKeyword
        | cons d p =>
            have inside : (Bounded (none : Option Char) && Bounded (some d)) = false := by
              rw [bounded_of_word (later d (List.mem_cons_of_mem _ List.mem_cons_self)),
                Bool.and_false]
            have passed := findIn_word ['n', 'i']
              (fun e mem => later e (List.mem_cons_of_mem _ mem)) rfl rest next
            rw [List.cons_append, List.cons_append, findIn]
            exact (if_neg (Bool.eq_false_iff.mp inside)).trans (passed.trans (by simp))
      · have passed := findIn_word [c] later first rest next
        rw [List.cons_append, findIn, passed]
        · simp
        · intro after same next_eq
          cases p with
          | nil => cases next 'n' (by rw [← List.nil_append rest, next_eq]; rfl)
          | cons d p => exact begins ⟨same, p, by rw [(List.cons.inj next_eq).1]⟩

/-- Blanks are passed over. -/
theorem findIn_blank {seen w : List Char} (blank : Blank w) (rest : List Char) :
    findIn seen (w ++ rest) = findIn (w.reverse ++ seen) rest := by
  induction w generalizing seen with
  | nil => rfl
  | cons c w ih =>
      have here := blank c List.mem_cons_self
      rw [List.cons_append, findIn, ih fun d mem => blank d (List.mem_cons_of_mem _ mem),
        List.reverse_cons, List.append_assoc, List.singleton_append]
      rintro _ rfl
      cases here

/-- The keyword behind a path. -/
theorem findIn_path {w : List Char} {c d : Char} (path : IsPath p) (blank : Blank w)
    (left : isAsciiWhitespace c = true) (right : isAsciiWhitespace d = true) (rest : List Char) :
    findIn [] (p ++ (w ++ (c :: 'i' :: 'n' :: d :: rest))) = some (p ++ (w ++ [c]), d :: rest) := by
  have blanks : Blank (w ++ [c]) := by
    intro e mem
    rcases List.mem_append.mp mem with mem | mem
    · exact blank e mem
    · obtain rfl := List.mem_singleton.mp mem
      exact isWhitespace_of_isAsciiWhitespace left
  have keyword : findIn ((w ++ [c]).reverse ++ p.reverse) ('i' :: 'n' :: d :: rest) =
      some (p ++ (w ++ [c]), d :: rest) := by
    have bounded :
        (Bounded ((w ++ [c]).reverse ++ p.reverse).head? && Bounded (some d)) = true := by
      rw [List.reverse_concat]
      exact Bool.and_eq_true_iff.mpr ⟨left, right⟩
    rw [findIn]
    exact (if_pos bounded).trans (by simp)
  have whole : w ++ (c :: 'i' :: 'n' :: d :: rest) = (w ++ [c]) ++ 'i' :: 'n' :: d :: rest := by
    rw [List.append_assoc, List.singleton_append]
  rw [whole, findIn_start path _ ?_, findIn_blank blanks, keyword]
  intro e mem
  have here : e ∈ w ++ [c] := by
    rw [List.head?_append_of_ne_nil _ (by simp)] at mem
    exact List.mem_of_mem_head? mem
  exact blanks e here

end Operators

/-! ### The two readings -/

section Readings

variable {t s rest p inner literal : List Char} {literals : List (List Char)}

theorem blank_after_trim (trimmed : trim (s ++ rest) = s ++ rest) :
    ∃ w, Blank w ∧ s = trim s ++ w := by
  obtain ⟨w, w', same, blank, blank'⟩ := trim_decomposition s
  cases w with
  | nil => exact ⟨w', blank', same⟩
  | cons c w =>
      have head : c ∈ (trim (s ++ rest)).head? := by
        rw [trimmed, same]
        rfl
      have noBlank := isWhitespace_head_trim c head
      rw [blank c List.mem_cons_self] at noBlank
      cases noBlank

theorem blank_before_trim (trimmed : trim (rest ++ s) = rest ++ s) :
    ∃ w, Blank w ∧ s = w ++ trim s := by
  obtain ⟨w, w', same, blank, blank'⟩ := trim_decomposition s
  rcases List.eq_nil_or_concat' w' with rfl | ⟨w', c, rfl⟩
  · rw [List.append_nil] at same
    exact ⟨w, blank, same⟩
  · have last : c ∈ (trim (rest ++ s)).getLast? := by
      rw [trimmed, same]
      simp
    have noBlank := isWhitespace_getLast_trim c last
    rw [blank' c (by simp)] at noBlank
    cases noBlank

theorem Quoted.trim_eq (h : Quoted s literal) : trim s = s := by
  obtain ⟨q, quote, -, rfl⟩ := h
  have noBlank : isWhitespace q = false := by
    rcases quote with rfl | rfl
    all_goals rfl
  refine trim_eq_self (fun c mem => ?_) fun c mem => ?_
  · obtain rfl := Option.some.inj mem
    exact noBlank
  · rw [← List.cons_append, List.getLast?_concat] at mem
    obtain rfl := Option.some.inj mem
    exact noBlank

/-- A comparison is split at its operator. -/
theorem eqText_iff (trimmed : trim t = t) : EqText t p literal ↔
    ∃ lhs rhs, splitEq t = some (lhs, rhs) ∧ trim lhs = p ∧ IsPath p ∧
      Quoted (trim rhs) literal := by
  constructor
  · rintro ⟨path, w, w', quoted, blank, blank', isQuoted, rfl⟩
    rw [← List.append_assoc]
    refine ⟨_, _, splitEq_append (path.notMem blank rfl rfl) _, ?_, path, ?_⟩
    · exact trim_append_blank path.1 path.trim_eq blank
    · rwa [trim_blank_append blank', isQuoted.trim_eq]
  · rintro ⟨lhs, rhs, split, rfl, path, isQuoted⟩
    have whole := splitEq_eq_some split
    rw [whole] at trimmed
    obtain ⟨w, blank, lhs_eq⟩ := blank_after_trim trimmed
    have back : lhs ++ '=' :: '=' :: rhs = (lhs ++ ['=', '=']) ++ rhs := by simp
    rw [back] at trimmed
    obtain ⟨w', blank', rhs_eq⟩ := blank_before_trim trimmed
    refine ⟨path, w, w', trim rhs, blank, blank', isQuoted, ?_⟩
    rw [whole, ← rhs_eq, ← List.append_assoc, ← lhs_eq]

theorem unwrap_eq_some_iff : unwrap s = some inner ↔ s = '(' :: (inner ++ [')']) := by
  constructor
  · intro h
    unfold unwrap at h
    split at h
    · split at h
      · rename_i closed
        obtain rfl := Option.some.inj h
        rw [List.dropLast_append_getLast? ')' closed]
      · cases h
    · cases h
  · rintro rfl
    rw [unwrap, if_pos List.getLast?_concat, List.dropLast_concat]

/-- A condition on a list is split at its keyword. -/
theorem inText_iff (trimmed : trim t = t) : InText t p literals ↔
    ∃ before rhs inner, findIn [] t = some (before, rhs) ∧ trim before = p ∧ IsPath p ∧
      unwrap (trim rhs) = some inner ∧ Listed inner literals := by
  constructor
  · rintro ⟨path, w, c, d, w', inner, blank, blank', left, right, listed, rfl⟩
    refine ⟨_, _, inner, findIn_path path blank left right _, ?_, path, ?_, listed⟩
    · refine trim_append_blank path.1 path.trim_eq fun e mem => ?_
      rcases List.mem_append.mp mem with mem | mem
      · exact blank e mem
      · obtain rfl := List.mem_singleton.mp mem
        exact isWhitespace_of_isAsciiWhitespace left
    · have front : Blank (d :: w') :=
        List.forall_mem_cons.mpr ⟨isWhitespace_of_isAsciiWhitespace right, blank'⟩
      have list : trim ('(' :: (inner ++ [')'])) = '(' :: (inner ++ [')']) := by
        refine trim_eq_self (fun c mem => ?_) fun c mem => ?_
        · obtain rfl := Option.some.inj mem
          rfl
        · rw [← List.cons_append, List.getLast?_concat] at mem
          obtain rfl := Option.some.inj mem
          rfl
      rw [← List.cons_append, trim_blank_append front, list, unwrap_eq_some_iff]
  · rintro ⟨before, rhs, inner, found, rfl, path, wrapped, listed⟩
    obtain ⟨mid, same, whole, left, right⟩ := findIn_eq_some found
    obtain rfl : before = mid := same
    rw [whole] at trimmed
    obtain ⟨w, blank, before_eq⟩ := blank_after_trim trimmed
    have back : before ++ 'i' :: 'n' :: rhs = (before ++ ['i', 'n']) ++ rhs := by simp
    rw [back] at trimmed
    obtain ⟨w', blank', rhs_eq⟩ := blank_before_trim trimmed
    rw [unwrap_eq_some_iff] at wrapped
    rw [wrapped] at rhs_eq
    obtain ⟨w, c, rfl, isLeft⟩ : ∃ w' c, w = w' ++ [c] ∧ isAsciiWhitespace c = true := by
      rcases List.eq_nil_or_concat' w with rfl | ⟨w, c, rfl⟩
      · rw [List.append_nil] at before_eq
        have noBlank : ∀ c ∈ before.getLast?, isWhitespace c = false :=
          before_eq ▸ isWhitespace_getLast_trim
        rw [List.append_nil, List.head?_reverse] at left
        cases last : before.getLast? with
        | none => exact absurd (by rw [List.getLast?_eq_none_iff.mp last]; rfl) path.1
        | some c =>
            rw [last, bounded_of_word (noBlank c last)] at left
            cases left
      · rw [before_eq] at left
        exact ⟨w, c, rfl, by simpa [Bounded] using left⟩
    obtain ⟨d, w', rfl, isRight⟩ : ∃ d w'', w' = d :: w'' ∧ isAsciiWhitespace d = true := by
      rw [rhs_eq] at right
      cases w' with
      | nil => cases right
      | cons d w' => exact ⟨d, w', rfl, right⟩
    refine ⟨path, w, c, d, w', inner, fun e mem => blank e (List.mem_append_left _ mem),
      fun e mem => blank' e (List.mem_cons_of_mem _ mem), isLeft, isRight, listed, ?_⟩
    rw [whole, rhs_eq]
    conv_lhs => rw [before_eq]
    simp

end Readings

/-! ### Lists -/

section Lists

variable {inner piece literal : List Char} {literals : List (List Char)}

theorem comma_notMem_members : ∀ literal ∈ members inner, ',' ∉ literal := by
  intro literal mem comma
  obtain ⟨piece, found, strip⟩ := List.mem_filterMap.mp mem
  obtain ⟨q, -, same⟩ := stripQuotes_eq_some_iff.mp strip
  have inside : ',' ∈ trim piece := by
    rw [same]
    exact List.mem_cons_of_mem _ (List.mem_append_left _ comma)
  exact General.Lines.notMem_of_mem_splitOn found (mem_of_mem_trim inside)

theorem comma_notMem_of_quoted (h : Quoted (trim piece) literal) (plain : ',' ∉ literal) :
    ',' ∉ piece := by
  obtain ⟨q, quote, -, same⟩ := h
  intro comma
  have inside := (mem_trim_iff (c := ',') rfl).mpr comma
  rw [same, List.mem_cons, List.mem_append, List.mem_singleton] at inside
  rcases inside with here | inside | here
  · rcases quote with rfl | rfl
    all_goals cases here
  · exact plain inside
  · rcases quote with rfl | rfl
    all_goals cases here

/-- Without a comma in a string, the pieces are the strings. -/
theorem splitOn_of_listed (listed : Listed inner literals) (plain : ∀ l ∈ literals, ',' ∉ l) :
    members inner = literals ∧
      ∀ piece ∈ inner.splitOn ',', ∃ literal, Quoted (trim piece) literal := by
  obtain ⟨items, ne, quoted, rfl, rfl⟩ := listed
  have pieces : ([','].intercalate (items.map Prod.fst)).splitOn ',' = items.map Prod.fst := by
    refine List.splitOn_intercalate ',' (fun piece mem => ?_) (mt List.map_eq_nil_iff.mp ne)
    obtain ⟨item, found, rfl⟩ := List.mem_map.mp mem
    exact comma_notMem_of_quoted (quoted item found) (plain _ (List.mem_map_of_mem found))
  constructor
  · rw [members, pieces, List.filterMap_map]
    have each : ∀ item ∈ items, (stripQuotes ∘ Prod.fst) item = some item.2 :=
      fun item found => (quoted item found).stripQuotes_eq
    rw [List.filterMap_congr each]
    exact congrFun List.filterMap_eq_map items
  · rw [pieces]
    intro piece mem
    obtain ⟨item, found, rfl⟩ := List.mem_map.mp mem
    exact ⟨item.2, quoted item found⟩

theorem listed_of_splitOn
    (h : ∀ piece ∈ inner.splitOn ',', ∃ literal, Quoted (trim piece) literal) :
    Listed inner (members inner) := by
  have each : ∀ piece ∈ inner.splitOn ',', stripQuotes piece = some ((stripQuotes piece).getD []) ∧
      Quoted (trim piece) ((stripQuotes piece).getD []) := by
    intro piece mem
    obtain ⟨literal, quoted⟩ := h piece mem
    rw [quoted.stripQuotes_eq]
    exact ⟨rfl, quoted⟩
  refine ⟨(inner.splitOn ',').map fun piece => (piece, (stripQuotes piece).getD []),
    mt List.map_eq_nil_iff.mp (List.splitOn_ne_nil _ _), ?_, ?_, ?_⟩
  · intro item mem
    obtain ⟨piece, found, rfl⟩ := List.mem_map.mp mem
    exact (each piece found).2
  · rw [List.map_map]
    exact (List.intercalate_splitOn ',').symm.trans (by simp [Function.comp_def])
  · rw [members, List.filterMap_congr fun piece found => (each piece found).1, List.map_map]
    exact congrFun List.filterMap_eq_map _

end Lists

/-! ### When the lift is exact -/

/-- Where the text is split at the first `==` into something without blanks and something in quotes,
these are a path and a string; where it is split at the first `in` into something without blanks and
parentheses with something in quotes, these are a path and a list of strings; and no string of a
list has a comma. -/
structure Clean (raw : List Char) : Prop where
  equals : ∀ lhs rhs, splitEq (trim raw) = some (lhs, rhs) → trim lhs ≠ [] → ' ' ∉ trim lhs →
    ∀ literal, stripQuotes rhs = some literal → IsPath (trim lhs) ∧ Quoted (trim rhs) literal
  isIn : equalsKind (trim raw) = none → ∀ before rhs inner,
    findIn [] (trim raw) = some (before, rhs) → unwrap (trim rhs) = some inner →
    trim before ≠ [] → ' ' ∉ trim before → members inner ≠ [] →
    IsPath (trim before) ∧ ∀ piece ∈ inner.splitOn ',', ∃ literal, Quoted (trim piece) literal
  commas : ∀ path literals, InText (trim raw) path literals → ∀ literal ∈ literals, ',' ∉ literal

section Exact

variable {raw t path literal : List Char} {literals : List (List Char)} {kind : EmitPredicateKind}

theorem equalsKind_eq_some_iff : equalsKind t = some kind ↔ ∃ lhs rhs literal,
    splitEq t = some (lhs, rhs) ∧ stripQuotes rhs = some literal ∧ trim lhs ≠ [] ∧ ' ' ∉ trim lhs ∧
      kind = .equals (trim lhs) literal := by
  constructor
  · intro h
    obtain ⟨⟨lhs, rhs⟩, split, h⟩ := Option.bind_eq_some_iff.mp h
    obtain ⟨literal, strip, h⟩ := Option.bind_eq_some_iff.mp h
    split at h
    · rename_i word
      exact ⟨lhs, rhs, literal, split, strip, word.1, word.2, (Option.some.inj h).symm⟩
    · cases h
  · rintro ⟨lhs, rhs, literal, split, strip, filled, word, rfl⟩
    simp [equalsKind, split, strip, filled, word]

theorem inKind_eq_some_iff : inKind t = some kind ↔ ∃ before rhs inner,
    findIn [] t = some (before, rhs) ∧ unwrap (trim rhs) = some inner ∧ trim before ≠ [] ∧
      ' ' ∉ trim before ∧ members inner ≠ [] ∧ kind = .isIn (trim before) (members inner) := by
  constructor
  · intro h
    obtain ⟨⟨before, rhs⟩, found, h⟩ := Option.bind_eq_some_iff.mp h
    obtain ⟨inner, wrapped, h⟩ := Option.bind_eq_some_iff.mp h
    split at h
    · rename_i word
      exact ⟨before, rhs, inner, found, wrapped, word.1, word.2.1, word.2.2,
        (Option.some.inj h).symm⟩
    · cases h
  · rintro ⟨before, rhs, inner, found, wrapped, filled, word, listed, rfl⟩
    simp [inKind, found, wrapped, filled, word, listed]

theorem lowerEmit_equals_iff : lowerEmit raw = .equals path literal ↔
    equalsKind (trim raw) = some (.equals path literal) := by
  unfold lowerEmit
  cases equal : equalsKind (trim raw) with
  | some kind => simp
  | none =>
      refine iff_of_false (fun h => ?_) nofun
      cases isIn : inKind (trim raw) with
      | none =>
          rw [isIn] at h
          cases h
      | some kind =>
          obtain ⟨_, _, _, _, _, _, _, _, rfl⟩ := inKind_eq_some_iff.mp isIn
          rw [isIn] at h
          cases h

theorem lowerEmit_isIn_iff : lowerEmit raw = .isIn path literals ↔
    equalsKind (trim raw) = none ∧ inKind (trim raw) = some (.isIn path literals) := by
  unfold lowerEmit
  cases equal : equalsKind (trim raw) with
  | some kind =>
      obtain ⟨_, _, _, _, _, _, _, rfl⟩ := equalsKind_eq_some_iff.mp equal
      exact iff_of_false nofun nofun
  | none =>
      cases isIn : inKind (trim raw) with
      | none => exact iff_of_false nofun nofun
      | some kind => simp

theorem eq_of_lowerEmit_other {text : List Char} (h : lowerEmit raw = .other text) :
    text = trim raw := by
  unfold lowerEmit at h
  cases equal : equalsKind (trim raw) with
  | some kind =>
      obtain ⟨_, _, _, _, _, _, _, rfl⟩ := equalsKind_eq_some_iff.mp equal
      rw [equal] at h
      cases h
  | none =>
      cases isIn : inKind (trim raw) with
      | some kind =>
          obtain ⟨_, _, _, _, _, _, _, _, rfl⟩ := inKind_eq_some_iff.mp isIn
          rw [equal, isIn] at h
          cases h
      | none =>
          rw [equal, isIn] at h
          exact (EmitPredicateKind.other.inj h).symm

/-- A text that ends with a parenthesis is no comparison with a string. -/
theorem equalsKind_of_inText (h : InText (trim raw) path literals) :
    equalsKind (trim raw) = none := by
  cases equal : equalsKind (trim raw) with
  | none => rfl
  | some kind =>
      obtain ⟨-, w, c, d, w', inner, -, -, -, -, -, whole⟩ := h
      obtain ⟨lhs, rhs, literal, split, strip, -⟩ := equalsKind_eq_some_iff.mp equal
      obtain ⟨q, quote, inside⟩ := stripQuotes_eq_some_iff.mp strip
      have closed : (trim raw).getLast? = some ')' := by
        rw [whole]
        simp [List.getLast?_append, List.getLast?_cons]
      have parts : trim raw = (lhs ++ ['=', '=']) ++ rhs := by
        rw [splitEq_eq_some split]
        simp
      have trimmed := trim_trim raw
      rw [parts] at trimmed
      obtain ⟨w', -, rhs_eq⟩ := blank_before_trim trimmed
      have quoted : (trim raw).getLast? = some q := by
        rw [parts, rhs_eq, inside]
        simp [List.getLast?_append, List.getLast?_cons]
      rw [closed] at quoted
      obtain rfl := Option.some.inj quoted
      rcases quote with same | same
      all_goals cases same

/-- The text is read as a comparison iff it is split like one. -/
theorem equals_iff (clean : ∀ lhs rhs, splitEq (trim raw) = some (lhs, rhs) → trim lhs ≠ [] →
      ' ' ∉ trim lhs → ∀ literal, stripQuotes rhs = some literal →
        IsPath (trim lhs) ∧ Quoted (trim rhs) literal) :
    lowerEmit raw = .equals path literal ↔ EqText (trim raw) path literal := by
  rw [lowerEmit_equals_iff, equalsKind_eq_some_iff, eqText_iff (trim_trim raw)]
  constructor
  · rintro ⟨lhs, rhs, literal, split, strip, filled, word, same⟩
    obtain ⟨rfl, rfl⟩ := EmitPredicateKind.equals.inj same
    obtain ⟨isPath, quoted⟩ := clean lhs rhs split filled word literal strip
    exact ⟨lhs, rhs, split, rfl, isPath, quoted⟩
  · rintro ⟨lhs, rhs, split, rfl, isPath, quoted⟩
    refine ⟨lhs, rhs, literal, split, quoted.stripQuotes_eq, isPath.1, ?_, rfl⟩
    exact fun mem => absurd (isPath.2.2 ' ' mem) Bool.false_ne_true

/-- The text is read as a condition on a list iff it is split like one. -/
theorem isIn_iff (clean : Clean raw) :
    lowerEmit raw = .isIn path literals ↔ InText (trim raw) path literals := by
  constructor
  · intro lowered
    obtain ⟨none, isIn⟩ := lowerEmit_isIn_iff.mp lowered
    obtain ⟨before, rhs, inner, found, wrapped, filled, word, some, same⟩ :=
      inKind_eq_some_iff.mp isIn
    obtain ⟨rfl, rfl⟩ := EmitPredicateKind.isIn.inj same
    obtain ⟨isPath, pieces⟩ := clean.isIn none before rhs inner found wrapped filled word some
    exact (inText_iff (trim_trim raw)).mpr
      ⟨before, rhs, inner, found, rfl, isPath, wrapped, listed_of_splitOn pieces⟩
  · intro isIn
    have plain := clean.commas path literals isIn
    obtain ⟨before, rhs, inner, found, rfl, isPath, wrapped, listed⟩ :=
      (inText_iff (trim_trim raw)).mp isIn
    obtain ⟨same, -⟩ := splitOn_of_listed listed plain
    have filled : literals ≠ [] := by
      obtain ⟨items, ne, -, -, rfl⟩ := listed
      exact mt List.map_eq_nil_iff.mp ne
    refine lowerEmit_isIn_iff.mpr ⟨equalsKind_of_inText isIn, inKind_eq_some_iff.mpr
      ⟨before, rhs, inner, found, wrapped, isPath.1, ?_, same ▸ filled, by rw [same]⟩⟩
    exact fun mem => absurd (isPath.2.2 ' ' mem) Bool.false_ne_true

theorem Clean.exact (clean : Clean raw) : Exact raw where
  equals _ _ := equals_iff clean.equals
  isIn _ _ := isIn_iff clean
  other text := by
    constructor
    · intro lowered
      refine ⟨eq_of_lowerEmit_other lowered, fun path literal equal => ?_,
        fun path literals isIn => ?_⟩
      · rw [(equals_iff clean.equals).mpr equal] at lowered
        cases lowered
      · rw [(isIn_iff clean).mpr isIn] at lowered
        cases lowered
    · rintro ⟨rfl, noEqual, noIn⟩
      cases kind : lowerEmit raw with
      | equals path literal => exact absurd ((equals_iff clean.equals).mp kind) (noEqual _ _)
      | isIn path literals => exact absurd ((isIn_iff clean).mp kind) (noIn _ _)
      | other text => rw [eq_of_lowerEmit_other kind]

theorem Exact.clean (exact : Exact raw) : Clean raw where
  equals lhs rhs split filled word literal strip := by
    have lowered : lowerEmit raw = .equals (trim lhs) literal := lowerEmit_equals_iff.mpr
      (equalsKind_eq_some_iff.mpr ⟨lhs, rhs, literal, split, strip, filled, word, rfl⟩)
    obtain ⟨lhs', rhs', split', same, isPath, quoted⟩ :=
      (eqText_iff (trim_trim raw)).mp ((exact.equals _ _).mp lowered)
    obtain ⟨rfl, rfl⟩ := Prod.mk.inj (Option.some.inj (split.symm.trans split'))
    exact ⟨isPath, quoted⟩
  isIn none before rhs inner found wrapped filled word some := by
    have lowered : lowerEmit raw = .isIn (trim before) (members inner) :=
      lowerEmit_isIn_iff.mpr ⟨none, inKind_eq_some_iff.mpr
        ⟨before, rhs, inner, found, wrapped, filled, word, some, rfl⟩⟩
    obtain ⟨before', rhs', inner', found', same, isPath, wrapped', listed⟩ :=
      (inText_iff (trim_trim raw)).mp ((exact.isIn _ _).mp lowered)
    obtain ⟨rfl, rfl⟩ := Prod.mk.inj (Option.some.inj (found.symm.trans found'))
    obtain rfl := Option.some.inj (wrapped.symm.trans wrapped')
    exact ⟨isPath, (splitOn_of_listed listed comma_notMem_members).2⟩
  commas path literals isIn := by
    have lowered := (exact.isIn _ _).mpr isIn
    obtain ⟨-, isIn⟩ := lowerEmit_isIn_iff.mp lowered
    obtain ⟨_, _, inner, _, _, _, _, _, same⟩ := inKind_eq_some_iff.mp isIn
    rw [(EmitPredicateKind.isIn.inj same).2]
    exact comma_notMem_members

/-- **A condition is lifted exactly iff it only looks like a comparison or a list where it is
one.** -/
theorem emit_exact_iff (raw : List Char) : Exact raw ↔ Clean raw := ⟨Exact.clean, Clean.exact⟩

/-- Two comparisons are taken for one. -/
theorem conjunction_inexact : ¬ ∀ raw, Exact raw := by
  intro all
  have noBlank : ' ' ∉ trim "a ".toList := by
    change ' ' ∉ ['a']
    simp
  have isString := ((all "a == \"x\" and b == \"y\"".toList).clean.equals "a ".toList
    " \"x\" and b == \"y\"".toList rfl (List.cons_ne_nil _ _) noBlank
    "x\" and b == \"y".toList rfl).2
  obtain ⟨q, rfl | rfl, plain, same⟩ := isString
  · exact plain (by simp)
  · exact absurd (List.cons.inj same).1 (by decide)

end Exact

end Lazuli.Analyzer.EmitPredicate
