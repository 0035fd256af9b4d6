import Lazuli.Codegen.Casing
import Lazuli.General.Text

/-!
The casing of the emitter beside that of the runtime, and what casing twice does
(`emitter/casing.rs`, `runtime/go/lazuli/handle.go`).

The loop of the emitter splits a name as the recursion of the runtime does (`splitWords_eq`). A name
in camel case is split less often than the name it was made of: only where a word begins with two
letters and is no acronym (`splitWords_pascalCase`). So a second casing keeps the first exactly when
nothing else is joined that matters (`casing_once_iff`).
-/

namespace Lazuli.Codegen.Casing

open Lazuli.General.CamelCase

/-! ### The functions of the emitter -/

/-- The words so far and the one being built. -/
structure Scan where
  words : List (List Char) := []
  current : List Char := []

def Scan.flush (scan : Scan) : Scan :=
  if scan.current.isEmpty then scan else ⟨scan.words ++ [scan.current], []⟩

def Scan.push (scan : Scan) (ch : Char) : Scan := { scan with current := scan.current ++ [ch] }

/-- One turn of the loop, for the character `ch` at place `i`. -/
def scanChar (chars : List Char) (scan : Scan) (ch : Char) (i : Nat) : Scan :=
  if ch = '_' ∨ ch = '-' then scan.flush
  else if ch.isUpper then
    let prevLower := decide (0 < i) && (chars[i - 1]?).any fun r => r.isLower || r.isDigit
    let nextLower := (chars[i + 1]?).any Char.isLower
    if !scan.current.isEmpty && (prevLower || nextLower) then
      if !nextLower then scan.push ch else scan.flush.push ch
    else scan.push ch
  else scan.push ch

def splitWords (s : String) : List (List Char) :=
  (s.toList.zipIdx.foldl (fun scan e => scanChar s.toList scan e.1 e.2) {}).flush.words

def isAcronym (word : List Char) : Bool :=
  (String.ofList (word.map Char.toLower)) ∈
    ["id", "url", "uri", "api", "html", "json", "sql", "ttl", "uuid"]

/-- An acronym as it is, else the first letter and the rest. -/
def pascalWord (word : List Char) : List Char :=
  if isAcronym word then word.map Char.toUpper
  else
    match word with
    | [] => []
    | first :: rest => first.toUpper :: rest

def pascalCase (s : String) : String := String.ofList ((splitWords s).flatMap pascalWord)

def lowerCamel (s : String) : String :=
  match splitWords s with
  | [] => ""
  | word :: rest => String.ofList (word.map Char.toLower ++ rest.flatMap pascalWord)

/-! ### The emitter and the runtime -/

section Loop

variable {before rest : List Char} {ch : Char}

theorem any_previous (p : Char → Bool) :
    (decide (0 < before.length) &&
        ((before ++ ch :: rest)[before.length - 1]?).any p) = before.getLast?.any p := by
  cases before using List.reverseRecOn with
  | nil => rfl
  | append_singleton before last => simp

theorem next_eq : (before ++ ch :: rest)[before.length + 1]? = rest.head? := by
  cases rest with
  | nil => simp
  | cons next rest => simp

theorem words_flush (scan : Scan) :
    scan.flush.words = scan.words ++ Runtime.flush scan.current := by
  unfold Scan.flush Runtime.flush
  split
  · simp
  · rfl

@[simp] theorem current_flush (scan : Scan) : scan.flush.current = [] := by
  unfold Scan.flush
  split
  · rename_i empty
    exact List.isEmpty_iff.mp empty
  · rfl

/-- The loop of the emitter from some place on is the recursion of the runtime. -/
theorem scan_eq (scan : Scan) :
    ((rest.zipIdx before.length).foldl (fun scan e => scanChar (before ++ rest) scan e.1 e.2)
        scan).flush.words =
      scan.words ++ Runtime.splitWordsFrom before.getLast? scan.current rest := by
  induction rest generalizing before scan with
  | nil => exact words_flush scan
  | cons ch rest ih =>
      have later (next : Scan) := @ih (before ++ [ch]) next
      simp only [List.append_assoc, List.cons_append, List.nil_append, List.length_append,
        List.length_singleton, List.getLast?_append, List.getLast?_singleton] at later
      rw [List.zipIdx_cons, List.foldl_cons, later, Runtime.splitWordsFrom, scanChar]
      simp only [any_previous, next_eq, Runtime.isLower_eq, Runtime.isDigit_eq, Runtime.isUpper_eq]
      split
      · simp [words_flush]
      · split
        · split
          · split
            · rfl
            · simp [words_flush, Scan.push]
          · rfl
        · rfl

end Loop

theorem splitWords_eq (s : String) : splitWords s = Runtime.splitWords s :=
  @scan_eq [] s.toList {}

theorem pascalWord_eq (word : List Char) : pascalWord word = Runtime.capitalized word := by
  cases word with
  | nil => rfl
  | cons first rest => rfl

theorem pascalCase_eq_runtime (s : String) : pascalCase s = Runtime.pascalCase s := by
  unfold pascalCase Runtime.pascalCase
  rw [splitWords_eq, funext pascalWord_eq]

/-! ### Where a text is cut -/

/-- The words of a text behind the characters of a word. -/
def cut (current rest : List Char) : List (List Char) := Runtime.splitWordsFrom none current rest

section Cut

variable {current rest text : List Char} {ch : Char}

/-- A capital begins a word because of the letter behind it, whatever stands before it. -/
theorem splitWordsFrom_eq_cut (prev : Option Char) :
    Runtime.splitWordsFrom prev current rest = cut current rest := by
  unfold cut
  cases rest with
  | nil => rfl
  | cons ch rest =>
      simp only [Runtime.splitWordsFrom]
      cases rest.head?.any Runtime.isLower with
      | false => simp
      | true => simp

theorem cut_separator : cut current ('_' :: rest) = Runtime.flush current ++ cut [] rest := by
  simp [cut, Runtime.splitWordsFrom, splitWordsFrom_eq_cut (some '_')]

theorem cut_keep (separator : ¬ (ch = '_' ∨ ch = '-'))
    (keep : ch.isUpper = false ∨ current = [] ∨ rest.head?.any Char.isLower = false) :
    cut current (ch :: rest) = cut (current ++ [ch]) rest := by
  rw [cut, Runtime.splitWordsFrom, if_neg separator]
  simp only [Runtime.isLower_eq, Runtime.isUpper_eq, splitWordsFrom_eq_cut]
  split
  · rename_i upper
    split
    · rename_i behind
      rcases keep with lower | rfl | next
      · cases lower.symm.trans upper
      · simp at behind
      · simp [next]
    · rfl
  · rfl

theorem cut_start (upper : ch.isUpper = true) (h : current ≠ [])
    (next : rest.head?.any Char.isLower = true) :
    cut current (ch :: rest) = current :: cut [ch] rest := by
  have separator : ¬ (ch = '_' ∨ ch = '-') := by
    rintro (rfl | rfl)
    · cases upper
    · cases upper
  have nonempty : current.isEmpty = false := by simpa using h
  rw [cut, Runtime.splitWordsFrom, if_neg separator]
  simp [Runtime.isLower_eq, Runtime.isUpper_eq, upper, next, nonempty, Runtime.flush_eq h,
    splitWordsFrom_eq_cut]

/-- Small letters and digits. -/
theorem cut_append_small (h : ∀ c ∈ text, c.isLower = true ∨ c.isDigit = true) :
    cut current (text ++ rest) = cut (current ++ text) rest := by
  induction text generalizing current with
  | nil => simp
  | cons ch text ih =>
      have small := h ch List.mem_cons_self
      have separator : ¬ (ch = '_' ∨ ch = '-') := by
        rintro (rfl | rfl)
        · simp at small
        · simp at small
      have upper := not_isUpper_of_spoken (w := [ch]) ⟨by simp, by simpa using small⟩ ch (by simp)
      rw [List.cons_append, cut_keep separator (.inl upper),
        ih fun c hc => h c (List.mem_cons_of_mem ch hc)]
      simp

/-- Capitals, before something that is no small letter. -/
theorem cut_append_capitals (h : ∀ c ∈ text, c.isUpper = true)
    (next : rest.head?.any Char.isLower = false) :
    cut current (text ++ rest) = cut (current ++ text) rest := by
  induction text generalizing current with
  | nil => simp
  | cons ch text ih =>
      have upper := h ch List.mem_cons_self
      have separator : ¬ (ch = '_' ∨ ch = '-') := by
        rintro (rfl | rfl)
        · cases upper
        · cases upper
      have later : (text ++ rest).head?.any Char.isLower = false := by
        cases text with
        | nil => exact next
        | cons d text =>
            have := Char.not_isLower_of_isUpper (h d (by simp))
            simpa using this
      rw [List.cons_append, cut_keep separator (.inr (.inr later)),
        ih fun c hc => h c (List.mem_cons_of_mem ch hc)]
      simp

end Cut

/-! ### Names in snake case -/

/-- Words of small letters and digits, with single underscores between them. -/
structure SnakeName where
  words : List Word
  spoken : ∀ w ∈ words, Spoken w

def SnakeName.text (s : SnakeName) : String := String.ofList (['_'].intercalate s.words)

section Snake

variable {w : Word} {ws : List Word}

theorem cut_snake {current : List Char} (h : current ≠ []) (spoken : ∀ w ∈ ws, Spoken w) :
    cut current (ws.flatMap fun w => '_' :: w) = current :: ws := by
  induction ws generalizing current with
  | nil => exact Runtime.flush_eq h
  | cons w ws ih =>
      have first := spoken w List.mem_cons_self
      rw [List.flatMap_cons, List.cons_append, cut_separator, Runtime.flush_eq h,
        cut_append_small first.2, List.nil_append,
        ih first.1 fun w hw => spoken w (List.mem_cons_of_mem _ hw)]
      rfl

theorem splitWords_text (s : SnakeName) : splitWords s.text = s.words := by
  rw [splitWords_eq, Runtime.splitWords, splitWordsFrom_eq_cut, SnakeName.text,
    String.toList_ofList]
  obtain ⟨words, spoken⟩ := s
  cases words with
  | nil => rfl
  | cons w ws =>
      have first := spoken w List.mem_cons_self
      rw [General.Text.intercalate_eq_trail, cut_append_small first.2, List.nil_append]
      exact cut_snake first.1 fun w hw => spoken w (List.mem_cons_of_mem _ hw)

end Snake

/-! ### Names in camel case -/

/-- The word is split off again: two letters, and no acronym. -/
def stands (w : Word) : Bool :=
  !isAcronym w &&
    match w with
    | c :: d :: _ => c.isLower && d.isLower
    | _ => false

/-- The words behind `run` each with those that are joined to it. -/
def runsFrom (run : List Word) : List Word → List (List Word)
  | [] => [run]
  | w :: ws => if stands w then run :: runsFrom [w] ws else runsFrom (run ++ [w]) ws

def runs : List Word → List (List Word)
  | [] => []
  | w :: ws => runsFrom [w] ws

section Camel

variable {w : Word} {ws run : List Word} {rest : List Char}

theorem isLower_toLower_of_acronym (h : isAcronym w = true) :
    ∀ c ∈ w, c.toLower.isLower = true := by
  have letters : (["id", "url", "uri", "api", "html", "json", "sql", "ttl", "uuid"].all
      fun a => a.toList.all Char.isLower) = true := by decide +kernel
  intro c hc
  have mem := List.all_eq_true.mp letters _ (of_decide_eq_true h)
  rw [String.toList_ofList] at mem
  exact List.all_eq_true.mp mem _ (List.mem_map_of_mem hc)

theorem isUpper_toUpper_of_acronym (h : isAcronym w = true) :
    ∀ c ∈ w.map Char.toUpper, c.isUpper = true := by
  intro c hc
  obtain ⟨d, hd, rfl⟩ := List.mem_map.mp hc
  rw [Char.isUpper_toUpper_eq_isAlpha, ← Char.isLower_toLower_eq_isAlpha]
  exact isLower_toLower_of_acronym h d hd

theorem head_pascalWord : (pascalWord w).head?.any Char.isLower = false := by
  unfold pascalWord
  cases w with
  | nil => simp
  | cons c w =>
      split
      · simp
      · simp

theorem pascalWord_ne_nil (h : w ≠ []) : pascalWord w ≠ [] := by
  unfold pascalWord
  cases w with
  | nil => exact absurd rfl h
  | cons c w =>
      split
      · simp
      · simp

theorem head_flatMap_pascalWord (spoken : ∀ w ∈ ws, Spoken w) :
    (ws.flatMap pascalWord).head?.any Char.isLower = false := by
  cases ws with
  | nil => rfl
  | cons w ws =>
      have nonempty := pascalWord_ne_nil (spoken w List.mem_cons_self).1
      rw [List.flatMap_cons, List.head?_append_of_ne_nil _ nonempty]
      exact head_pascalWord

theorem pascalWord_cons {c : Char} (h : isAcronym (c :: w) = false) :
    pascalWord (c :: w) = c.toUpper :: w := by
  simp [pascalWord, h]

theorem pascalWord_acronym (h : isAcronym w = true) : pascalWord w = w.map Char.toUpper := by
  simp [pascalWord, h]

theorem separator_toUpper {c : Char} (h : c.isLower = true ∨ c.isDigit = true) :
    ¬ (c.toUpper = '_' ∨ c.toUpper = '-') := by
  have alphanum : c.toUpper.isAlphanum = true := by
    rcases h with lower | digit
    · simp [Char.isAlphanum, Char.isAlpha, lower]
    · have lower : ¬ c.isLower := by
        simp only [Char.isDigit, Char.isLower, Bool.and_eq_true, decide_eq_true_eq] at *
        grind
      simp [Char.toUpper_eq_of_not_isLower lower, Char.isAlphanum, digit]
  rintro (same | same)
  · rw [same] at alphanum
    cases alphanum
  · rw [same] at alphanum
    cases alphanum

/-- A word that does not stand for itself is joined to what is before it. -/
theorem cut_joined {current : List Char} (spoken : Spoken w) (h : stands w = false)
    (next : rest.head?.any Char.isLower = false) :
    cut current (pascalWord w ++ rest) = cut (current ++ pascalWord w) rest := by
  cases acronym : isAcronym w with
  | true =>
      have capitals := isUpper_toUpper_of_acronym acronym
      rw [pascalWord_acronym acronym, cut_append_capitals capitals next]
  | false =>
      cases w with
      | nil => exact absurd rfl spoken.1
      | cons c w =>
          have small := fun d hd => spoken.2 d (List.mem_cons_of_mem c hd)
          rw [pascalWord_cons acronym, List.cons_append,
            cut_keep (separator_toUpper (spoken.2 c List.mem_cons_self)) ?_,
            cut_append_small small, List.append_assoc, List.singleton_append]
          cases w with
          | nil => exact .inr (.inr next)
          | cons d w =>
              cases lower : d.isLower with
              | false => exact .inr (.inr (by simpa using lower))
              | true =>
                  have digit : c.isLower = false := by simpa [stands, acronym, lower] using h
                  refine .inl ?_
                  rw [Char.toUpper_eq_of_not_isLower (by simp [digit])]
                  exact not_isUpper_of_spoken spoken c List.mem_cons_self

theorem cut_stands {current : List Char} (spoken : Spoken w) (h : stands w = true)
    (nonempty : current ≠ []) :
    cut current (pascalWord w ++ rest) = current :: cut (pascalWord w) rest := by
  obtain ⟨acronym, letters⟩ := Bool.and_eq_true_iff.mp h
  match w, letters with
  | c :: d :: w, letters =>
      obtain ⟨lower, next⟩ := Bool.and_eq_true_iff.mp letters
      have small := fun e he => spoken.2 e (List.mem_cons_of_mem c he)
      have upper : c.toUpper.isUpper = true := by
        simp [Char.isUpper_toUpper_eq_isAlpha, Char.isAlpha, lower]
      rw [pascalWord_cons (by simpa using acronym), List.cons_append, cut_start upper nonempty
        (by simpa using next), cut_append_small small, List.singleton_append]

theorem cut_first (spoken : Spoken w) (next : rest.head?.any Char.isLower = false) :
    cut [] (pascalWord w ++ rest) = cut (pascalWord w) rest := by
  cases acronym : isAcronym w with
  | true =>
      have capitals := isUpper_toUpper_of_acronym acronym
      rw [pascalWord_acronym acronym, cut_append_capitals capitals next, List.nil_append]
  | false =>
      cases w with
      | nil => exact absurd rfl spoken.1
      | cons c w =>
          have small := fun d hd => spoken.2 d (List.mem_cons_of_mem c hd)
          rw [pascalWord_cons acronym, List.cons_append,
            cut_keep (separator_toUpper (spoken.2 c List.mem_cons_self)) (.inr (.inl rfl)),
            cut_append_small small]
          rfl

theorem cut_pascal (hrun : run.flatMap pascalWord ≠ []) (spoken : ∀ w ∈ ws, Spoken w) :
    cut (run.flatMap pascalWord) (ws.flatMap pascalWord) =
      (runsFrom run ws).map (List.flatMap pascalWord) := by
  induction ws generalizing run with
  | nil => exact Runtime.flush_eq hrun
  | cons w ws ih =>
      have first := spoken w List.mem_cons_self
      have others := fun v hv => spoken v (List.mem_cons_of_mem w hv)
      have alone : [w].flatMap pascalWord = pascalWord w := by simp
      rw [List.flatMap_cons, runsFrom]
      split
      · rename_i h
        rw [cut_stands first h hrun, ← alone, ih (by simpa using pascalWord_ne_nil first.1) others]
        rfl
      · rename_i h
        rw [cut_joined first (by simpa using h) (head_flatMap_pascalWord others),
          ← ih (by simp [pascalWord_ne_nil first.1]) others]
        simp

/-- A name in camel case is split into runs of its words. -/
theorem splitWords_pascalCase (s : SnakeName) :
    splitWords (pascalCase s.text) = (runs s.words).map (List.flatMap pascalWord) := by
  rw [splitWords_eq, Runtime.splitWords, splitWordsFrom_eq_cut, pascalCase, splitWords_text,
    String.toList_ofList]
  obtain ⟨words, spoken⟩ := s
  cases words with
  | nil => rfl
  | cons w ws =>
      have first := spoken w List.mem_cons_self
      have others := fun v hv => spoken v (List.mem_cons_of_mem w hv)
      have alone : [w].flatMap pascalWord = pascalWord w := by simp
      rw [List.flatMap_cons, cut_first first (head_flatMap_pascalWord others), ← alone,
        cut_pascal (by simpa using pascalWord_ne_nil first.1) others]
      rfl

/-! ### Casing twice -/

theorem flatten_runsFrom : (runsFrom run ws).flatten = run ++ ws := by
  induction ws generalizing run with
  | nil => simp [runsFrom]
  | cons w ws ih =>
      rw [runsFrom]
      split
      · simp [ih]
      · simp [ih]

/-- The first run goes on with `run`, the others begin with a word that stands for itself. -/
theorem runsFrom_eq (run ws : List Word) :
    ∃ joined others, runsFrom run ws = (run ++ joined) :: others ∧
      ∀ r ∈ others, ∃ w rest, r = w :: rest ∧ stands w = true := by
  induction ws generalizing run with
  | nil => exact ⟨[], [], by simp [runsFrom], by simp⟩
  | cons w ws ih =>
      rw [runsFrom]
      split
      · rename_i h
        obtain ⟨joined, others, eq, starts⟩ := ih [w]
        refine ⟨[], (w :: joined) :: others, by simp [eq], ?_⟩
        intro r hr
        rcases List.mem_cons.mp hr with rfl | hr
        · exact ⟨w, joined, rfl, h⟩
        · exact starts r hr
      · obtain ⟨joined, others, eq, starts⟩ := ih (run ++ [w])
        exact ⟨w :: joined, others, by simp [eq], starts⟩

@[simp] theorem length_pascalWord (w : Word) : (pascalWord w).length = w.length := by
  unfold pascalWord
  split
  · simp
  · cases w with
    | nil => rfl
    | cons c w => rfl

theorem map_toLower_spoken (spoken : Spoken w) : w.map Char.toLower = w := by
  refine (List.map_congr_left fun c hc => ?_).trans w.map_id
  exact Char.toLower_eq_of_not_isUpper (by simp [not_isUpper_of_spoken spoken c hc])

theorem map_toLower_pascalWord (spoken : Spoken w) : (pascalWord w).map Char.toLower = w := by
  refine Eq.trans ?_ (map_toLower_spoken spoken)
  unfold pascalWord
  split
  · rw [List.map_map]
    exact List.map_congr_left fun c _ => Char.toLower_toUpper_eq_toLower c
  · cases w with
    | nil => rfl
    | cons c w => simp

theorem map_toLower_flatMap_pascalWord (spoken : ∀ w ∈ ws, Spoken w) :
    (ws.flatMap pascalWord).map Char.toLower = ws.flatten := by
  induction ws with
  | nil => rfl
  | cons w ws ih =>
      have others := ih fun v hv => spoken v (List.mem_cons_of_mem w hv)
      simp [map_toLower_pascalWord (spoken w List.mem_cons_self), others]

theorem append_eq_append_iff {α : Type} {s s' t t' : List α} (h : s.length = s'.length) :
    s ++ t = s' ++ t' ↔ s = s' ∧ t = t' := by
  constructor
  · exact fun same => List.append_inj same h
  · rintro ⟨rfl, rfl⟩
    rfl

theorem flatMap_flatten {α β : Type} (f : α → List β) (l : List (List α)) :
    l.flatten.flatMap f = l.flatMap fun as => as.flatMap f := by
  rw [← List.flatMap_id, List.flatMap_assoc]
  rfl

theorem flatMap_eq_flatMap_iff {α β : Type} {f g : α → List β} {l : List α}
    (h : ∀ a ∈ l, (f a).length = (g a).length) :
    l.flatMap f = l.flatMap g ↔ ∀ a ∈ l, f a = g a := by
  induction l with
  | nil => simp
  | cons a l ih =>
      rw [List.flatMap_cons, List.flatMap_cons, append_eq_append_iff (h a List.mem_cons_self),
        ih fun b hb => h b (List.mem_cons_of_mem a hb), List.forall_mem_cons]

/-- A run is not changed unless it spells an acronym and is not all capitals. -/
theorem pascalWord_run (spoken : ∀ w ∈ run, Spoken w) :
    pascalWord (run.flatMap pascalWord) = run.flatMap pascalWord ↔
      (isAcronym run.flatten = true →
        (run.flatMap pascalWord).map Char.toUpper = run.flatMap pascalWord) := by
  have acronym : isAcronym (run.flatMap pascalWord) = isAcronym run.flatten := by
    have spelled := map_toLower_flatMap_pascalWord spoken
    have twice : run.flatten.map Char.toLower = run.flatten := by
      rw [← spelled, List.map_map]
      exact List.map_congr_left fun c _ => by simp
    rw [isAcronym, isAcronym, spelled, twice]
  have head := head_flatMap_pascalWord spoken
  rw [← acronym]
  generalize run.flatMap pascalWord = text at head ⊢
  cases text with
  | nil => simp [pascalWord]
  | cons c text =>
      have first : c.toUpper = c := Char.toUpper_eq_of_not_isLower (by simpa using head)
      cases h : isAcronym (c :: text) with
      | true => simp [pascalWord_acronym h]
      | false => simp [pascalWord_cons h, first]

theorem pascalWord_eq_self_iff (spoken : Spoken w) : pascalWord w = w ↔ opens w = false := by
  constructor
  · intro same
    have head := @head_pascalWord w
    rwa [same] at head
  · intro closed
    cases w with
    | nil => rfl
    | cons c w =>
        have letter : c.isLower = false := closed
        have acronym : isAcronym (c :: w) = false := by
          refine Bool.eq_false_iff.mpr fun acronym => ?_
          have lower := isLower_toLower_of_acronym acronym c List.mem_cons_self
          rw [Char.toLower_eq_of_not_isUpper
            (by simp [not_isUpper_of_spoken spoken c List.mem_cons_self])] at lower
          cases letter.symm.trans lower
        rw [pascalWord_cons acronym, Char.toUpper_eq_of_not_isLower (by simp [letter])]

/-- A run that begins with two letters is not all capitals. -/
theorem pascalWord_run_of_stands {rest : List Word} (spoken : ∀ v ∈ w :: rest, Spoken v)
    (h : stands w = true) :
    pascalWord ((w :: rest).flatMap pascalWord) = (w :: rest).flatMap pascalWord ↔
      isAcronym (w :: rest).flatten = false := by
  rw [pascalWord_run spoken, ← Bool.not_eq_true]
  refine imp_iff_not fun capitals => ?_
  obtain ⟨acronym, letters⟩ := Bool.and_eq_true_iff.mp h
  match w, letters with
  | c :: d :: w, letters =>
      have lower : d.isLower = true := (Bool.and_eq_true_iff.mp letters).2
      rw [List.flatMap_cons, pascalWord_cons (by simpa using acronym)] at capitals
      have second : d.toUpper = d := by simp at capitals; exact capitals.1
      have not : d.toUpper.isLower = false := by simp
      rw [second, lower] at not
      cases not

end Camel

/-! ### Casing once -/

/-- Behind the first word stand only words that begin with a digit, up to the next that begins with
two letters and is no acronym; and no such word spells an acronym with those that are joined to
it. -/
structure CasedOnce (s : SnakeName) : Prop where
  leading : ∀ run ∈ (runs s.words).head?, ∀ w ∈ run.tail, opens w = false
  later : ∀ run ∈ (runs s.words).tail, isAcronym run.flatten = false

section Once

variable (s : SnakeName)

theorem flatten_runs : (runs s.words).flatten = s.words := by
  cases s.words with
  | nil => rfl
  | cons w ws => exact flatten_runsFrom

theorem spoken_runs : ∀ run ∈ runs s.words, ∀ w ∈ run, Spoken w := by
  intro run hrun w hw
  exact s.spoken w (flatten_runs s ▸ List.mem_flatten_of_mem hrun hw)

/-- The first run begins with the first word, the others with words that stand for themselves. -/
theorem runs_eq_nil_or_cons :
    s.words = [] ∧ runs s.words = [] ∨
      ∃ w joined others, runs s.words = (w :: joined) :: others ∧
        s.words = w :: (joined ++ others.flatten) ∧
        ∀ r ∈ others, ∃ v rest, r = v :: rest ∧ stands v = true := by
  have flat := flatten_runs s
  cases hs : s.words with
  | nil => exact .inl ⟨rfl, rfl⟩
  | cons w ws =>
      obtain ⟨joined, others, eq, starts⟩ := runsFrom_eq [w] ws
      have eq : runs (w :: ws) = (w :: joined) :: others := eq
      rw [hs, eq] at flat
      exact .inr ⟨w, joined, others, eq, by simpa using flat.symm, starts⟩

theorem lowerCamel_text {w : Word} {ws : List Word} (h : s.words = w :: ws) :
    (lowerCamel s.text).toList = w ++ ws.flatMap pascalWord := by
  have first := s.spoken w (h ▸ List.mem_cons_self)
  simp [lowerCamel, splitWords_text, h, map_toLower_spoken first]

theorem lowerCamel_pascalCase {run : List Word} {others : List (List Word)}
    (h : runs s.words = run :: others) :
    (lowerCamel (pascalCase s.text)).toList =
      run.flatten ++ others.flatMap fun r => pascalWord (r.flatMap pascalWord) := by
  have first := spoken_runs s run (h ▸ List.mem_cons_self)
  simp [lowerCamel, splitWords_pascalCase, h, map_toLower_flatMap_pascalWord first,
    List.flatMap_map]

theorem lowerCamel_pascalCase_iff :
    lowerCamel (pascalCase s.text) = lowerCamel s.text ↔ CasedOnce s := by
  rcases runs_eq_nil_or_cons s with ⟨none, noRuns⟩ | ⟨w, joined, others, hruns, hwords, starts⟩
  · have empty : s = ⟨[], by simp⟩ := by
      obtain ⟨words, spoken⟩ := s
      obtain rfl : words = [] := none
      rfl
    subst empty
    exact ⟨fun _ => ⟨by simp [noRuns], by simp [noRuns]⟩, fun _ => by decide⟩
  · have spoken := spoken_runs s
    rw [hruns] at spoken
    rw [← String.toList_inj, lowerCamel_text s hwords, lowerCamel_pascalCase s hruns,
      List.flatten_cons, List.append_assoc, List.append_right_inj, List.flatMap_append,
      flatMap_flatten, ← List.flatMap_id, append_eq_append_iff (by simp [List.length_flatMap]),
      flatMap_eq_flatMap_iff (by simp), flatMap_eq_flatMap_iff (by simp)]
    have standing : ∀ r ∈ others,
        (pascalWord (r.flatMap pascalWord) = r.flatMap pascalWord ↔
          isAcronym r.flatten = false) := by
      intro r hr
      obtain ⟨v, rest, rfl, hv⟩ := starts r hr
      exact pascalWord_run_of_stands (spoken _ (List.mem_cons_of_mem _ hr)) hv
    have leading : ∀ v ∈ joined, (id v = pascalWord v ↔ opens v = false) := fun v hv =>
      eq_comm.trans (pascalWord_eq_self_iff
        (spoken _ List.mem_cons_self v (List.mem_cons_of_mem w hv)))
    rw [forall₂_congr leading, forall₂_congr standing]
    refine ⟨fun h => ⟨?_, ?_⟩, fun h => ⟨?_, ?_⟩⟩
    · simpa [hruns] using h.1
    · simpa [hruns] using h.2
    · simpa [hruns] using h.leading
    · simpa [hruns] using h.later

/-- Words that begin with a digit are part of no acronym. -/
theorem joined_eq_nil {w : Word} {joined : List Word} (spoken : ∀ v ∈ joined, Spoken v)
    (closed : ∀ v ∈ joined, opens v = false) (h : isAcronym (w :: joined).flatten = true) :
    joined = [] := by
  refine List.eq_nil_iff_forall_not_mem.mpr fun v hv => ?_
  have first := closed v hv
  have small := spoken v hv
  cases v with
  | nil => exact small.1 rfl
  | cons c v =>
      have letter : c.isLower = false := first
      have mem : c ∈ (w :: joined).flatten :=
        List.mem_flatten_of_mem (List.mem_cons_of_mem w hv) List.mem_cons_self
      have lower := isLower_toLower_of_acronym h c mem
      rw [Char.toLower_eq_of_not_isUpper
        (by simp [not_isUpper_of_spoken small c List.mem_cons_self])] at lower
      cases letter.symm.trans lower

theorem pascalCase_pascalCase_of_casedOnce (h : CasedOnce s) :
    pascalCase (pascalCase s.text) = pascalCase s.text := by
  have spoken := spoken_runs s
  have fixed : ∀ r ∈ runs s.words, pascalWord (r.flatMap pascalWord) = r.flatMap pascalWord := by
    intro r hr
    rw [pascalWord_run (spoken r hr)]
    intro acronym
    rcases runs_eq_nil_or_cons s with ⟨-, noRuns⟩ | ⟨w, joined, others, hruns, -, -⟩
    · simp [noRuns] at hr
    · rw [hruns] at hr
      rcases List.mem_cons.mp hr with rfl | hr
      · have closed : ∀ v ∈ joined, opens v = false := by simpa [hruns] using h.leading
        have first := spoken _ (hruns ▸ List.mem_cons_self)
        obtain rfl := joined_eq_nil (fun v hv => first v (List.mem_cons_of_mem w hv)) closed acronym
        have alone : isAcronym w = true := by simpa using acronym
        simp [pascalWord_acronym alone]
      · have later : isAcronym r.flatten = false := by
          have := h.later r
          simp only [hruns, List.tail_cons] at this
          exact this hr
        cases later.symm.trans acronym
  rw [← String.toList_inj, pascalCase, String.toList_ofList, splitWords_pascalCase, List.flatMap_map,
    (flatMap_eq_flatMap_iff (by simp)).mpr fixed, ← flatMap_flatten, flatten_runs, pascalCase,
    splitWords_text, String.toList_ofList]

end Once

/-- A second casing keeps the first exactly for these names; for all ASCII names the runtime cases as
the emitter does. -/
theorem casing_once_iff (s : SnakeName) :
    (lowerCamel (pascalCase s.text) = lowerCamel s.text ∧
        pascalCase (pascalCase s.text) = pascalCase s.text ∧
        ∀ name : String, (∀ c ∈ name.toList, c.toNat < 128) →
          Runtime.pascalCase name = pascalCase name) ↔
      CasedOnce s := by
  rw [lowerCamel_pascalCase_iff]
  refine ⟨And.left, fun h => ⟨h, pascalCase_pascalCase_of_casedOnce s h, fun name _ => ?_⟩⟩
  exact (pascalCase_eq_runtime name).symm

/-- The field `customer_id`. -/
def customerId : SnakeName where
  words := ["customer".toList, "id".toList]
  spoken := by simp [Spoken]

theorem acronym_runs_together :
    ¬ ∀ s : SnakeName, lowerCamel (pascalCase s.text) = lowerCamel s.text ∧
      pascalCase (pascalCase s.text) = pascalCase s.text ∧
      ∀ name : String, (∀ c ∈ name.toList, c.toNat < 128) →
        Runtime.pascalCase name = pascalCase name := by
  intro claim
  have cased := (claim customerId).1
  revert cased
  decide +kernel

end Lazuli.Codegen.Casing
