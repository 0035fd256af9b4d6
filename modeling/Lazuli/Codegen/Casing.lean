import Lazuli.General.CamelCase
import Lazuli.Runtime.Value

/-!
The casing of Go identifiers (`emitter/casing.rs`).

`pascalCase` is the function that the runtime has too; `lowerCamel` differs from it in the first
word. Both write the words of a name in camel case, where an acronym is read letter by letter
and a word with capitals inside stretch by stretch (`nameWords`, `leadingWords`).
-/

namespace Lazuli.Codegen

open Lazuli.Runtime Lazuli.General.CamelCase

/-- The first word is in small letters, also when it is an acronym. -/
def lowerCamel (s : String) : String :=
  match splitWords s with
  | [] => ""
  | word :: rest => String.ofList (word.map Char.toLower ++ rest.flatMap capitalized)

/-! ### The words of a name -/

/-- The stretches from one capital to the next, in small letters. -/
def stretches : List Char → List Word
  | [] => []
  | c :: rest =>
      match stretches rest with
      | [] => [[c.toLower]]
      | w :: ws =>
          if rest.head?.any Char.isUpper then [c.toLower] :: w :: ws
          else (c.toLower :: w) :: ws

def spelled (word : List Char) : List Word :=
  if isAcronym word then word.map fun c => [c.toLower] else stretches word

def nameWords (s : String) : List Word := (splitWords s).flatMap spelled

/-- The first word is left whole. -/
def leadingWords (s : String) : List Word :=
  match splitWords s with
  | [] => []
  | word :: rest => word.map Char.toLower :: rest.flatMap spelled

theorem stretches_cons (c : Char) (rest : List Char) :
    ∃ w ws, stretches (c :: rest) = (c.toLower :: w) :: ws ∧ w ++ upperCamel ws = rest := by
  induction rest generalizing c with
  | nil => exact ⟨[], [], rfl, rfl⟩
  | cons d rest ih =>
      obtain ⟨w, ws, hd, hrest⟩ := ih d
      rw [stretches, hd]
      cases hupper : d.isUpper with
      | true =>
          refine ⟨[], (d.toLower :: w) :: ws, by simp [hupper], ?_⟩
          have hd' : d.toUpper = d :=
            Char.toUpper_eq_of_not_isLower (Char.not_isLower_of_isUpper hupper)
          simp [capital, hd', hrest]
      | false =>
          refine ⟨d.toLower :: w, ws, by simp [hupper], ?_⟩
          simp [Char.toLower_eq_of_not_isUpper (by simp [hupper] : ¬ d.isUpper), hrest]

theorem capitalized_eq_upperCamel (word : List Char) :
    capitalized word = upperCamel (spelled word) := by
  cases word with
  | nil => rfl
  | cons c rest =>
      rw [capitalized, spelled]
      split
      · have letters (s : List Char) :
            upperCamel (s.map fun c => [c.toLower]) = s.map Char.toUpper := by
          induction s with
          | nil => rfl
          | cons d s ih => simp [capital, ih]
        exact (letters (c :: rest)).symm
      · obtain ⟨w, ws, hw, hrest⟩ := stretches_cons c rest
        simp [hw, capital, hrest]

theorem flatMap_capitalized (words : List (List Char)) :
    words.flatMap capitalized = upperCamel (words.flatMap spelled) := by
  induction words with
  | nil => rfl
  | cons word words ih => simp [capitalized_eq_upperCamel, ih]

theorem toList_pascalCase (s : String) : (pascalCase s).toList = upperCamel (nameWords s) := by
  simp [pascalCase, nameWords, flatMap_capitalized]

theorem toList_lowerCamel (s : String) : (lowerCamel s).toList = camel (leadingWords s) := by
  unfold lowerCamel leadingWords
  cases splitWords s with
  | nil => rfl
  | cons word rest => simp [flatMap_capitalized]

/-! ### Names -/

/-- An ASCII letter, and letters, digits and underscores behind it. -/
def isName (s : String) : Bool :=
  s.toList.head?.any Char.isAlpha && s.toList.all fun c => c.isAlphanum || c = '_'

section Splitting

variable {p : Char → Prop} {prev : Option Char} {current rest : List Char}

/-- A word holds characters of the text that are no separators. -/
theorem forall_mem_splitWordsFrom (hcurrent : ∀ c ∈ current, p c)
    (hrest : ∀ c ∈ rest, c ≠ '_' → p c) :
    ∀ w ∈ splitWordsFrom prev current rest, w ≠ [] ∧ ∀ c ∈ w, p c := by
  have flushed {current : List Char} (h : ∀ c ∈ current, p c) :
      ∀ w ∈ flush current, w ≠ [] ∧ ∀ c ∈ w, p c := by
    intro w hw
    cases current with
    | nil => simp [flush] at hw
    | cons c current =>
        obtain rfl : w = c :: current := by simpa [flush] using hw
        exact ⟨List.cons_ne_nil c current, h⟩
  induction rest generalizing prev current with
  | nil => exact flushed hcurrent
  | cons ch rest ih =>
      have tail : ∀ c ∈ rest, c ≠ '_' → p c := fun c hc => hrest c (List.mem_cons_of_mem ch hc)
      have pushed (h : ¬ (ch = '_' ∨ ch = '-')) : ∀ c ∈ current ++ [ch], p c := by
        intro c hc
        rcases List.mem_append.mp hc with hc | hc
        · exact hcurrent c hc
        · obtain rfl := List.mem_singleton.mp hc
          exact hrest c List.mem_cons_self fun same => h (.inl same)
      rw [splitWordsFrom]
      split
      · intro w hw
        rcases List.mem_append.mp hw with hw | hw
        · exact flushed hcurrent w hw
        · exact ih (by simp) tail w hw
      · rename_i hsep
        split
        · dsimp only
          split
          · split
            · exact ih (pushed hsep) tail
            · intro w hw
              rcases List.mem_append.mp hw with hw | hw
              · exact flushed hcurrent w hw
              · refine ih (fun c hc => ?_) tail w hw
                exact pushed hsep c (List.mem_append_right _ hc)
          · exact ih (pushed hsep) tail
        · exact ih (pushed hsep) tail

/-- The word that is being built comes first. -/
theorem head_splitWordsFrom (prev : Option Char) (rest : List Char) (h : current ≠ []) :
    ∃ w ws, splitWordsFrom prev current rest = w :: ws ∧ w.head? = current.head? := by
  induction rest generalizing prev current with
  | nil => exact ⟨current, [], by rw [splitWordsFrom, flush_eq h], rfl⟩
  | cons ch rest ih =>
      have pushed : ∃ w ws, splitWordsFrom (some ch) (current ++ [ch]) rest = w :: ws ∧
          w.head? = current.head? := by
        obtain ⟨w, ws, hsplit, hhead⟩ := ih (some ch) (List.concat_ne_nil ch current)
        refine ⟨w, ws, hsplit, hhead.trans ?_⟩
        cases current with
        | nil => exact absurd rfl h
        | cons c current => rfl
      rw [splitWordsFrom, flush_eq h]
      split
      · exact ⟨current, _, rfl, rfl⟩
      · split
        · dsimp only
          split
          · split
            · exact pushed
            · exact ⟨current, _, rfl, rfl⟩
          · exact pushed
        · exact pushed

end Splitting

section Speakable

variable {c : Char} {s : String} {word : List Char}

theorem lower_or_digit_toLower (h : c.isAlphanum = true) :
    c.toLower.isLower = true ∨ c.toLower.isDigit = true := by
  rcases (Bool.or_eq_true _ _).mp h with alpha | digit
  · exact .inl ((Char.isLower_toLower_eq_isAlpha c).trans alpha)
  · have hc : ¬ c.isUpper := by
      simp only [Char.isDigit, Char.isUpper, Bool.and_eq_true, decide_eq_true_eq] at *
      grind
    exact .inr (by rwa [Char.toLower_eq_of_not_isUpper hc])

theorem mem_stretches (s : List Char) :
    ∀ w ∈ stretches s, w ≠ [] ∧ ∀ d ∈ w, ∃ c ∈ s, d = c.toLower := by
  induction s with
  | nil => simp [stretches]
  | cons c s ih =>
      have later {d : Char} (h : ∃ e ∈ s, d = e.toLower) : ∃ e ∈ c :: s, d = e.toLower :=
        h.imp fun _ he => ⟨List.mem_cons_of_mem c he.1, he.2⟩
      rw [stretches]
      split
      · simp
      · rename_i w ws hs
        rw [hs] at ih
        have first : ∀ d ∈ w, ∃ e ∈ c :: s, d = e.toLower :=
          fun d hd => later ((ih w List.mem_cons_self).2 d hd)
        have others : ∀ v ∈ ws, v ≠ [] ∧ ∀ d ∈ v, ∃ e ∈ c :: s, d = e.toLower :=
          fun v hv => (ih v (List.mem_cons_of_mem w hv)).imp id fun h d hd => later (h d hd)
        split
        · intro v hv
          rcases List.mem_cons.mp hv with rfl | hv
          · simp
          · rcases List.mem_cons.mp hv with rfl | hv
            · exact ⟨(ih v List.mem_cons_self).1, first⟩
            · exact others v hv
        · intro v hv
          rcases List.mem_cons.mp hv with rfl | hv
          · refine ⟨List.cons_ne_nil _ _, fun d hd => ?_⟩
            rcases List.mem_cons.mp hd with rfl | hd
            · exact ⟨c, List.mem_cons_self, rfl⟩
            · exact first d hd
          · exact others v hv

theorem spoken_spelled (h : ∀ c ∈ word, c.isAlphanum = true) : ∀ w ∈ spelled word, Spoken w := by
  intro w hw
  unfold spelled at hw
  split at hw
  · obtain ⟨c, hc, rfl⟩ := List.mem_map.mp hw
    refine ⟨List.cons_ne_nil _ _, fun d hd => ?_⟩
    obtain rfl := List.mem_singleton.mp hd
    exact lower_or_digit_toLower (h c hc)
  · obtain ⟨hne, hchars⟩ := mem_stretches word w hw
    refine ⟨hne, fun d hd => ?_⟩
    obtain ⟨c, hc, rfl⟩ := hchars d hd
    exact lower_or_digit_toLower (h c hc)

theorem opens_spelled (h : word.head?.any Char.isAlpha = true) :
    ∃ w ws, spelled word = w :: ws ∧ opens w = true := by
  cases word with
  | nil => cases h
  | cons c rest =>
      have hc : c.toLower.isLower = true := (Char.isLower_toLower_eq_isAlpha c).trans h
      rw [spelled]
      split
      · exact ⟨[c.toLower], rest.map fun c => [c.toLower], rfl, hc⟩
      · obtain ⟨w, ws, hw, -⟩ := stretches_cons c rest
        exact ⟨c.toLower :: w, ws, hw, hc⟩

/-- The characters of a name that are no underscores. -/
theorem isAlphanum_of_splitWords (h : (s.toList.all fun c => c.isAlphanum || c = '_') = true) :
    ∀ w ∈ splitWords s, w ≠ [] ∧ ∀ c ∈ w, c.isAlphanum = true := by
  refine forall_mem_splitWordsFrom (by simp) fun c hc hsep => ?_
  simpa [hsep] using List.all_eq_true.mp h c hc

theorem spoken_nameWords (h : (s.toList.all fun c => c.isAlphanum || c = '_') = true) :
    ∀ w ∈ nameWords s, Spoken w := by
  intro w hw
  obtain ⟨word, hword, hw⟩ := List.mem_flatMap.mp hw
  exact spoken_spelled (isAlphanum_of_splitWords h word hword).2 w hw

theorem isName_iff : isName s = true ↔ s.toList.head?.any Char.isAlpha = true ∧
    (s.toList.all fun c => c.isAlphanum || c = '_') = true :=
  Bool.and_eq_true_iff

theorem head_splitWords (h : isName s = true) :
    ∃ word rest, splitWords s = word :: rest ∧ word.head?.any Char.isAlpha = true := by
  obtain ⟨hhead, -⟩ := isName_iff.mp h
  unfold splitWords
  cases hs : s.toList with
  | nil => simp [hs] at hhead
  | cons c rest =>
      have hc : c.isAlpha = true := by simpa [hs] using hhead
      have hsep : ¬ (c = '_' ∨ c = '-') := by
        rintro (rfl | rfl)
        · exact absurd hc (by decide)
        · exact absurd hc (by decide)
      have started : splitWordsFrom none [] (c :: rest) = splitWordsFrom (some c) [c] rest := by
        simp [splitWordsFrom, hsep]
      obtain ⟨word, words, hsplit, hword⟩ :=
        head_splitWordsFrom (some c) rest (List.cons_ne_nil c [])
      exact ⟨word, words, started.trans hsplit, by simpa [hword] using hc⟩

theorem nameWords_ne_nil (h : isName s = true) : nameWords s ≠ [] := by
  obtain ⟨word, rest, hsplit, hword⟩ := head_splitWords h
  obtain ⟨w, ws, hspelled, -⟩ := opens_spelled hword
  simp [nameWords, hsplit, hspelled]

theorem speakable_nameWords (h : isName s = true) : Speakable (nameWords s) where
  spoken := spoken_nameWords (isName_iff.mp h).2
  first := by
    obtain ⟨word, rest, hsplit, hword⟩ := head_splitWords h
    obtain ⟨w, ws, hspelled, hw⟩ := opens_spelled hword
    simp [nameWords, hsplit, hspelled, hw]

theorem leadingWords_ne_nil (h : isName s = true) : leadingWords s ≠ [] := by
  obtain ⟨word, rest, hsplit, -⟩ := head_splitWords h
  simp [leadingWords, hsplit]

theorem speakable_leadingWords (h : isName s = true) : Speakable (leadingWords s) := by
  obtain ⟨word, rest, hsplit, hword⟩ := head_splitWords h
  have chars := isAlphanum_of_splitWords (isName_iff.mp h).2
  rw [hsplit] at chars
  rw [leadingWords, hsplit]
  constructor
  · intro w hw
    rcases List.mem_cons.mp hw with rfl | hw
    · refine ⟨by simpa using (chars word List.mem_cons_self).1, fun d hd => ?_⟩
      obtain ⟨c, hc, rfl⟩ := List.mem_map.mp hd
      exact lower_or_digit_toLower ((chars word List.mem_cons_self).2 c hc)
    · obtain ⟨v, hv, hw⟩ := List.mem_flatMap.mp hw
      exact spoken_spelled (chars v (List.mem_cons_of_mem word hv)).2 w hw
  · cases word with
    | nil => cases hword
    | cons c word =>
        simpa [opens] using hword

/-- What `pascalCase` makes of a name is a name again. -/
theorem isName_pascalCase (h : isName s = true) : isName (pascalCase s) = true := by
  have words := speakable_nameWords h
  rw [isName_iff, toList_pascalCase]
  constructor
  · obtain ⟨word, rest, hsplit, hword⟩ := head_splitWords h
    obtain ⟨w, ws, hspelled, hw⟩ := opens_spelled hword
    have hwords : nameWords s = w :: (ws ++ rest.flatMap spelled) := by
      simp [nameWords, hsplit, hspelled]
    rw [hwords]
    cases w with
    | nil => cases hw
    | cons c w =>
        have lower : c.isLower = true := hw
        simp [capital, Char.isAlpha, lower]
  · refine List.all_eq_true.mpr fun c hc => ?_
    simp [isAlphanum_of_mem_upperCamel words.spoken c hc]

end Speakable

end Lazuli.Codegen
