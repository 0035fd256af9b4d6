import Lazuli.General.Replace
import Mathlib

/-!
The redaction of log texts (`runtime/go/lazuli/observability/redactor.go`).

The patterns of a catalogue are replaced one after the other, each by its mask. A mask can bring up
a match of a pattern, its own or one that was replaced before, where it overlaps a text that the
pattern matches. In the catalogue of the runtime no mask does: every match ends in a letter or a
digit, and no mask has one, while every mask ends in an asterisk, and no match has one.
-/

namespace Lazuli.Runtime.Redactor

open General Pattern

abbrev Text := List Char

/-- A regular expression and what is put in place of its matches, as it is. -/
structure PiiPattern where
  regex : Pattern Char
  mask : Text

def redact (catalogue : List PiiPattern) (text : Text) : Text :=
  catalogue.foldl (fun out p => p.regex.replaceAll p.mask out) text

/-! ### The catalogue -/

def isLetter (c : Char) : Bool := c.isAlpha

def isDomain (c : Char) : Bool := c.isAlphanum || c = '.' || c = '-'

def isLocal (c : Char) : Bool := c.isAlphanum || c ∈ ['.', '_', '%', '+', '-']

def digits (n : Nat) : Run Char := ⟨Char.isDigit, n, some n⟩

def char (c : Char) : Run Char := ⟨(· = c), 1, some 1⟩

/-- `[..]+`. -/
def oneOrMore (accepts : Char → Bool) : Run Char := ⟨accepts, 1, none⟩

/-- ` ?`. -/
def blank : Run Char := ⟨(· = ' '), 0, some 1⟩

def cpf : PiiPattern where
  regex := ofRuns [digits 3, char '.', digits 3, char '.', digits 3, char '-'] (digits 2)
    Nat.two_pos
  mask := "***.***.***-**".toList

def cnpj : PiiPattern where
  regex := ofRuns [digits 2, char '.', digits 3, char '.', digits 3, char '/', digits 4, char '-']
    (digits 2) Nat.two_pos
  mask := "**.***.***/****-**".toList

def phone : PiiPattern where
  regex := ofRuns [char '(', digits 2, char ')', char ' ', ⟨Char.isDigit, 4, some 5⟩,
    char '-'] (digits 4) (Nat.succ_pos 3)
  mask := "(**) *****-****".toList

def email : PiiPattern where
  regex := ofRuns [oneOrMore isLocal, char '@', oneOrMore isDomain, char '.'] ⟨isLetter, 2, none⟩
    Nat.two_pos
  mask := "***@***.***".toList

def card : PiiPattern where
  regex := ofRuns [digits 4, blank, digits 4, blank, digits 4, blank] (digits 4) (Nat.succ_pos 3)
  mask := "**** **** **** ****".toList

def piiPatterns : List PiiPattern := [cpf, cnpj, phone, email, card]

/-! ### Catalogues whose masks bring nothing up -/

/-- No mask overlaps a text that a pattern matches. -/
def Inert (catalogue : List PiiPattern) : Prop :=
  ∀ p ∈ catalogue, ∀ q ∈ catalogue, ∀ w, p.regex.Word w → ¬ Overlaps w q.mask

section Redact

variable {catalogue : List PiiPattern} {p : PiiPattern} {text : Text}

/-- What has no match of a pattern keeps none. -/
theorem free_redact (hinert : ∀ q ∈ catalogue, ∀ w, p.regex.Word w → ¬ Overlaps w q.mask)
    (h : p.regex.Free text) : p.regex.Free (redact catalogue text) := by
  induction catalogue generalizing text with
  | nil => exact h
  | cons q catalogue ih =>
      exact ih (fun r hr => hinert r (List.mem_cons_of_mem _ hr))
        (free_replaceAll (hinert q List.mem_cons_self) (.inl h))

/-- Every pattern is gone in the end. -/
theorem redact_free (hinert : Inert catalogue) (hp : p ∈ catalogue) :
    p.regex.Free (redact catalogue text) := by
  obtain ⟨before, behind, rfl⟩ := List.append_of_mem hp
  have masks : ∀ q ∈ before ++ p :: behind, ∀ w, p.regex.Word w → ¬ Overlaps w q.mask :=
    fun q hq => hinert p hp q hq
  rw [redact, List.foldl_append, List.foldl_cons]
  refine free_redact (fun q hq => masks q (by simp [hq])) ?_
  exact free_replaceAll (masks p (by simp)) (.inr rfl)

/-- Where no pattern matches, nothing is replaced. -/
theorem redact_of_free (h : ∀ p ∈ catalogue, p.regex.Free text) : redact catalogue text = text := by
  induction catalogue with
  | nil => rfl
  | cons q catalogue ih =>
      rw [redact, List.foldl_cons, replaceAll_of_free (h q List.mem_cons_self)]
      exact ih fun p hp => h p (List.mem_cons_of_mem _ hp)

end Redact

/-! ### The masks of the catalogue -/

/-- Texts that end in a letter or a digit and have no asterisk. -/
def Plain (w : Text) : Prop :=
  (∃ front c, w = front ++ [c] ∧ c.isAlphanum = true) ∧ '*' ∉ w

/-- Texts that end in an asterisk and have no letter or digit. -/
def Starred (mask : Text) : Prop :=
  mask.getLast? = some '*' ∧ ∀ c ∈ mask, c.isAlphanum = false

theorem not_overlaps {w mask : Text} (hw : Plain w) (hmask : Starred mask) :
    ¬ Overlaps w mask := by
  obtain ⟨⟨front, c, rfl, hc⟩, hstar⟩ := hw
  obtain ⟨hlast, hsilent⟩ := hmask
  have star : '*' ∈ mask := List.mem_of_getLast? hlast
  have silent : c ∉ mask := fun hmem => by
    rw [hsilent c hmem] at hc
    cases hc
  rintro (inside | inside | ⟨m, hne, ⟨hstart, hend⟩ | ⟨hend, hstart⟩⟩)
  · exact silent (inside.subset (by simp))
  · exact hstar (inside.subset star)
  · obtain ⟨front', last, rfl⟩ := (List.eq_nil_or_concat' m).resolve_left hne
    obtain ⟨rest, split⟩ := hend
    have same : last = c := by simpa using congrArg List.getLast? split
    exact silent (hstart.subset (by simp [same]))
  · obtain ⟨front', last, rfl⟩ := (List.eq_nil_or_concat' m).resolve_left hne
    obtain ⟨rest, rfl⟩ := hend
    have same : last = '*' := by simpa using hlast
    exact hstar (hstart.subset (by simp [same]))

theorem plain_of_spells {runs : List (Run Char)} {run : Run Char} {w : Text}
    (hleast : 0 < run.least) (hlast : ∀ c, run.accepts c = true → c.isAlphanum = true)
    (hstar : ∀ r ∈ runs ++ [run], r.accepts '*' = false) (h : Spells (runs ++ [run]) w) :
    Plain w := by
  obtain ⟨front, c, hw, hc⟩ := h.getLast hleast
  refine ⟨⟨front, c, hw, hlast c hc⟩, fun hmem => ?_⟩
  obtain ⟨r, hr, haccepts⟩ := h.accepted '*' hmem
  rw [hstar r hr] at haccepts
  cases haccepts

theorem isAlphanum_of_isDigit {c : Char} (h : c.isDigit = true) : c.isAlphanum = true := by
  rw [Char.isAlphanum, h, Bool.or_true]

theorem isAlphanum_of_isLetter {c : Char} (h : isLetter c = true) : c.isAlphanum = true := by
  rw [isLetter] at h
  rw [Char.isAlphanum, h, Bool.true_or]

theorem plain_of_word {p : PiiPattern} (hp : p ∈ piiPatterns) {w : Text}
    (hw : p.regex.Word w) : Plain w := by
  simp only [piiPatterns, List.mem_cons, List.not_mem_nil, or_false] at hp
  rcases hp with rfl | rfl | rfl | rfl | rfl
  · exact plain_of_spells Nat.two_pos (fun _ => isAlphanum_of_isDigit) (by decide) hw
  · exact plain_of_spells Nat.two_pos (fun _ => isAlphanum_of_isDigit) (by decide) hw
  · exact plain_of_spells (Nat.succ_pos 3) (fun _ => isAlphanum_of_isDigit) (by decide) hw
  · exact plain_of_spells Nat.two_pos (fun _ => isAlphanum_of_isLetter) (by decide) hw
  · exact plain_of_spells (Nat.succ_pos 3) (fun _ => isAlphanum_of_isDigit) (by decide) hw

theorem starred_mask : ∀ q ∈ piiPatterns, Starred q.mask := by
  simp [piiPatterns, cpf, cnpj, phone, email, card, Starred, Char.isAlphanum, Char.isAlpha,
    Char.isUpper, Char.isLower, Char.isDigit]

theorem inert_piiPatterns : Inert piiPatterns := fun _ hp q hq _ hw =>
  not_overlaps (plain_of_word hp hw) (starred_mask q hq)

/-- Where no mask overlaps a match, a redacted text has no match of any pattern and stays as it is
when it is redacted again. The catalogue of the runtime is such. -/
theorem redact_complete :
    (∀ catalogue, Inert catalogue → ∀ text,
      (∀ p ∈ catalogue, p.regex.Free (redact catalogue text)) ∧
      redact catalogue (redact catalogue text) = redact catalogue text) ∧
    Inert piiPatterns := by
  refine ⟨fun catalogue hinert text => ?_, inert_piiPatterns⟩
  have free : ∀ p ∈ catalogue, p.regex.Free (redact catalogue text) := fun p hp =>
    redact_free hinert hp
  exact ⟨free, redact_of_free free⟩

/-- A pattern that is its own mask. -/
theorem mask_matches : ¬ ∀ (catalogue : List PiiPattern) (text : Text),
    (∀ p ∈ catalogue, p.regex.Free (redact catalogue text)) ∧
    redact catalogue (redact catalogue text) = redact catalogue text := by
  intro h
  have free := (h [⟨literal ['a'] (by decide), ['a']⟩] ['a']).1 _ List.mem_cons_self
  exact free ['a'] rfl (List.infix_refl _)

end Lazuli.Runtime.Redactor
