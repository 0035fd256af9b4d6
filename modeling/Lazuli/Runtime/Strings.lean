import Mathlib.Data.List.DropRight
import Lazuli.General.GoDuration

/-!
The text functions of the Go library that the runtime reads literals and headers with, over
characters.

`atoi` is described for positive numbers, which is all its callers go on with (`numeral_of_atoi`,
`atoi_numeral`).
-/

namespace Lazuli.Runtime.Strings

open Lazuli.General

/-- `unicode.IsSpace`. -/
def isSpace (c : Char) : Bool :=
  c ∈ ['\t', '\n', '\x0b', '\x0c', '\r', ' ', '\u0085', '\u00a0', '\u1680', '\u2028', '\u2029',
    '\u202f', '\u205f', '\u3000'] || '\u2000' ≤ c && c ≤ '\u200a'

/-- `strings.Fields`. -/
def fields (s : List Char) : List (List Char) := (s.splitOnP isSpace).filter (· ≠ [])

/-- The text without the characters of a set at both its ends (`strings.TrimFunc`). -/
def trimFunc (p : Char → Bool) (s : List Char) : List Char := (s.dropWhile p).rdropWhile p

/-- `strings.TrimSpace`. -/
def trimSpace : List Char → List Char := trimFunc isSpace

/-- Trimming takes characters of the set away, at both ends. -/
theorem trimFunc_decomposition (p : Char → Bool) (s : List Char) :
    ∃ a b, s = a ++ (trimFunc p s ++ b) ∧ (∀ c ∈ a, p c = true) ∧ ∀ c ∈ b, p c = true := by
  refine ⟨s.takeWhile p, (s.dropWhile p).rtakeWhile p, ?_, fun c => List.mem_takeWhile_imp,
    fun c => List.mem_rtakeWhile_imp⟩
  rw [trimFunc, List.rdropWhile_append_rtakeWhile, List.takeWhile_append_dropWhile]

theorem mem_trimFunc {p : Char → Bool} {s : List Char} {c : Char} (mem : c ∈ s)
    (kept : p c = false) : c ∈ trimFunc p s := by
  obtain ⟨a, b, split, front, back⟩ := trimFunc_decomposition p s
  rw [split, List.mem_append, List.mem_append] at mem
  rcases mem with mem | mem | mem
  · rw [front c mem] at kept
    cases kept
  · exact mem
  · rw [back c mem] at kept
    cases kept

theorem dropWhile_eq_self {p : Char → Bool} {s : List Char} (h : ∀ c ∈ s, p c = false) :
    s.dropWhile p = s := by
  cases s with
  | nil => rfl
  | cons c s => rw [List.dropWhile_cons_of_neg (by simp [h c List.mem_cons_self])]

/-- A text without characters of the set is what is left of it between such characters. -/
theorem trimFunc_append {p : Char → Bool} {a s b : List Char} (front : ∀ c ∈ a, p c = true)
    (h : ∀ c ∈ s, p c = false) (back : ∀ c ∈ b, p c = true) : trimFunc p (a ++ (s ++ b)) = s := by
  have reversed : (s ++ b).rdropWhile p = s := by
    rw [List.rdropWhile, List.reverse_append, List.dropWhile_append_of_pos, dropWhile_eq_self,
      List.reverse_reverse]
    · exact fun c mem => h c (List.mem_reverse.mp mem)
    · exact fun c mem => back c (List.mem_reverse.mp mem)
  rw [trimFunc, List.dropWhile_append_of_pos front]
  cases s with
  | nil =>
      rw [List.nil_append, List.dropWhile_eq_nil_iff.mpr back]
      rfl
  | cons c s =>
      rw [List.cons_append, List.dropWhile_cons_of_neg (by simp [h c List.mem_cons_self]),
        ← List.cons_append]
      exact reversed

theorem head_trimFunc {p : Char → Bool} {s : List Char} :
    ∀ c ∈ (trimFunc p s).head?, p c = false := by
  intro c first
  obtain ⟨t, split⟩ : trimFunc p s <+: s.dropWhile p := List.rdropWhile_prefix _ _
  have head : (s.dropWhile p).head? = some c := by
    rw [← split, List.head?_append, first, Option.some_or]
  have kept := List.head?_dropWhile_not p s
  rw [head] at kept
  simpa using kept

/-- `strings.TrimSuffix`. -/
def trimSuffix (s tail : List Char) : List Char :=
  if tail <:+ s then s.take (s.length - tail.length) else s

theorem trimSuffix_append (s tail : List Char) : trimSuffix (s ++ tail) tail = s := by
  rw [trimSuffix, if_pos (List.suffix_append s tail), List.length_append, Nat.add_sub_cancel,
    List.take_left']
  rfl

/-- What is left is a word without the ending when the text is that word, or the word and the
ending. -/
theorem trimSuffix_eq_iff {s tail word : List Char} (h : ¬ tail <:+ word) :
    trimSuffix s tail = word ↔ s = word ∨ s = word ++ tail := by
  constructor
  · intro trimmed
    by_cases ends : tail <:+ s
    · obtain ⟨front, rfl⟩ := ends
      rw [trimSuffix_append] at trimmed
      exact .inr (trimmed ▸ rfl)
    · rw [trimSuffix, if_neg ends] at trimmed
      exact .inl trimmed
  · rintro (rfl | rfl)
    · rw [trimSuffix, if_neg h]
    · exact trimSuffix_append word tail

/-- No piece has the separator in it. -/
theorem notMem_of_mem_splitOn {α : Type*} [BEq α] [LawfulBEq α] {a : α} {s piece : List α}
    (h : piece ∈ s.splitOn a) : a ∉ piece := by
  induction s generalizing piece with
  | nil =>
      rw [List.splitOn_nil, List.mem_singleton] at h
      exact h ▸ List.not_mem_nil
  | cons x s ih =>
      rw [List.splitOn_cons_eq_if_modifyHead] at h
      split at h
      case isTrue =>
        rcases List.mem_cons.mp h with rfl | h
        · exact List.not_mem_nil
        · exact ih h
      case isFalse ne =>
        cases split : s.splitOn a with
        | nil => exact absurd split (List.splitOn_ne_nil a s)
        | cons first rest =>
            rw [split, List.modifyHead_cons] at h
            rcases List.mem_cons.mp h with rfl | h
            · rw [List.mem_cons, not_or]
              exact ⟨fun same => ne (same ▸ beq_self_eq_true a),
                ih (split ▸ List.mem_cons_self)⟩
            · exact ih (split ▸ List.mem_cons_of_mem first h)

/-! ### Words -/

theorem fields_cons_of_isSpace {c : Char} (h : isSpace c = true) (s : List Char) :
    fields (c :: s) = fields s := by
  rw [fields, List.splitOnP_cons_eq_if_modifyHead, if_pos h,
    List.filter_cons_of_neg (by simp), fields]

/-- The first word, and what follows it. -/
theorem fields_word_append {word rest : List Char} (ne : word ≠ [])
    (h : ∀ c ∈ word, isSpace c = false) (apart : ∀ c ∈ rest.head?, isSpace c = true) :
    fields (word ++ rest) = word :: fields rest := by
  cases rest with
  | nil =>
      rw [List.append_nil, fields, List.splitOnP_eq_singleton fun c mem => by simp [h c mem],
        List.filter_cons_of_pos (by simpa using ne)]
      rfl
  | cons d rest =>
      have space := apart d rfl
      rw [fields_cons_of_isSpace space, fields, List.splitOnP_append_cons_of_forall_mem h d space,
        List.filter_cons_of_pos (by simpa using ne), fields]

/-- A text that starts with a character of a word starts with that word. -/
theorem fields_of_head {s : List Char} (head : ∃ c ∈ s.head?, isSpace c = false) :
    fields s = s.takeWhile (!isSpace ·) :: fields (s.dropWhile (!isSpace ·)) := by
  have ne : s.takeWhile (!isSpace ·) ≠ [] := by
    obtain ⟨c, first, kept⟩ := head
    obtain ⟨t, rfl⟩ := List.head?_eq_some_iff.mp first
    rw [List.takeWhile_cons_of_pos (by simp [kept])]
    exact List.cons_ne_nil _ _
  have apart : ∀ d ∈ (s.dropWhile (!isSpace ·)).head?, isSpace d = true := by
    intro d first
    have cut := List.head?_dropWhile_not (!isSpace ·) s
    rw [Option.mem_def.mp first] at cut
    simpa using cut
  rw [← fields_word_append ne (fun d mem => by simpa using List.mem_takeWhile_imp mem) apart,
    List.takeWhile_append_dropWhile]

/-- The words stand in the text in their order, with white space before each. -/
theorem fields_eq_cons {s word : List Char} {words : List (List Char)}
    (h : fields s = word :: words) :
    ∃ gap rest, s = gap ++ (word ++ rest) ∧ (∀ c ∈ gap, isSpace c = true) ∧
      (∀ c ∈ word, isSpace c = false) ∧ fields rest = words := by
  induction s with
  | nil => cases h
  | cons c s ih =>
      cases space : isSpace c with
      | true =>
          rw [fields_cons_of_isSpace space] at h
          obtain ⟨gap, rest, rfl, spaces, kept, others⟩ := ih h
          exact ⟨c :: gap, rest, rfl, List.forall_mem_cons.mpr ⟨space, spaces⟩, kept, others⟩
      | false =>
          rw [fields_of_head ⟨c, rfl, space⟩] at h
          obtain ⟨rfl, rfl⟩ := List.cons.inj h
          exact ⟨[], _, List.takeWhile_append_dropWhile.symm, by simp,
            fun d mem => by simpa using List.mem_takeWhile_imp mem, rfl⟩

theorem isSpace_of_fields_eq_nil {s : List Char} (h : fields s = []) :
    ∀ c ∈ s, isSpace c = true := by
  induction s with
  | nil => simp
  | cons c s ih =>
      cases space : isSpace c with
      | true =>
          rw [fields_cons_of_isSpace space] at h
          exact List.forall_mem_cons.mpr ⟨space, ih h⟩
      | false =>
          rw [fields_of_head ⟨c, rfl, space⟩] at h
          cases h

/-! ### Integers -/

/-- Whether a number is negative, and its digits. -/
def signed : List Char → Bool × List Char
  | '-' :: digits => (true, digits)
  | '+' :: digits => (false, digits)
  | digits => (false, digits)

/-- `strconv.Atoi`, on a platform with 64-bit integers. -/
def atoi (s : List Char) : Option Int :=
  let digits := (signed s).2
  if digits ≠ [] ∧ digits.all Char.isDigit then
    let magnitude : Int := Nat.ofDigitChars 10 digits 0
    let n := if (signed s).1 then -magnitude else magnitude
    if minDuration ≤ n ∧ n ≤ maxDuration then some n else none
  else none

/-- The text is the number `n` in decimal, with or without a plus sign. -/
def Numeral (s : List Char) (n : Nat) : Prop :=
  ∃ digits, (s = digits ∨ s = '+' :: digits) ∧ digits ≠ [] ∧ digits.all Char.isDigit = true ∧
    Nat.ofDigitChars 10 digits 0 = n

theorem signed_of_digits {digits : List Char} (h : digits.all Char.isDigit = true) :
    signed digits = (false, digits) := by
  unfold signed
  split
  case h_1 => simp at h
  case h_2 => simp at h
  case h_3 => rfl

theorem signed_numeral {s : List Char} {n : Nat} (h : Numeral s n) :
    (signed s).1 = false ∧ (signed s).2 ≠ [] ∧ (signed s).2.all Char.isDigit = true ∧
      Nat.ofDigitChars 10 (signed s).2 0 = n := by
  obtain ⟨digits, rfl | rfl, ne, all, value⟩ := h
  · rw [signed_of_digits all]
    exact ⟨rfl, ne, all, value⟩
  · exact ⟨rfl, ne, all, value⟩

theorem Numeral.unique {s : List Char} {m n : Nat} (hm : Numeral s m) (hn : Numeral s n) :
    m = n :=
  (signed_numeral hm).2.2.2.symm.trans (signed_numeral hn).2.2.2

/-- A numeral is read unless it is too large. -/
theorem atoi_numeral {s : List Char} {n : Nat} (h : Numeral s n) :
    atoi s = if (n : Int) ≤ maxDuration then some (n : Int) else none := by
  obtain ⟨sign, ne, all, value⟩ := signed_numeral h
  have low : minDuration ≤ (n : Int) := by unfold minDuration; omega
  simp only [atoi, sign, value]
  rw [if_pos ⟨ne, all⟩]
  simp [low]

/-- A positive number was read from a numeral. -/
theorem numeral_of_atoi {s : List Char} {n : Int} (h : atoi s = some n) (pos : 0 < n) :
    ∃ m : Nat, Numeral s m ∧ n = m ∧ n ≤ maxDuration := by
  obtain ⟨⟨ne, all⟩, h⟩ := Option.ite_none_right_eq_some.mp h
  obtain ⟨range, value⟩ := Option.ite_none_right_eq_some.mp h
  rw [Option.some.inj value] at range
  have value := Option.some.inj value
  cases sign : (signed s).1 with
  | true =>
      rw [sign, if_pos rfl] at value
      omega
  | false =>
      rw [sign, if_neg Bool.false_ne_true] at value
      refine ⟨Nat.ofDigitChars 10 (signed s).2 0, ⟨(signed s).2, ?_, ne, all, rfl⟩, value.symm,
        range.2⟩
      unfold signed at sign ⊢
      split
      case h_1 => cases sign
      case h_2 => exact .inr rfl
      case h_3 => exact .inl rfl

end Lazuli.Runtime.Strings
