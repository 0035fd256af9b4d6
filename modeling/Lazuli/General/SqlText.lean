import Lazuli.General.Text

/-!
The placeholders of a SQL text.

A placeholder is a dollar sign with a number behind it, outside of quotes. `Yields p ks` says that
the placeholders of a piece of text are `ks` wherever it stands, when no digit follows it; `Quiet p`
that it has none and leaves no quote open. Texts are put together of such pieces.
-/

namespace Lazuli.General.SqlText

/-- Quotes of names, and of texts. -/
def isQuote (c : Char) : Bool := c = '"' || c = '\''

/-- The number at the front. -/
def number (s : List Char) : List Nat :=
  if s.takeWhile Char.isDigit = [] then []
  else [Nat.ofDigitChars 10 (s.takeWhile Char.isDigit) 0]

/-- A digit opens no quote and no placeholder. -/
theorem plain_of_isDigit {c : Char} (digit : c.isDigit = true) : isQuote c = false ∧ c ≠ '$' := by
  constructor
  · rw [isQuote, Bool.or_eq_false_iff, decide_eq_false_iff_not, decide_eq_false_iff_not]
    constructor <;> rintro rfl <;> cases digit
  · rintro rfl
    cases digit

/-- The placeholders of a text, when the given quote is open. -/
def placeholders : Option Char → List Char → List Nat
  | _, [] => []
  | some q, c :: s => placeholders (if c = q then none else some q) s
  | none, c :: s =>
      if isQuote c then placeholders (some c) s
      else if c = '$' then number s ++ placeholders none s
      else placeholders none s

/-! ### Texts without placeholders -/

def Quiet (p : List Char) : Prop := ∀ s, placeholders none (p ++ s) = placeholders none s

namespace Quiet

variable {p p' : List Char}

theorem nil : Quiet [] := fun _ => rfl

theorem append (h : Quiet p) (h' : Quiet p') : Quiet (p ++ p') := by
  intro s
  rw [List.append_assoc, h, h']

theorem plain (h : ∀ c ∈ p, isQuote c = false ∧ c ≠ '$') : Quiet p := by
  induction p with
  | nil => exact nil
  | cons c p ih =>
      intro s
      obtain ⟨unquoted, sign⟩ := h c List.mem_cons_self
      have rest := ih (fun d hd => h d (List.mem_cons_of_mem c hd)) s
      rw [List.cons_append, placeholders, unquoted, if_neg Bool.false_ne_true, if_neg sign, rest]

theorem placeholders_open {q : Char} (h : q ∉ p) (s : List Char) :
    placeholders (some q) (p ++ q :: s) = placeholders none s := by
  induction p with
  | nil => rw [List.nil_append, placeholders, if_pos rfl]
  | cons c p ih =>
      obtain ⟨other, rest⟩ := not_or.mp (mt List.mem_cons.mpr h)
      rw [List.cons_append, placeholders, if_neg (Ne.symm other), ih rest]

/-- Whatever stands between quotes. -/
theorem quoted {q : Char} (quote : isQuote q = true) (h : q ∉ p) : Quiet (q :: (p ++ [q])) := by
  intro s
  rw [List.cons_append, placeholders, if_pos quote, List.append_assoc]
  exact placeholders_open h s

theorem intercalate {sep : List Char} {pieces : List (List Char)} (hsep : Quiet sep)
    (h : ∀ piece ∈ pieces, Quiet piece) : Quiet (sep.intercalate pieces) := by
  induction pieces with
  | nil => exact nil
  | cons piece pieces ih =>
      have first := h piece List.mem_cons_self
      have rest := ih fun p hp => h p (List.mem_cons_of_mem piece hp)
      by_cases last : pieces = []
      · rw [last, List.intercalate_singleton]
        exact first
      · rw [List.intercalate_cons_of_ne_nil last]
        exact (first.append hsep).append rest

end Quiet

/-! ### Texts with placeholders -/

/-- No digit stands at the front. -/
def Apart (s : List Char) : Prop := ∀ c ∈ s.head?, c.isDigit = false

theorem Apart.append {p s : List Char} (hp : Apart p) (hs : Apart s) : Apart (p ++ s) := by
  cases p with
  | nil => exact hs
  | cons c p => exact hp

def Yields (p : List Char) (ks : List Nat) : Prop :=
  ∀ s, Apart s → placeholders none (p ++ s) = ks ++ placeholders none s

theorem Quiet.yields {p : List Char} (h : Quiet p) : Yields p [] := fun s _ => h s

namespace Yields

variable {p p' : List Char} {ks ks' : List Nat}

theorem append (h : Yields p ks) (apart : Apart p') (h' : Yields p' ks') :
    Yields (p ++ p') (ks ++ ks') := by
  intro s hs
  rw [List.append_assoc, h _ (apart.append hs), h' s hs, List.append_assoc]

theorem quiet_append (h : Quiet p) (h' : Yields p' ks') : Yields (p ++ p') ks' := by
  intro s hs
  rw [List.append_assoc, h, h' s hs]

theorem append_quiet (h : Yields p ks) (apart : Apart p') (h' : Quiet p') : Yields (p ++ p') ks := by
  have both := h.append apart h'.yields
  rwa [List.append_nil] at both

theorem takeWhile_digits {k : Nat} {s : List Char} (hs : Apart s) :
    ((toString k).toList ++ s).takeWhile Char.isDigit = (toString k).toList := by
  rw [List.takeWhile_append_of_pos fun c hc => Text.isDigit_of_mem_toString_nat hc]
  cases s with
  | nil => exact List.append_nil _
  | cons c s =>
      have other : ¬ c.isDigit = true := by simp [hs c rfl]
      rw [List.takeWhile_cons_of_neg other, List.append_nil]

theorem quiet_digits (k : Nat) : Quiet (toString k).toList :=
  Quiet.plain fun _ hc => plain_of_isDigit (Text.isDigit_of_mem_toString_nat hc)

theorem placeholder (k : Nat) : Yields ('$' :: (toString k).toList) [k] := by
  intro s hs
  have digits : Nat.ofDigitChars 10 (toString k).toList 0 = k := by
    have repr : (toString k).toList = Nat.toDigits 10 k := by simp [Nat.repr]
    rw [repr, Nat.ofDigitChars_ten_toDigits]
  rw [List.cons_append, placeholders, if_neg (by decide), if_pos rfl, number, takeWhile_digits hs,
    if_neg (Text.toString_nat_ne_empty k), digits, quiet_digits k s]

theorem intercalate {α : Type*} {sep : List Char} {text : α → List Char} {slots : α → List Nat}
    (pieces : List α) (hsep : Quiet sep) (some : sep ≠ []) (apart : Apart sep)
    (h : ∀ a ∈ pieces, Yields (text a) (slots a)) :
    Yields (sep.intercalate (pieces.map text)) (pieces.flatMap slots) := by
  induction pieces with
  | nil => exact Quiet.nil.yields
  | cons a pieces ih =>
      have first := h a List.mem_cons_self
      have rest := ih fun b hb => h b (List.mem_cons_of_mem a hb)
      by_cases last : pieces = []
      · rw [last, List.map_singleton, List.intercalate_singleton, List.flatMap_singleton]
        exact first
      · have nonempty : pieces.map text ≠ [] := by simpa using last
        rw [List.map_cons, List.intercalate_cons_of_ne_nil nonempty, List.flatMap_cons,
          List.append_assoc]
        refine first.append ?_ (quiet_append hsep rest)
        cases sep with
        | nil => exact absurd rfl some
        | cons c sep => exact apart

/-- The placeholders of a whole text. -/
theorem eq (h : Yields p ks) : placeholders none p = ks := by
  have apart : Apart [] := by
    intro c hc
    cases hc
  have whole := h [] apart
  rw [List.append_nil] at whole
  rw [whole]
  exact List.append_nil ks

end Yields

end Lazuli.General.SqlText
