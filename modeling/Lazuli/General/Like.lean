import Mathlib.Data.List.Forall2
import Mathlib.Data.List.Infix

/-!
Patterns of SQL `LIKE`.

`%` stands for any run of characters, `_` for any character, and the character after a
backslash for itself. A pattern that ends in a backslash matches nothing. How characters compare
is a parameter, so that `ILIKE` is covered as well.
-/

namespace Lazuli.General.Like

section Likes

variable (same : Char → Char → Bool)

def likes : List Char → List Char → Bool
  | [], text => text.isEmpty
  | '%' :: pattern, text => text.tails.any (likes pattern)
  | '_' :: pattern, text =>
      match text with
      | [] => false
      | _ :: text => likes pattern text
  | ['\\'], _ => false
  | '\\' :: c :: pattern, text =>
      match text with
      | [] => false
      | d :: text => same c d && likes pattern text
  | c :: pattern, text =>
      match text with
      | [] => false
      | d :: text => same c d && likes pattern text

variable {same} {pattern text : List Char}

@[simp] theorem likes_nil : likes same [] text = true ↔ text = [] := by
  rw [likes, List.isEmpty_iff]

theorem likes_any : likes same ('%' :: pattern) text = true ↔
    ∃ front rest, text = front ++ rest ∧ likes same pattern rest = true := by
  rw [likes, List.any_eq_true]
  constructor
  · rintro ⟨rest, mem, likes⟩
    obtain ⟨front, rfl⟩ := (List.mem_tails _ _).mp mem
    exact ⟨front, rest, rfl, likes⟩
  · rintro ⟨front, rest, rfl, likes⟩
    exact ⟨rest, (List.mem_tails _ _).mpr ⟨front, rfl⟩, likes⟩

theorem likes_any_nil : likes same ['%'] text = true :=
  likes_any.mpr ⟨text, [], (List.append_nil text).symm, rfl⟩

/-- `spelled` matches the character `c` and nothing else. -/
def Spells (same : Char → Char → Bool) (c : Char) (spelled : List Char) : Prop :=
  ∀ pattern text, likes same (spelled ++ pattern) text = true ↔
    ∃ d rest, text = d :: rest ∧ same c d = true ∧ likes same pattern rest = true

theorem spells_escaped (c : Char) : Spells same c ['\\', c] := by
  intro pattern text
  cases text with
  | nil => simp [likes]
  | cons d text => simp [likes]

theorem spells_plain {c : Char} (percent : c ≠ '%') (underscore : c ≠ '_')
    (backslash : c ≠ '\\') : Spells same c [c] := by
  intro pattern text
  rw [List.singleton_append]
  cases text with
  | nil => simp [likes, backslash]
  | cons d text => simp [likes, backslash]

/-- A text that is spelled out character by character is read literally, whatever follows. -/
theorem likes_spelled {spell : Char → List Char} (spells : ∀ c, Spells same c (spell c))
    (term : List Char) : likes same (term.flatMap spell ++ pattern) text = true ↔
      ∃ front rest, text = front ++ rest ∧ List.Forall₂ (fun c d => same c d = true) term front ∧
        likes same pattern rest = true := by
  induction term generalizing text with
  | nil => simp
  | cons c term ih =>
      rw [List.flatMap_cons, List.append_assoc, spells c]
      simp only [ih]
      constructor
      · rintro ⟨d, _, rfl, equal, front, rest, rfl, literal, likes⟩
        exact ⟨d :: front, rest, rfl, .cons equal literal, likes⟩
      · rintro ⟨_, rest, rfl, literal, likes⟩
        obtain ⟨d, front, equal, others, rfl⟩ := List.forall₂_cons_left_iff.mp literal
        exact ⟨d, front ++ rest, rfl, equal, front, rest, rfl, others, likes⟩

end Likes

end Lazuli.General.Like
