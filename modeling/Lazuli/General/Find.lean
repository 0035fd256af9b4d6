import Mathlib.Data.List.Infix
import Mathlib.Data.List.DropRight

/-!
Places in a text.

`find` is the first place at which a pattern stands. A text is cut at the first or at the last
place of a character, and the two parts are determined by the side without it.
-/

namespace Lazuli.General.Find

variable {α : Type} {p s before after : List α} {c : α} {n : Nat}

/-! ### Patterns -/

/-- The pattern stands at this place. -/
def At (p s : List α) (n : Nat) : Prop := p <+: s.drop n

/-- It stands there, and nowhere before. -/
def First (p s : List α) (n : Nat) : Prop := At p s n ∧ ∀ m < n, ¬At p s m

theorem At.add_length_le (h : At p s n) (hne : p ≠ []) : n + p.length ≤ s.length := by
  have fits : p.length ≤ (s.drop n).length := h.length_le
  have some : 0 < p.length := List.length_pos_iff.mpr hne
  rw [List.length_drop] at fits
  omega

variable [DecidableEq α]

instance : Decidable (At p s n) := inferInstanceAs (Decidable (_ <+: _))

def find (p s : List α) : Option Nat := (List.range (s.length + 1)).find? fun n => At p s n

theorem find_eq_some_iff (hne : p ≠ []) : find p s = some n ↔ First p s n := by
  simp only [find, List.find?_range_eq_some, decide_eq_true_eq, List.mem_range,
    Bool.not_eq_true', decide_eq_false_iff_not]
  constructor
  · rintro ⟨here, -, before⟩
    exact ⟨here, before⟩
  · rintro ⟨here, before⟩
    have fits := here.add_length_le hne
    exact ⟨here, by omega, before⟩

/-! ### Characters -/

/-- In front of the first such character, and behind it. -/
def cut (c : α) (s : List α) : Option (List α × List α) :=
  if c ∈ s then some (s.takeWhile (· ≠ c), (s.dropWhile (· ≠ c)).tail) else none

/-- In front of the last such character, and behind it. -/
def cutLast (c : α) (s : List α) : Option (List α × List α) :=
  (cut c s.reverse).map fun (after, before) => (before.reverse, after.reverse)

theorem cut_of_notMem (h : c ∉ before) (after : List α) :
    cut c (before ++ c :: after) = some (before, after) := by
  have other : ∀ a ∈ before, decide (a ≠ c) = true := by
    intro a ha
    exact decide_eq_true fun same => h (same ▸ ha)
  have stops : decide (c ≠ c) = false := decide_eq_false (not_not.mpr rfl)
  rw [cut, if_pos (List.mem_append_right _ List.mem_cons_self),
    List.takeWhile_append_of_pos other, List.dropWhile_append_of_pos other,
    List.takeWhile_cons_of_neg (by rw [stops]; exact Bool.false_ne_true),
    List.dropWhile_cons_of_neg (by rw [stops]; exact Bool.false_ne_true), List.append_nil,
    List.tail_cons]

theorem cut_eq_some_iff : cut c s = some (before, after) ↔
    s = before ++ c :: after ∧ c ∉ before := by
  constructor
  · intro h
    by_cases mem : c ∈ s
    · obtain ⟨front, rest, rfl, fresh⟩ := List.eq_append_cons_of_mem mem
      rw [cut_of_notMem fresh] at h
      cases h
      exact ⟨rfl, fresh⟩
    · rw [cut, if_neg mem] at h
      cases h
  · rintro ⟨rfl, fresh⟩
    exact cut_of_notMem fresh after

theorem cut_eq_none_iff : cut c s = none ↔ c ∉ s := by
  rw [cut]
  split
  next mem => exact iff_of_false (Option.some_ne_none _) (not_not.mpr mem)
  next fresh => exact iff_of_true rfl fresh

theorem cutLast_eq_some_iff : cutLast c s = some (before, after) ↔
    s = before ++ c :: after ∧ c ∉ after := by
  rw [cutLast, Option.map_eq_some_iff]
  constructor
  · rintro ⟨⟨a, b⟩, found, same⟩
    obtain ⟨rfl, rfl⟩ := Prod.mk.inj same
    obtain ⟨split, fresh⟩ := cut_eq_some_iff.mp found
    refine ⟨?_, fun mem => fresh (List.mem_reverse.mp mem)⟩
    rw [← List.reverse_inj, split]
    simp
  · rintro ⟨rfl, fresh⟩
    refine ⟨(after.reverse, before.reverse), cut_eq_some_iff.mpr ⟨by simp, ?_⟩, by simp⟩
    exact fun mem => fresh (List.mem_reverse.mp mem)

end Lazuli.General.Find
