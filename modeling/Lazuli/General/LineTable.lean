import Mathlib.Data.List.Induction

/-!
Offsets in a text and its lines.

`starts` is the table of the offsets at which a line starts. An offset is in the line whose start is
the last one that does not lie after it: the table splits there (`starts_split`), and a search in it
ends there (`searched_split`).
-/

namespace Lazuli.General.LineTable

variable {α : Type*} [DecidableEq α] (sep : α)

/-- The offsets after the separators of a piece of text that begins at an offset. -/
def startsAfter : Nat → List α → List Nat
  | _, [] => []
  | i, c :: s => if c = sep then (i + 1) :: startsAfter (i + 1) s else startsAfter (i + 1) s

def starts (s : List α) : List Nat := 0 :: startsAfter sep 0 s

/-- The number of the line of an offset, from 1. -/
def line (s : List α) (offset : Nat) : Nat := (s.take offset).count sep + 1

/-- How far in its line an offset is, from 1. -/
def column (s : List α) (offset : Nat) : Nat :=
  ((s.take offset).reverse.takeWhile (· ≠ sep)).length + 1

variable {sep}

theorem startsAfter_cons (i : Nat) (c : α) (s : List α) : startsAfter sep i (c :: s) =
    if c = sep then (i + 1) :: startsAfter sep (i + 1) s else startsAfter sep (i + 1) s := rfl

theorem startsAfter_append (i : Nat) (s t : List α) :
    startsAfter sep i (s ++ t) = startsAfter sep i s ++ startsAfter sep (i + s.length) t := by
  induction s generalizing i with
  | nil => rfl
  | cons c s ih =>
      have shift : i + 1 + s.length = i + (c :: s).length := by rw [List.length_cons]; omega
      simp only [List.cons_append, startsAfter_cons, ih, shift]
      split <;> rfl

theorem lt_of_mem_startsAfter {i x : Nat} {s : List α} (h : x ∈ startsAfter sep i s) : i < x := by
  induction s generalizing i with
  | nil => cases h
  | cons c s ih =>
      rw [startsAfter_cons] at h
      split at h
      · rcases List.mem_cons.mp h with rfl | h
        · exact Nat.lt_succ_self i
        · exact Nat.lt_of_succ_lt (ih h)
      · exact Nat.lt_of_succ_lt (ih h)

theorem le_of_mem_startsAfter {i x : Nat} {s : List α} (h : x ∈ startsAfter sep i s) :
    x ≤ i + s.length := by
  induction s generalizing i with
  | nil => cases h
  | cons c s ih =>
      rw [startsAfter_cons] at h
      rw [List.length_cons]
      split at h
      · rcases List.mem_cons.mp h with rfl | h
        · omega
        · have := ih h
          omega
      · have := ih h
        omega

theorem pairwise_startsAfter (i : Nat) (s : List α) :
    (startsAfter sep i s).Pairwise (· < ·) := by
  induction s generalizing i with
  | nil => exact .nil
  | cons c s ih =>
      rw [startsAfter_cons]
      split
      · exact .cons (fun x hx => lt_of_mem_startsAfter hx) (ih (i + 1))
      · exact ih (i + 1)

theorem length_startsAfter (i : Nat) (s : List α) : (startsAfter sep i s).length = s.count sep := by
  induction s generalizing i with
  | nil => rfl
  | cons c s ih =>
      rw [startsAfter_cons, List.count_cons]
      split
      case isTrue same => simp [same, ih]
      case isFalse other => simp [other, ih]

variable (sep) in
/-- After the last start comes the text without a separator. -/
theorem getLast_starts (s : List α) :
    (starts sep s).getLast (List.cons_ne_nil _ _) +
      (s.reverse.takeWhile (· ≠ sep)).length = s.length := by
  induction s using List.reverseRecOn with
  | nil => rfl
  | append_singleton s c ih =>
      have table : starts sep (s ++ [c]) =
          starts sep s ++ if c = sep then [s.length + 1] else [] := by
        rw [starts, starts, startsAfter_append, List.cons_append, Nat.zero_add]
        rfl
      by_cases same : c = sep
      · subst same
        rw [if_pos rfl] at table
        simp [table]
      · rw [if_neg same, List.append_nil] at table
        simp only [table, List.reverse_append, List.reverse_singleton, List.singleton_append,
          List.takeWhile_cons, decide_eq_true same, if_true, List.length_cons, List.length_append,
          List.length_nil]
        omega

variable (sep) in
/-- The starts up to an offset, and the later ones. -/
theorem starts_split (s : List α) (offset : Nat) (le : offset ≤ s.length) :
    starts sep s = starts sep (s.take offset) ++ startsAfter sep offset (s.drop offset) := by
  conv_lhs => rw [← List.take_append_drop offset s]
  rw [starts, startsAfter_append, List.length_take, Nat.min_eq_left le, Nat.zero_add]
  rfl

variable (sep) in
theorem pairwise_starts (s : List α) : (starts sep s).Pairwise (· < ·) :=
  .cons (fun _ hx => lt_of_mem_startsAfter hx) (pairwise_startsAfter 0 s)

variable (sep) in
theorem length_starts (s : List α) : (starts sep s).length = s.count sep + 1 := by
  rw [starts, List.length_cons, length_startsAfter]

theorem le_of_mem_starts {s : List α} {x : Nat} (h : x ∈ starts sep s) : x ≤ s.length := by
  rcases List.mem_cons.mp h with rfl | h
  · exact Nat.zero_le _
  · simpa using le_of_mem_startsAfter h

/-! ### Searching a sorted table -/

/-- Where a number stands in a sorted list, or else where it would have to be inserted. -/
def searched (table : List Nat) (x : Nat) : Except Nat Nat :=
  if x ∈ table then .ok (table.idxOf x) else .error (table.countP (· < x))

/-- The place of a number in a table, or the one before it. -/
def slot (table : List Nat) (x : Nat) : Nat :=
  match searched table x with
  | .ok i => i
  | .error i => i - 1

/-- The slot is the last entry that is not larger. -/
theorem slot_split {init after : List Nat} {m x : Nat} (sorted : ∀ y ∈ init, y < m) (low : m ≤ x)
    (high : ∀ y ∈ after, x < y) : slot (init ++ m :: after) x = init.length := by
  have notBefore : x ∉ init := fun mem => absurd (sorted x mem) (Nat.not_lt.mpr low)
  have notAfter : x ∉ after := fun mem => absurd (high x mem) (Nat.lt_irrefl x)
  by_cases found : x = m
  · subst found
    rw [slot, searched, if_pos (by simp)]
    simp [List.idxOf_append, notBefore]
  · have absent : x ∉ init ++ m :: after := by simp [notBefore, notAfter, found]
    have all : init.countP (· < x) = init.length := by
      rw [List.countP_eq_length]
      intro y hy
      simpa using Nat.lt_of_lt_of_le (sorted y hy) low
    have none : after.countP (· < x) = 0 := by
      rw [List.countP_eq_zero]
      intro y hy
      simpa using Nat.le_of_lt (high y hy)
    have less : m < x := Nat.lt_of_le_of_ne low (Ne.symm found)
    rw [slot, searched, if_neg absent]
    simp [List.countP_append, all, none, less]

variable (sep) in
/-- Searched for in a table of starts that goes on with larger offsets, an offset is found in its
line and at its column. -/
theorem slot_starts (s : List α) (offset : Nat) (le : offset ≤ s.length) {after : List Nat}
    (high : ∀ y ∈ after, offset < y) :
    let table := starts sep (s.take offset) ++ after
    slot table offset + 1 = line sep s offset ∧
      ∃ start, table[slot table offset]? = some start ∧ offset - start + 1 = column sep s offset := by
  have nonempty : starts sep (s.take offset) ≠ [] := List.cons_ne_nil _ _
  have split := List.dropLast_concat_getLast nonempty
  have last := getLast_starts sep (s.take offset)
  have length := length_starts sep (s.take offset)
  have low := le_of_mem_starts (List.getLast_mem nonempty)
  have sorted := pairwise_starts sep (s.take offset)
  rw [List.length_take, Nat.min_eq_left le] at last low
  rw [← split, List.pairwise_append] at sorted
  rw [← split, List.length_append, List.length_singleton] at length
  generalize (starts sep (s.take offset)).getLast nonempty = m at *
  generalize (starts sep (s.take offset)).dropLast = init at *
  have slotted : slot (init ++ m :: after) offset = init.length :=
    slot_split (fun y hy => sorted.2.2 y hy m List.mem_cons_self) low high
  simp only [← split, List.append_assoc, List.singleton_append, slotted]
  refine ⟨length, m, by simp, ?_⟩
  rw [column]
  omega

end Lazuli.General.LineTable
