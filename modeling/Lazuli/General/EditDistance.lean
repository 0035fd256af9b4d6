import Mathlib.Data.List.Basic
import Mathlib.Order.Bounds.Basic
import Mathlib.Order.MinMax

/-!
How many single edits make one list out of another.

`distance` is computed along both lists, and no row of edits is shorter (`isLeast_distance`).
`row` lists the distances to all initial parts of a list. The next row is computed from it
(`nextRow_eq`), so two rows are enough to compute the distance (`twoRows_eq`).
-/

namespace Lazuli.General.EditDistance

variable {α : Type*}

/-! ### Edits -/

/-- One element is put in, taken out or replaced. -/
inductive Edit : List α → List α → Prop where
  | insert (u v : List α) (x : α) : Edit (u ++ v) (u ++ x :: v)
  | delete (u v : List α) (x : α) : Edit (u ++ x :: v) (u ++ v)
  | replace (u v : List α) (x y : α) : Edit (u ++ x :: v) (u ++ y :: v)

/-- So many edits make the second list out of the first. -/
inductive Edits : List α → List α → Nat → Prop where
  | none (s : List α) : Edits s s 0
  | more {s t u : List α} {n : Nat} : Edit s t → Edits t u n → Edits s u (n + 1)

variable {s t u : List α} {n : Nat}

theorem Edit.cons (h : Edit s t) (x : α) : Edit (x :: s) (x :: t) := by
  cases h with
  | insert u v y => exact .insert (x :: u) v y
  | delete u v y => exact .delete (x :: u) v y
  | replace u v y z => exact .replace (x :: u) v y z

theorem Edits.cons (h : Edits s t n) (x : α) : Edits (x :: s) (x :: t) n := by
  induction h with
  | none s => exact .none (x :: s)
  | more first _ ih => exact .more (first.cons x) ih

theorem Edit.reverse (h : Edit s t) : Edit s.reverse t.reverse := by
  cases h with
  | insert u v x => simpa using Edit.insert v.reverse u.reverse x
  | delete u v x => simpa using Edit.delete v.reverse u.reverse x
  | replace u v x y => simpa using Edit.replace v.reverse u.reverse x y

theorem Edits.reverse (h : Edits s t n) : Edits s.reverse t.reverse n := by
  induction h with
  | none s => exact .none s.reverse
  | more first _ ih => exact .more first.reverse ih

variable [DecidableEq α]

/-! ### The distance -/

def distance : List α → List α → Nat
  | [], t => t.length
  | s, [] => s.length
  | x :: s, y :: t =>
      min (min (distance s (y :: t) + 1) (distance (x :: s) t + 1))
        (distance s t + if x = y then 0 else 1)

@[simp] theorem distance_nil_left (t : List α) : distance [] t = t.length := by
  rw [distance]

@[simp] theorem distance_nil_right (s : List α) : distance s [] = s.length := by
  cases s <;> simp [distance]

theorem distance_cons_cons (x y : α) (s t : List α) : distance (x :: s) (y :: t) =
    min (min (distance s (y :: t) + 1) (distance (x :: s) t + 1))
      (distance s t + if x = y then 0 else 1) := by
  rw [distance]

/-- As many edits as the distance says are enough. -/
theorem edits_distance (s t : List α) : Edits s t (distance s t) := by
  induction s generalizing t with
  | nil =>
      induction t with
      | nil => exact distance_nil_left (α := α) [] ▸ .none []
      | cons y t ih =>
          rw [distance_nil_left] at ih ⊢
          exact .more (.insert [] [] y) (ih.cons y)
  | cons x s ihs =>
      induction t with
      | nil =>
          have rest := ihs []
          rw [distance_nil_right] at rest ⊢
          exact .more (.delete [] s x) rest
      | cons y t iht =>
          rw [distance_cons_cons]
          rcases min_choice (min (distance s (y :: t) + 1) (distance (x :: s) t + 1))
            (distance s t + if x = y then 0 else 1) with h | h
          · rw [h]
            rcases min_choice (distance s (y :: t) + 1) (distance (x :: s) t + 1) with h | h
            · rw [h]
              exact .more (.delete [] s x) (ihs (y :: t))
            · rw [h]
              exact .more (.insert [] (x :: s) y) (iht.cons y)
          · rw [h]
            split
            · next same => exact same ▸ (ihs t).cons x
            · exact .more (.replace [] s x y) ((ihs t).cons y)

/-- From every list, the one is at most one edit farther than the other. -/
def Near (s t : List α) : Prop := ∀ u, distance s u ≤ distance t u + 1

theorem Near.cons (h : Near s t) (x : α) : Near (x :: s) (x :: t) := by
  intro u
  induction u with
  | nil =>
      have := h []
      simp only [distance_nil_right, List.length_cons] at this ⊢
      omega
  | cons y u ih =>
      have := h (y :: u)
      have := h u
      rw [distance_cons_cons, distance_cons_cons]
      omega

theorem near_cons_self (x : α) (s : List α) : Near (x :: s) s := by
  intro u
  cases u with
  | nil => simp
  | cons y u =>
      rw [distance_cons_cons]
      omega

theorem distance_cons_right_le (s t : List α) (y : α) :
    distance s (y :: t) ≤ distance s t + 1 := by
  cases s with
  | nil => simp
  | cons x s =>
      rw [distance_cons_cons]
      omega

theorem near_self_cons (x : α) (s : List α) : Near s (x :: s) := by
  intro u
  induction u with
  | nil =>
      rw [distance_nil_right, distance_nil_right, List.length_cons]
      omega
  | cons y u ih =>
      have := distance_cons_right_le s u y
      rw [distance_cons_cons]
      omega

theorem near_replace (x y : α) (s : List α) : Near (x :: s) (y :: s) := by
  intro u
  induction u with
  | nil => simp
  | cons z u ih =>
      rw [distance_cons_cons, distance_cons_cons]
      split <;> split <;> omega

theorem Edit.near (h : Edit s t) : Near s t := by
  have front (u : List α) {v w : List α} (near : Near v w) : Near (u ++ v) (u ++ w) := by
    induction u with
    | nil => exact near
    | cons x u ih => exact ih.cons x
  cases h with
  | insert u v x => exact front u (near_self_cons x v)
  | delete u v x => exact front u (near_cons_self x v)
  | replace u v x y => exact front u (near_replace x y v)

theorem distance_self (s : List α) : distance s s = 0 := by
  induction s with
  | nil => exact distance_nil_left []
  | cons x s ih => rw [distance_cons_cons, ih, if_pos rfl, Nat.add_zero, Nat.min_zero]

theorem Edits.distance_le (h : Edits s t n) : distance s t ≤ n := by
  induction h with
  | none s => exact (distance_self s).le
  | more first _ ih => exact (first.near _).trans (Nat.succ_le_succ ih)

/-- No row of edits is shorter than the distance. -/
theorem isLeast_distance (s t : List α) : IsLeast {n | Edits s t n} (distance s t) :=
  ⟨edits_distance s t, fun _ h => h.distance_le⟩

theorem distance_reverse (s t : List α) : distance s.reverse t.reverse = distance s t := by
  have back := (edits_distance s.reverse t.reverse).reverse
  rw [List.reverse_reverse, List.reverse_reverse] at back
  exact (edits_distance s t).reverse.distance_le.antisymm back.distance_le

/-! ### Rows -/

/-- The distances of `s` to `done` and to what it grows to when `t` is put in front of it. -/
def row (s done : List α) : List α → List Nat
  | [] => [distance s done]
  | y :: t => distance s done :: row s (y :: done) t

/-- What follows `left` in the row that one element more has, above it the one row before. -/
def nextRow (x : α) : List α → Nat → List Nat → List Nat
  | y :: t, left, diagonal :: above :: last =>
      let cell := min (min (above + 1) (left + 1)) (diagonal + if x = y then 0 else 1)
      cell :: nextRow x t cell (above :: last)
  | _, _, _ => []

theorem row_cons (s done : List α) : ∀ t, ∃ later, row s done t = distance s done :: later
  | [] => ⟨[], rfl⟩
  | _ :: _ => ⟨_, rfl⟩

/-- The cells of the next row are distances again. -/
theorem nextRow_eq (x : α) (s done t : List α) :
    distance (x :: s) done :: nextRow x t (distance (x :: s) done) (row s done t) =
      row (x :: s) done t := by
  induction t generalizing done with
  | nil => rfl
  | cons y t ih =>
      obtain ⟨later, hrow⟩ := row_cons s (y :: done) t
      rw [row, row, hrow, nextRow, ← hrow, ← distance_cons_cons, ih]

theorem row_nil (done t : List α) : row [] done t = List.range' done.length (t.length + 1) := by
  induction t generalizing done with
  | nil => simp [row]
  | cons y t ih => rw [row, ih, distance_nil_left, List.length_cons, List.length_cons,
      List.range'_succ (n := t.length + 1)]

theorem getLastD_row (s done t : List α) (d : Nat) :
    (row s done t).getLastD d = distance s (t.reverse ++ done) := by
  induction t generalizing done d with
  | nil => rfl
  | cons y t ih => rw [row, List.getLastD_cons, ih, List.reverse_cons, List.append_assoc]; rfl

/-- The rows below the first one, each with the number of elements that it stands for. -/
def advance (t : List α) (last : List Nat × Nat) (x : α) : List Nat × Nat :=
  let i := last.2 + 1
  (i :: nextRow x t i last.1, i)

theorem foldl_advance (s t : List α) (first : List α) :
    s.foldl (advance t) (row first [] t, first.length) =
      (row (s.reverse ++ first) [] t, (s.reverse ++ first).length) := by
  induction s generalizing first with
  | nil => rfl
  | cons x s ih =>
      have next := nextRow_eq x first [] t
      rw [distance_nil_right, List.length_cons] at next
      rw [List.foldl_cons, advance, next, List.reverse_cons, List.append_assoc]
      exact ih (x :: first)

/-- The distance, row by row. -/
def twoRows (s t : List α) : Nat :=
  (s.foldl (advance t) (List.range (t.length + 1), 0)).1.getLastD 0

theorem twoRows_eq (s t : List α) : twoRows s t = distance s t := by
  have start : List.range (t.length + 1) = row [] [] t := by
    rw [row_nil, List.range_eq_range', List.length_nil]
  have whole := foldl_advance s t []
  rw [List.length_nil] at whole
  rw [twoRows, start, whole, List.append_nil, getLastD_row, List.append_nil, distance_reverse]

end Lazuli.General.EditDistance
