import Mathlib.Algebra.Order.Ring.Int
import Mathlib.Order.Lattice
import Mathlib.Tactic.Ring
import Mathlib.Tactic.Linarith

/-!
An exact token bucket over integer time.

Credit is counted in time units: the bucket gains one unit of credit for each unit
of time, up to `capacity`, and one request costs `cost` units. A bucket that holds
`burst` tokens and gains one token every `interval` has `capacity = burst * interval`
and `cost = interval`, so no fraction of a token is ever rounded. A zero interval
gives a bucket that admits everything.

* `cost_mul_admitted_le`: over ordered times, the requests admitted within a window
  of `width` units cost at most `capacity + width - 1`;
* `admitted_replicate`: a bucket admits at one instant as many requests as its
  credit pays for.
-/

namespace Lazuli.General

/-- A bucket and the time its level was last brought up to date. The level may be
negative after a reservation that has to wait, but never exceeds the capacity. -/
@[ext]
structure Bucket where
  capacity : Int
  cost : Int
  level : Int
  last : Int
  cost_nonneg : 0 ≤ cost
  cost_le : cost ≤ capacity
  level_le : level ≤ capacity
  deriving DecidableEq

namespace Bucket

variable {b : Bucket} {now : Int}

/-- The level at `now`. A clock that went back refills nothing. -/
def refilled (b : Bucket) (now : Int) : Int :=
  min b.capacity (b.level + (now - min b.last now))

theorem refilled_le (b : Bucket) (now : Int) : b.refilled now ≤ b.capacity :=
  min_le_left _ _

/-- Replace the level and the time stamp. -/
def setLevel (b : Bucket) (level now : Int) (h : level ≤ b.capacity) : Bucket :=
  { b with level := level, last := now, level_le := h }

/-- Bring the level up to date. -/
def advance (b : Bucket) (now : Int) : Bucket :=
  b.setLevel (b.refilled now) now (b.refilled_le now)

/-- Take one token, now or from the future, and say how long to wait for it. -/
def reserve (b : Bucket) (now : Int) : Bucket × Int :=
  (b.setLevel (b.refilled now - b.cost) now
      (by have := b.refilled_le now; have := b.cost_nonneg; omega),
    max 0 (b.cost - b.refilled now))

/-- Give the token of the latest reservation back. -/
def cancel (b : Bucket) (now : Int) : Bucket :=
  b.setLevel (min b.capacity (b.refilled now + b.cost)) now (min_le_left _ _)

/-- A full bucket. -/
def full (capacity cost last : Int) (cost_nonneg : 0 ≤ cost) (cost_le : cost ≤ capacity) :
    Bucket :=
  { capacity, cost, level := capacity, last, cost_nonneg, cost_le, level_le := le_refl _ }

/-- Take a token if one is there, otherwise leave the bucket as it is and say how
long to wait. -/
def tryTake (b : Bucket) (now : Int) : Bucket × Int :=
  if h : b.cost ≤ b.refilled now then
    (b.setLevel (b.refilled now - b.cost) now
      (by have := b.refilled_le now; have := b.cost_nonneg; omega), 0)
  else (b.advance now, b.cost - b.refilled now)

@[simp] theorem setLevel_capacity (b : Bucket) (l t : Int) (h) :
    (b.setLevel l t h).capacity = b.capacity := rfl
@[simp] theorem setLevel_cost (b : Bucket) (l t : Int) (h) :
    (b.setLevel l t h).cost = b.cost := rfl
@[simp] theorem setLevel_level (b : Bucket) (l t : Int) (h) :
    (b.setLevel l t h).level = l := rfl
@[simp] theorem setLevel_last (b : Bucket) (l t : Int) (h) :
    (b.setLevel l t h).last = t := rfl

/-! ### Refilling -/

theorem refilled_last (b : Bucket) : b.refilled b.last = b.level := by
  have := b.level_le
  simp only [refilled]
  omega

theorem level_le_refilled (b : Bucket) (now : Int) : b.level ≤ b.refilled now := by
  have := b.level_le
  simp only [refilled]
  omega

@[simp] theorem full_refilled (c k l : Int) (h0 h1) (now : Int) :
    (full c k l h0 h1).refilled now = c := by
  simp only [refilled, full]
  omega

/-! ### Taking -/

/-- Reserving and giving back at once is the same as not reserving. -/
theorem cancel_reserve (b : Bucket) (now : Int) :
    (b.reserve now).1.cancel now = b.advance now := by
  have := b.refilled_le now
  have := b.cost_nonneg
  ext
  case level =>
    simp only [cancel, reserve, advance, setLevel, refilled] at *
    omega
  all_goals rfl

/-- Reserve, and give the token back when it would have to be waited for. -/
theorem tryTake_eq_reserve (b : Bucket) (now : Int) :
    b.tryTake now =
      if 0 < (b.reserve now).2 then ((b.reserve now).1.cancel now, (b.reserve now).2)
      else ((b.reserve now).1, 0) := by
  by_cases h : b.cost ≤ b.refilled now
  · have wait : ¬ 0 < (b.reserve now).2 := by simp only [reserve]; omega
    rw [if_neg wait, tryTake, dif_pos h]
    rfl
  · have wait : 0 < (b.reserve now).2 := by simp only [reserve]; omega
    rw [if_pos wait, tryTake, dif_neg h, cancel_reserve]
    simp only [reserve]
    congr 1
    omega

@[simp] theorem tryTake_capacity (b : Bucket) (now : Int) :
    (b.tryTake now).1.capacity = b.capacity := by
  unfold tryTake
  split <;> rfl

@[simp] theorem tryTake_cost (b : Bucket) (now : Int) :
    (b.tryTake now).1.cost = b.cost := by
  unfold tryTake
  split <;> rfl

@[simp] theorem tryTake_last (b : Bucket) (now : Int) : (b.tryTake now).1.last = now := by
  unfold tryTake
  split <;> rfl

/-- A token is taken exactly when the refilled level pays for it. -/
theorem tryTake_wait_eq_zero_iff (b : Bucket) (now : Int) :
    (b.tryTake now).2 = 0 ↔ b.cost ≤ b.refilled now := by
  unfold tryTake
  split
  case isTrue h => exact ⟨fun _ => h, fun _ => rfl⟩
  case isFalse h => constructor <;> intro h' <;> simp only at * <;> omega

/-- The level after a request, and what the request cost, add up to the refilled
level. -/
theorem tryTake_level (b : Bucket) (now : Int) :
    (b.tryTake now).1.level + (if (b.tryTake now).2 = 0 then b.cost else 0) =
      b.refilled now := by
  by_cases h : b.cost ≤ b.refilled now
  · rw [if_pos ((tryTake_wait_eq_zero_iff b now).mpr h), tryTake, dif_pos h]
    simp only [setLevel_level]
    omega
  · rw [if_neg (fun h' => h ((tryTake_wait_eq_zero_iff b now).mp h')), tryTake, dif_neg h]
    simp only [advance, setLevel_level]
    omega

theorem tryTake_level_nonneg (nonneg : 0 ≤ b.level) (now : Int) :
    0 ≤ (b.tryTake now).1.level := by
  have low := b.level_le_refilled now
  by_cases h : b.cost ≤ b.refilled now
  · rw [tryTake, dif_pos h]
    simp only [setLevel_level]
    omega
  · rw [tryTake, dif_neg h]
    simp only [advance, setLevel_level]
    omega

/-- Two buckets of the same shape with the same refilled level cannot be told apart
by a request. -/
theorem tryTake_congr {b b' : Bucket} (capacity : b.capacity = b'.capacity)
    (cost : b.cost = b'.cost) (level : b.refilled now = b'.refilled now) :
    b.tryTake now = b'.tryTake now := by
  unfold tryTake
  by_cases h : b.cost ≤ b.refilled now
  · rw [dif_pos h, dif_pos (by omega)]
    congr 1
    ext <;> simp [setLevel, capacity, cost, level]
  · rw [dif_neg h, dif_neg (by omega), cost, level]
    congr 1
    ext <;> simp [advance, setLevel, capacity, cost, level]

/-! ### Admission over a sequence of requests -/

/-- The times, among `times`, at which a request was admitted. -/
def admitted : Bucket → List Int → List Int
  | _, [] => []
  | b, t :: ts =>
      if (b.tryTake t).2 = 0 then t :: admitted (b.tryTake t).1 ts
      else admitted (b.tryTake t).1 ts

theorem admitted_cons_of_zero {t : Int} {ts : List Int} (zero : (b.tryTake t).2 = 0) :
    b.admitted (t :: ts) = t :: (b.tryTake t).1.admitted ts := by
  rw [admitted, if_pos zero]

theorem admitted_cons_of_wait {t : Int} {ts : List Int} (wait : ¬ (b.tryTake t).2 = 0) :
    b.admitted (t :: ts) = (b.tryTake t).1.admitted ts := by
  rw [admitted, if_neg wait]

/-- The bucket behind all these requests. -/
def after (b : Bucket) (times : List Int) : Bucket :=
  times.foldl (fun b t => (b.tryTake t).1) b

theorem after_concat (b : Bucket) (times : List Int) (t : Int) :
    b.after (times ++ [t]) = ((b.after times).tryTake t).1 := by
  rw [after, List.foldl_append]
  rfl

theorem admitted_concat (b : Bucket) (times : List Int) (t : Int) :
    b.admitted (times ++ [t]) =
      b.admitted times ++ if ((b.after times).tryTake t).2 = 0 then [t] else [] := by
  induction times generalizing b with
  | nil => rfl
  | cons s times ih =>
      have rest := ih (b.tryTake s).1
      rw [List.cons_append]
      by_cases zero : (b.tryTake s).2 = 0
      · rw [admitted_cons_of_zero zero, admitted_cons_of_zero zero, rest]
        rfl
      · rw [admitted_cons_of_wait zero, admitted_cons_of_wait zero, rest]
        rfl

theorem admitted_subset (b : Bucket) (times : List Int) : b.admitted times ⊆ times := by
  induction times generalizing b with
  | nil => exact List.Subset.refl _
  | cons t ts ih =>
      by_cases zero : (b.tryTake t).2 = 0
      · rw [admitted_cons_of_zero zero]
        exact List.cons_subset_cons t (ih _)
      · rw [admitted_cons_of_wait zero]
        exact List.subset_cons_of_subset t (ih _)

/-- How many of the times fall in `[start, stop)`. -/
def countIn (start stop : Int) (times : List Int) : Nat :=
  times.countP fun t => start ≤ t ∧ t < stop

/-- No request at or after `stop` counts. -/
theorem countIn_eq_zero {start stop : Int} {times : List Int} (h : ∀ t ∈ times, stop ≤ t) :
    countIn start stop times = 0 := by
  rw [countIn, List.countP_eq_zero]
  intro t mem
  have := h t mem
  simp only [decide_eq_true_eq]
  omega

/-- One request: what it adds to the count is what it took from the level. -/
theorem cost_mul_admitted_cons {start stop t : Int} {ts : List Int} (inside : start ≤ t ∧ t < stop) :
    b.cost * countIn start stop (b.admitted (t :: ts)) =
      b.refilled t - (b.tryTake t).1.level +
        b.cost * countIn start stop ((b.tryTake t).1.admitted ts) := by
  have level := tryTake_level b t
  split at level
  case isTrue zero =>
    rw [admitted_cons_of_zero zero, countIn, List.countP_cons_of_pos (by simpa using inside),
      ← countIn]
    push_cast
    linarith
  case isFalse wait =>
    rw [admitted_cons_of_wait wait]
    omega

/-- A request outside the window adds nothing. -/
theorem countIn_admitted_cons {start stop t : Int} {ts : List Int}
    (outside : ¬ (start ≤ t ∧ t < stop)) :
    countIn start stop (b.admitted (t :: ts)) =
      countIn start stop ((b.tryTake t).1.admitted ts) := by
  by_cases zero : (b.tryTake t).2 = 0
  · rw [admitted_cons_of_zero zero, countIn, List.countP_cons_of_neg (by simpa using outside),
      ← countIn]
  · rw [admitted_cons_of_wait zero]

/-- Once the window has begun, the admitted requests are paid for by the level and
by the time left. -/
theorem cost_mul_admitted_le_of_begun (start stop : Int) {times : List Int}
    (begun : start ≤ b.last) (open_ : b.last < stop) (nonneg : 0 ≤ b.level)
    (sorted : (b.last :: times).Pairwise (· ≤ ·)) :
    b.cost * countIn start stop (b.admitted times) ≤ b.level + (stop - 1 - b.last) := by
  induction times generalizing b with
  | nil => simp [admitted, countIn]; omega
  | cons t ts ih =>
      obtain ⟨first, tail⟩ := List.pairwise_cons.mp sorted
      have after : b.last ≤ t := first t List.mem_cons_self
      by_cases inside : t < stop
      · have rest := ih (b := (b.tryTake t).1) (by simp; omega) (by simpa using inside)
          (tryTake_level_nonneg nonneg t) (by simpa using tail)
        have gain : b.refilled t ≤ b.level + (t - b.last) := by
          simp only [refilled]
          omega
        rw [cost_mul_admitted_cons ⟨by omega, inside⟩]
        rw [tryTake_cost, tryTake_last] at rest
        omega
      · have none : countIn start stop (b.admitted (t :: ts)) = 0 := by
          refine countIn_eq_zero fun s mem => ?_
          rcases List.mem_cons.mp (admitted_subset b _ mem) with rfl | mem
          · omega
          · have := (List.pairwise_cons.mp tail).1 s mem
            omega
        rw [none]
        simp only [Nat.cast_zero, mul_zero]
        omega

/-- **Admission bound.** Whatever the bucket went through before, the requests it
admits in `[start, start + width)` cost at most its capacity and the time that can
pass inside the window. -/
theorem cost_mul_admitted_le {start width : Int} {times : List Int} (wide : 0 < width)
    (nonneg : 0 ≤ b.level) (sorted : times.Pairwise (· ≤ ·)) :
    b.cost * countIn start (start + width) (b.admitted times) ≤ b.capacity + (width - 1) := by
  have cap : 0 ≤ b.capacity := b.cost_nonneg.trans b.cost_le
  induction times generalizing b with
  | nil => simp [admitted, countIn]; omega
  | cons t ts ih =>
      by_cases inside : start ≤ t ∧ t < start + width
      · have rest := cost_mul_admitted_le_of_begun (b := (b.tryTake t).1) start
          (start + width) (by simpa using inside.1) (by simpa using inside.2)
          (tryTake_level_nonneg nonneg t) (by simpa using sorted)
        have := b.refilled_le t
        rw [cost_mul_admitted_cons inside]
        rw [tryTake_cost, tryTake_last] at rest
        omega
      · rw [countIn_admitted_cons inside]
        have rest := ih (b := (b.tryTake t).1) (tryTake_level_nonneg nonneg t)
          (List.pairwise_cons.mp sorted).2 (by simpa using cap)
        simpa using rest

/-- A bucket admits at one instant as many requests as its credit pays for. -/
theorem admitted_replicate {n : Nat} {t : Int} (ts : List Int)
    (pays : (n + 1) * b.cost ≤ b.refilled t) :
    ∃ b' : Bucket, b.admitted (List.replicate (n + 1) t ++ ts) =
        List.replicate (n + 1) t ++ b'.admitted ts ∧
      b'.capacity = b.capacity ∧ b'.cost = b.cost ∧ b'.last = t ∧
      b'.level = b.refilled t - (n + 1) * b.cost := by
  induction n generalizing b with
  | zero =>
      have zero : (b.tryTake t).2 = 0 := (tryTake_wait_eq_zero_iff b t).mpr (by simpa using pays)
      have level := tryTake_level b t
      rw [if_pos zero] at level
      refine ⟨(b.tryTake t).1, ?_, tryTake_capacity b t, tryTake_cost b t, tryTake_last b t, ?_⟩
      · exact admitted_cons_of_zero zero
      · push_cast
        linarith
  | succ n ih =>
      have cost := b.cost_nonneg
      have enough : b.cost ≤ b.refilled t := by
        push_cast at pays
        have : 0 ≤ ((n : Int) + 1) * b.cost := mul_nonneg (by omega) cost
        linarith
      have zero : (b.tryTake t).2 = 0 := (tryTake_wait_eq_zero_iff b t).mpr enough
      have left : (b.tryTake t).1.refilled t = b.refilled t - b.cost := by
        have level := tryTake_level b t
        rw [if_pos zero] at level
        have last := refilled_last (b.tryTake t).1
        rw [tryTake_last] at last
        omega
      obtain ⟨b', run, capacity, cost', last, level⟩ := ih (b := (b.tryTake t).1) (by
        rw [tryTake_cost, left]
        push_cast at pays
        linarith)
      refine ⟨b', ?_, by simpa using capacity, by simpa using cost', last, ?_⟩
      · rw [List.replicate_succ, List.cons_append, admitted_cons_of_zero zero, run]
        rfl
      · rw [level, left, tryTake_cost]
        push_cast
        ring

/-- A clock that swings back and forth by one refill interval pays for a request at
every swing. -/
theorem le_countIn_admitted_swing (t width : Int) (nonneg : 0 ≤ b.level) (wide : 0 < width)
    (n : Nat) :
    n ≤ countIn (t + b.cost) (t + b.cost + width)
      (b.admitted (List.replicate n [t, t + b.cost]).flatten) := by
  induction n generalizing b with
  | zero => exact Nat.zero_le _
  | succ n ih =>
      set back := (b.tryTake t).1 with hback
      have backCost : back.cost = b.cost := tryTake_cost b t
      have backLast : back.last = t := tryTake_last b t
      have backLevel : 0 ≤ back.level := tryTake_level_nonneg nonneg t
      have zero : (back.tryTake (t + b.cost)).2 = 0 := by
        rw [tryTake_wait_eq_zero_iff]
        have := back.cost_le
        have := b.cost_nonneg
        simp only [refilled, backLast]
        omega
      have rest := ih (b := (back.tryTake (t + b.cost)).1) (tryTake_level_nonneg backLevel _)
      rw [tryTake_cost, backCost] at rest
      -- the request at `t` may or may not have been admitted; the one after it is
      have here : countIn (t + b.cost) (t + b.cost + width)
          (back.admitted ((t + b.cost) :: (List.replicate n [t, t + b.cost]).flatten)) =
          countIn (t + b.cost) (t + b.cost + width) ((back.tryTake (t + b.cost)).1.admitted
            (List.replicate n [t, t + b.cost]).flatten) + 1 := by
        rw [admitted_cons_of_zero zero, countIn, List.countP_cons_of_pos (by simp; omega),
          ← countIn]
      have more : countIn (t + b.cost) (t + b.cost + width)
          (back.admitted ((t + b.cost) :: (List.replicate n [t, t + b.cost]).flatten)) ≤
          countIn (t + b.cost) (t + b.cost + width)
            (b.admitted (t :: (t + b.cost) :: (List.replicate n [t, t + b.cost]).flatten)) := by
        by_cases first : (b.tryTake t).2 = 0
        · rw [admitted_cons_of_zero first]
          exact (List.sublist_cons_self _ _).countP_le
        · rw [admitted_cons_of_wait first]
      rw [List.replicate_succ, List.flatten_cons]
      simp only [List.cons_append, List.nil_append]
      omega

end Bucket

end Lazuli.General
