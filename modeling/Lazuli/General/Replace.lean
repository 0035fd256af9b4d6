import Mathlib.Data.List.Basic
import Mathlib.Data.List.Infix
import Mathlib.Data.List.TakeWhile
import Mathlib.Tactic.Ring

/-!
Replacing the matches of a pattern in a text, from left to right.

A `Pattern` finds the match at the start of a text that is preferred, and finds one when a word of
its language is there. `replaceAll` puts a text in place of every match. Where the text that is put
in overlaps no word of a language (`Overlaps`), no word of it comes up (`free_replaceAll`), so the
replaced pattern is gone for good. As a function of the text that is put in, it is injective once
there is a match (`replaceAll_injective`).
-/

namespace Lazuli.General

/-- How long the match at the start of a text is, and the words it can be. -/
structure Pattern (α : Type*) where
  matchAt : List α → Option Nat
  Word : List α → Prop
  sound : ∀ s n, matchAt s = some n → 0 < n ∧ n ≤ s.length ∧ Word (s.take n)
  complete : ∀ s w, Word w → w <+: s → matchAt s ≠ none

namespace Pattern

variable {α : Type*} (p : Pattern α) (new : List α)

/-- The first characters are part of a match. -/
def replaceFrom : Nat → List α → List α
  | _, [] => []
  | k + 1, _ :: s => replaceFrom k s
  | 0, c :: s =>
      match p.matchAt (c :: s) with
      | some n => new ++ replaceFrom (n - 1) s
      | none => c :: replaceFrom 0 s

def replaceAll (s : List α) : List α := p.replaceFrom new 0 s

/-- No word of the pattern stands in the text. -/
def Free (s : List α) : Prop := ∀ w, p.Word w → ¬ w <:+: s

variable {p new} {s w : List α}

theorem replaceFrom_drop (k : Nat) (s : List α) :
    p.replaceFrom new k s = p.replaceAll new (s.drop k) := by
  induction s generalizing k with
  | nil =>
      rw [List.drop_nil]
      cases k <;> rfl
  | cons c s ih =>
      cases k with
      | zero => rfl
      | succ k => exact ih k

@[simp] theorem replaceAll_nil : p.replaceAll new [] = [] := rfl

theorem replaceAll_of_match {n : Nat} (h : p.matchAt s = some n) :
    p.replaceAll new s = new ++ p.replaceAll new (s.drop n) := by
  obtain ⟨pos, le, -⟩ := p.sound s n h
  cases s with
  | nil =>
      rw [List.length_nil] at le
      omega
  | cons c s =>
      obtain ⟨m, rfl⟩ := Nat.exists_eq_succ_of_ne_zero (Nat.ne_of_gt pos)
      simp only [replaceAll, replaceFrom, h]
      rw [replaceFrom_drop]
      rfl

theorem replaceAll_cons {c : α} (h : p.matchAt (c :: s) = none) :
    p.replaceAll new (c :: s) = c :: p.replaceAll new s := by
  simp only [replaceAll, replaceFrom, h]

/-- A text is empty, or starts with a match, or with a character that starts none. -/
theorem induct {motive : List α → Prop} (nil : motive [])
    (hit : ∀ s n, p.matchAt s = some n → motive (s.drop n) → motive s)
    (skip : ∀ c s, p.matchAt (c :: s) = none → motive s → motive (c :: s)) (s : List α) :
    motive s := by
  induction h : s.length using Nat.strong_induction_on generalizing s with
  | _ length ih =>
      cases s with
      | nil => exact nil
      | cons c s =>
          cases found : p.matchAt (c :: s) with
          | none => exact skip c s found (ih s.length (by rw [← h]; simp) s rfl)
          | some n =>
              obtain ⟨pos, le, -⟩ := p.sound _ n found
              refine hit _ n found (ih _ ?_ _ rfl)
              rw [List.length_drop, ← h]
              omega

/-! ### Texts without a match -/

theorem Free.of_suffix {t : List α} (free : p.Free s) (h : t <:+ s) : p.Free t :=
  fun w word mem => free w word (mem.trans h.isInfix)

theorem replaceAll_of_free (free : p.Free s) : p.replaceAll new s = s := by
  induction s with
  | nil => rfl
  | cons c s ih =>
      have none : p.matchAt (c :: s) = none := by
        by_contra some
        obtain ⟨n, found⟩ := Option.ne_none_iff_exists'.mp some
        exact free _ (p.sound _ n found).2.2 (List.take_prefix n _).isInfix
      rw [replaceAll_cons none, ih (free.of_suffix (List.suffix_cons c s))]

/-! ### What comes up -/

/-- One of the texts is inside the other, or the end of one is the start of the other. -/
def Overlaps (w new : List α) : Prop :=
  w <:+: new ∨ new <:+: w ∨
    ∃ m, m ≠ [] ∧ (m <+: new ∧ m <:+ w ∨ m <:+ new ∧ m <+: w)

/-- What stands at the start was there, or reaches into a text that was put in. -/
theorem prefix_replaceAll (h : w <+: p.replaceAll new s) :
    w <+: s ∨ ∃ l r, p.replaceAll new s = l ++ (new ++ r) ∧ l.length < w.length := by
  induction s using p.induct generalizing w with
  | nil => exact .inl h
  | hit s n found ih =>
      cases w with
      | nil => exact .inl List.nil_prefix
      | cons a w => exact .inr ⟨[], _, replaceAll_of_match found, by simp⟩
  | skip c s none ih =>
      rw [replaceAll_cons none] at h ⊢
      cases w with
      | nil => exact .inl List.nil_prefix
      | cons a w =>
          obtain ⟨rfl, later⟩ := List.cons_prefix_cons.mp h
          rcases ih later with there | ⟨l, r, split, shorter⟩
          · exact .inl (List.cons_prefix_cons.mpr ⟨rfl, there⟩)
          · exact .inr ⟨a :: l, r, by rw [split, List.cons_append], by simpa using shorter⟩

theorem overlaps_of_start {l r : List α} (h : w <+: l ++ (new ++ r))
    (shorter : l.length < w.length) : Overlaps w new := by
  obtain ⟨y, split⟩ := h
  rcases List.append_eq_append_iff.mp split with ⟨d, rfl, -⟩ | ⟨d, rfl, rest⟩
  · rw [List.length_append] at shorter
    omega
  · have some : d ≠ [] := by
      rintro rfl
      simp at shorter
    rcases List.append_eq_append_iff.mp rest with ⟨e, rfl, -⟩ | ⟨e, rfl, -⟩
    · exact .inr (.inl ⟨l, e, by simp⟩)
    · exact .inr (.inr ⟨d, some, .inl ⟨List.prefix_append d e, List.suffix_append l d⟩⟩)

/-- A word of a text behind the one that was put in is in one of them, or overlaps the first. -/
theorem infix_append_cases {t : List α} (h : w <:+: new ++ t) (some : w ≠ []) :
    w <:+: t ∨ Overlaps w new := by
  obtain ⟨x, y, split⟩ := h
  rw [List.append_assoc] at split
  rcases List.append_eq_append_iff.mp split with ⟨d, rfl, rest⟩ | ⟨d, rfl, rest⟩
  · rcases List.append_eq_append_iff.mp rest with ⟨e, rfl, rest⟩ | ⟨e, rfl, rest⟩
    · exact .inr (.inl ⟨x, e, by simp⟩)
    · by_cases none : d = []
      · subst none
        exact .inl ⟨[], y, by simpa using rest⟩
      · exact .inr (.inr (.inr ⟨d, none, .inr ⟨List.suffix_append x d, List.prefix_append d e⟩⟩))
  · exact .inl ⟨d, y, by rw [rest, List.append_assoc]⟩

theorem word_ne_nil (word : p.Word w) : w ≠ [] := by
  rintro rfl
  obtain ⟨n, found⟩ := Option.ne_none_iff_exists'.mp (p.complete [] [] word List.nil_prefix)
  obtain ⟨pos, le, -⟩ := p.sound [] n found
  rw [List.length_nil] at le
  omega

/-- **No match comes up**: a pattern that the text does not have, or the one that is replaced, is
not in the result when the text put in overlaps none of its words. -/
theorem free_replaceAll {q : Pattern α} (inert : ∀ w, q.Word w → ¬ Overlaps w new)
    (clean : q.Free s ∨ q = p) : q.Free (p.replaceAll new s) := by
  induction s using p.induct with
  | nil => exact fun w word mem => word_ne_nil word (List.infix_nil.mp mem)
  | hit s n found ih =>
      intro w word mem
      rw [replaceAll_of_match found] at mem
      rcases infix_append_cases mem (word_ne_nil word) with later | overlaps
      · exact ih (clean.imp_left (·.of_suffix (List.drop_suffix n s))) w word later
      · exact inert w word overlaps
  | skip c s none ih =>
      intro w word mem
      rw [replaceAll_cons none, List.infix_cons_iff, ← replaceAll_cons none] at mem
      rcases mem with start | later
      · rcases prefix_replaceAll start with there | ⟨l, r, split, shorter⟩
        · rcases clean with free | rfl
          · exact free w word there.isInfix
          · exact q.complete _ w word there none
        · rw [split] at start
          exact inert w word (overlaps_of_start start shorter)
      · exact ih (clean.imp_left (·.of_suffix (List.suffix_cons c s))) w word later

/-! ### The text that is put in -/

theorem length_replaceAll (p : Pattern α) (s : List α) :
    ∃ kept hits, ∀ new, (p.replaceAll new s).length = kept + hits * new.length := by
  induction s using p.induct with
  | nil => exact ⟨0, 0, by simp⟩
  | hit s n found ih =>
      obtain ⟨kept, hits, lengths⟩ := ih
      refine ⟨kept, hits + 1, fun new => ?_⟩
      rw [replaceAll_of_match found, List.length_append, lengths]
      ring
  | skip c s none ih =>
      obtain ⟨kept, hits, lengths⟩ := ih
      refine ⟨kept + 1, hits, fun new => ?_⟩
      rw [replaceAll_cons none, List.length_cons, lengths]
      ring

theorem replaceAll_injective (present : ¬ p.Free s) :
    Function.Injective fun new => p.replaceAll new s := by
  induction s using p.induct with
  | nil =>
      refine absurd (fun w word mem => ?_) present
      exact word_ne_nil word (List.infix_nil.mp mem)
  | hit s n found ih =>
      intro new new' same
      simp only [replaceAll_of_match found] at same
      obtain ⟨kept, hits, lengths⟩ := p.length_replaceAll (s.drop n)
      have total := congrArg List.length same
      rw [List.length_append, List.length_append, lengths, lengths] at total
      have multiple : (hits + 1) * new.length = (hits + 1) * new'.length := by
        rw [Nat.succ_mul, Nat.succ_mul]
        omega
      have length := Nat.eq_of_mul_eq_mul_left (Nat.succ_pos hits) multiple
      exact (List.append_inj same length).1
  | skip c s none ih =>
      have later : ¬ p.Free s := by
        intro free
        refine present fun w word mem => ?_
        rcases List.infix_cons_iff.mp mem with start | later
        · exact p.complete _ w word start none
        · exact free w word later
      intro new new' same
      simp only [replaceAll_cons none, List.cons.injEq, true_and] at same
      exact ih later same

/-! ### Texts as patterns -/

/-- The pattern that matches one text. -/
def literal [DecidableEq α] (old : List α) (some : old ≠ []) : Pattern α where
  matchAt s := if old <+: s then .some old.length else none
  Word w := w = old
  sound s n h := by
    obtain ⟨start, length⟩ := Option.ite_none_right_eq_some.mp h
    obtain rfl := Option.some.inj length
    exact ⟨List.length_pos_iff.mpr some, start.length_le, (List.prefix_iff_eq_take.mp start).symm⟩
  complete s w word start := by
    subst word
    rw [if_pos start]
    exact Option.some_ne_none _

/-! ### Patterns of repeated characters -/

/-- A run of accepted entries, of bounded length. -/
structure Run (α : Type*) where
  accepts : α → Bool
  least : Nat
  most : Option Nat

/-- A word made of one run for each. -/
def Spells : List (Run α) → List α → Prop
  | [], w => w = []
  | run :: rest, w => ∃ u v, w = u ++ v ∧ (∀ c ∈ u, run.accepts c = true) ∧
      run.least ≤ u.length ∧ (∀ m ∈ run.most, u.length ≤ m) ∧ Spells rest v

/-- The first that is found, from `k` down to `least`. -/
def downFrom (f : Nat → Option Nat) (least : Nat) : Nat → Option Nat
  | 0 => if least = 0 then f 0 else none
  | k + 1 => if least ≤ k + 1 then (f (k + 1)).or (downFrom f least k) else none

/-- The longest a run can be at the start of a text. -/
def reach (run : Run α) (s : List α) : Nat :=
  match run.most with
  | some m => min m (s.takeWhile run.accepts).length
  | none => (s.takeWhile run.accepts).length

/-- The greedy match: each run as long as the ones behind it allow. -/
def matchRuns : List (Run α) → List α → Option Nat
  | [], _ => some 0
  | run :: rest, s =>
      downFrom (fun k => (matchRuns rest (s.drop k)).map (k + ·)) run.least (reach run s)

section Runs

variable {f : Nat → Option Nat} {least k n : Nat} {run : Run α} {runs : List (Run α)} {u : List α}

theorem downFrom_some (h : downFrom f least k = some n) :
    ∃ j, least ≤ j ∧ j ≤ k ∧ f j = some n := by
  induction k with
  | zero =>
      obtain ⟨rfl, h⟩ := Option.ite_none_right_eq_some.mp h
      exact ⟨0, Nat.le_refl _, Nat.le_refl _, h⟩
  | succ k ih =>
      obtain ⟨hle, h⟩ := Option.ite_none_right_eq_some.mp h
      rcases Option.or_eq_some_iff.mp h with here | ⟨-, below⟩
      · exact ⟨k + 1, hle, Nat.le_refl _, here⟩
      · obtain ⟨j, hleast, hj, hf⟩ := ih below
        exact ⟨j, hleast, Nat.le_succ_of_le hj, hf⟩

theorem downFrom_ne_none {j : Nat} (hleast : least ≤ j) (hj : j ≤ k) (hf : f j ≠ none) :
    downFrom f least k ≠ none := by
  induction k with
  | zero =>
      obtain rfl := Nat.le_zero.mp hj
      rwa [downFrom, if_pos (Nat.le_zero.mp hleast)]
  | succ k ih =>
      rw [downFrom, if_pos (hleast.trans hj)]
      intro none
      obtain ⟨here, below⟩ := Option.or_eq_none_iff.mp none
      rcases Nat.le_succ_iff.mp hj with hj | rfl
      · exact ih hj below
      · exact hf here

theorem le_reach (hall : ∀ c ∈ u, run.accepts c = true) (hmost : ∀ m ∈ run.most, u.length ≤ m)
    (h : u <+: s) : u.length ≤ reach run s := by
  obtain ⟨rest, rfl⟩ := h
  have inside : u.length ≤ ((u ++ rest).takeWhile run.accepts).length := by
    rw [List.takeWhile_append_of_pos hall, List.length_append]
    exact Nat.le_add_right _ _
  rw [reach]
  split
  · next m hm => exact le_min (hmost m hm) inside
  · exact inside

theorem reach_le (run : Run α) (s : List α) :
    reach run s ≤ (s.takeWhile run.accepts).length ∧ ∀ m ∈ run.most, reach run s ≤ m := by
  rw [reach]
  split
  · next m hm =>
      refine ⟨min_le_right _ _, fun m' hm' => ?_⟩
      obtain rfl := Option.some_inj.mp (hm.symm.trans hm')
      exact min_le_left _ _
  · next hm => exact ⟨Nat.le_refl _, fun m hm' => by rw [hm] at hm'; cases hm'⟩

theorem matchRuns_sound (h : matchRuns runs s = some n) :
    n ≤ s.length ∧ Spells runs (s.take n) := by
  induction runs generalizing s n with
  | nil =>
      obtain rfl := Option.some_inj.mp h
      exact ⟨Nat.zero_le _, rfl⟩
  | cons run runs ih =>
      obtain ⟨j, hleast, hj, hf⟩ := downFrom_some h
      obtain ⟨m, hm, rfl⟩ := Option.map_eq_some_iff.mp hf
      obtain ⟨hle, hspells⟩ := ih hm
      obtain ⟨hreach, hmost⟩ := reach_le run s
      have inside : s.take j <+: s.takeWhile run.accepts :=
        List.prefix_of_prefix_length_le (List.take_prefix _ _) (List.takeWhile_prefix _)
          ((List.length_take_le _ _).trans (hj.trans hreach))
      have hlong : j ≤ s.length := (hj.trans hreach).trans (List.takeWhile_prefix _).length_le
      have hlength : (s.take j).length = j := List.length_take_of_le hlong
      rw [List.length_drop] at hle
      refine ⟨by omega, s.take j, (s.drop j).take m, List.take_add, fun c hc => ?_, ?_, ?_, hspells⟩
      · exact List.mem_takeWhile_imp (inside.subset hc)
      · rwa [hlength]
      · intro most hmost'
        rw [hlength]
        exact hj.trans (hmost most hmost')

theorem matchRuns_complete (hw : Spells runs w) (h : w <+: s) : matchRuns runs s ≠ none := by
  induction runs generalizing s w with
  | nil => exact Option.some_ne_none _
  | cons run runs ih =>
      obtain ⟨u, v, rfl, hall, hleast, hmost, hv⟩ := hw
      obtain ⟨rest, rfl⟩ := h
      have hu : u <+: u ++ v ++ rest := ⟨v ++ rest, by simp⟩
      refine downFrom_ne_none hleast (le_reach hall hmost hu) ?_
      rw [ne_eq, Option.map_eq_none_iff, List.append_assoc, List.drop_left]
      exact ih hv (List.prefix_append v rest)

/-- The entries of a word are accepted by its runs. -/
theorem Spells.accepted (h : Spells runs w) : ∀ c ∈ w, ∃ run ∈ runs, run.accepts c = true := by
  induction runs generalizing w with
  | nil =>
      obtain rfl := h
      simp
  | cons run runs ih =>
      obtain ⟨u, v, rfl, hall, -, -, hv⟩ := h
      intro c hc
      rcases List.mem_append.mp hc with hc | hc
      · exact ⟨run, List.mem_cons_self, hall c hc⟩
      · obtain ⟨other, hother, haccepts⟩ := ih hv c hc
        exact ⟨other, List.mem_cons_of_mem _ hother, haccepts⟩

/-- A word ends in its last run, if that is not empty. -/
theorem Spells.getLast (h : Spells (runs ++ [run]) w) (hleast : 0 < run.least) :
    ∃ front c, w = front ++ [c] ∧ run.accepts c = true := by
  induction runs generalizing w with
  | nil =>
      obtain ⟨u, v, rfl, hall, hle, -, rfl⟩ := h
      rw [List.append_nil]
      rcases List.eq_nil_or_concat' u with rfl | ⟨front, c, rfl⟩
      · exact absurd (hleast.trans_le hle) (Nat.lt_irrefl _)
      · exact ⟨front, c, rfl, hall c (by simp)⟩
  | cons other runs ih =>
      obtain ⟨u, v, rfl, -, -, -, hv⟩ := h
      obtain ⟨front, c, rfl, haccepts⟩ := ih hv
      exact ⟨u ++ front, c, by rw [List.append_assoc], haccepts⟩

/-- The pattern of some runs, the last of which is not empty. -/
def ofRuns (runs : List (Run α)) (run : Run α) (hleast : 0 < run.least) : Pattern α where
  matchAt := matchRuns (runs ++ [run])
  Word := Spells (runs ++ [run])
  sound s n h := by
    obtain ⟨hle, hspells⟩ := matchRuns_sound h
    refine ⟨Nat.pos_of_ne_zero ?_, hle, hspells⟩
    rintro rfl
    obtain ⟨front, c, none, -⟩ := hspells.getLast hleast
    exact List.append_ne_nil_of_right_ne_nil _ (List.cons_ne_nil _ _) none.symm
  complete _ _ := matchRuns_complete

end Runs

end Pattern

end Lazuli.General
