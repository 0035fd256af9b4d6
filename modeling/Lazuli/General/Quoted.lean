import Mathlib.Data.List.Basic

/-!
Searching a text outside quotes.

A mark `q` opens and closes quoted regions, over any alphabet. `search` walks a text to the
first place outside quotes where `op` stands; in front of some characters it cannot go on.
`Occurs` says where `op` stands, and `Clear` that no character of a kind is outside quotes.
With these the three outcomes of a search are told apart, and a text whose two sides are
clear of operator characters has its operators between the sides.
-/

namespace Lazuli.General.Quoted

variable {α : Type} [DecidableEq α] {q : α} {hazard : α → Bool} {inside : Bool}
  {op s t before after before' after' : List α}

/-! ### Quoted regions -/

/-- Whether the text ends inside quotes. -/
def endsInside (q : α) : Bool → List α → Bool
  | inside, [] => inside
  | inside, c :: rest => endsInside q (if c = q then !inside else inside) rest

/-- No character of the kind stands outside quotes. -/
def Clear (q : α) (kind : α → Bool) : Bool → List α → Prop
  | _, [] => True
  | inside, c :: rest =>
      if c = q then Clear q kind (!inside) rest
      else (inside = false → kind c = false) ∧ Clear q kind inside rest

theorem endsInside_append (inside : Bool) (s t : List α) :
    endsInside q inside (s ++ t) = endsInside q (endsInside q inside s) t := by
  induction s generalizing inside with
  | nil => rfl
  | cons c s ih => exact ih _

theorem endsInside_of_notMem (h : q ∉ s) : endsInside q inside s = inside := by
  induction s with
  | nil => rfl
  | cons c s ih =>
      have hc : c ≠ q := fun same => h (same ▸ List.mem_cons_self)
      rw [endsInside, if_neg hc]
      exact ih fun hq => h (List.mem_cons_of_mem _ hq)

theorem clear_append (kind : α → Bool) (s t : List α) : Clear q kind inside (s ++ t) ↔
    Clear q kind inside s ∧ Clear q kind (endsInside q inside s) t := by
  induction s generalizing inside with
  | nil => exact ⟨fun h => ⟨trivial, h⟩, fun h => h.2⟩
  | cons c s ih =>
      by_cases hc : c = q
      · simp only [List.cons_append, Clear, endsInside, if_pos hc]
        exact ih
      · simp only [List.cons_append, Clear, endsInside, if_neg hc]
        rw [ih, and_assoc]

theorem clear_of_forall {kind : α → Bool} (h : ∀ c ∈ s, kind c = false) :
    Clear q kind inside s := by
  induction s generalizing inside with
  | nil => trivial
  | cons c s ih =>
      have rest : ∀ c ∈ s, kind c = false := fun d hd => h d (List.mem_cons_of_mem _ hd)
      unfold Clear
      split
      · exact ih rest
      · exact ⟨fun _ => h c List.mem_cons_self, ih rest⟩

theorem clear_inside {kind : α → Bool} (h : q ∉ s) : Clear q kind true s := by
  induction s with
  | nil => trivial
  | cons c s ih =>
      have hc : c ≠ q := fun same => h (same ▸ List.mem_cons_self)
      rw [Clear, if_neg hc]
      exact ⟨fun no => absurd no.symm Bool.false_ne_true,
        ih fun hq => h (List.mem_cons_of_mem _ hq)⟩

/-- A character outside quotes in a clear text is of another kind. -/
theorem Clear.at {kind : α → Bool} {c : α} (clear : Clear q kind inside (s ++ c :: t))
    (outside : endsInside q inside s = false) (hc : c ≠ q) : kind c = false := by
  obtain ⟨-, rest⟩ := (clear_append kind s (c :: t)).mp clear
  rw [Clear, if_neg hc] at rest
  exact rest.1 outside

/-! ### Searching -/

/-- `op` stands outside quotes, with `before` and `after` around it. -/
def Occurs (q : α) (op : List α) (inside : Bool) (t before after : List α) : Prop :=
  t = before ++ (op ++ after) ∧ endsInside q inside before = false

/-- No other place is nearer. -/
def First (q : α) (op : List α) (inside : Bool) (t before after : List α) : Prop :=
  Occurs q op inside t before after ∧
    ∀ before' after', Occurs q op inside t before' after' → before.length ≤ before'.length

inductive Found (α : Type) where
  | at (before after : List α)
  | nowhere
  | stuck
  deriving DecidableEq

/-- The outcome with one character more in front. -/
def Found.behind (c : α) : Found α → Found α
  | .at before after => .at (c :: before) after
  | .nowhere => .nowhere
  | .stuck => .stuck

/-- The first place of `op` outside quotes. A hazard outside quotes stops the search, unless
`op` stands there. -/
def search (q : α) (hazard : α → Bool) (op : List α) : Bool → List α → Found α
  | _, [] => .nowhere
  | inside, c :: rest =>
      if c = q then (search q hazard op (!inside) rest).behind c
      else if inside then (search q hazard op inside rest).behind c
      else match (c :: rest).dropPrefix? op with
        | some after => .at [] after
        | none => if hazard c then .stuck else (search q hazard op inside rest).behind c

theorem dropPrefix_iff {l p s : List α} : l.dropPrefix? p = some s ↔ l = p ++ s := by
  rw [List.dropPrefix?_eq_some_iff]
  constructor
  · rintro ⟨p', hl, hp⟩
    rw [hl, eq_of_beq hp]
  · intro hl
    exact ⟨p, hl, beq_self_eq_true p⟩

/-- A place in a longer text is its beginning, or a place in the rest. -/
theorem occurs_cons {c : α} : Occurs q op inside (c :: s) before after ↔
    before = [] ∧ c :: s = op ++ after ∧ inside = false ∨
      ∃ rest, before = c :: rest ∧
        Occurs q op (if c = q then !inside else inside) s rest after := by
  cases before with
  | nil =>
      constructor
      · rintro ⟨split, outside⟩
        exact .inl ⟨rfl, split, outside⟩
      · rintro (⟨-, split, outside⟩ | ⟨rest, no, -⟩)
        · exact ⟨split, outside⟩
        · cases no
  | cons d before =>
      constructor
      · rintro ⟨split, outside⟩
        obtain ⟨rfl, remains⟩ := List.cons.inj split
        exact .inr ⟨before, rfl, remains, outside⟩
      · rintro (⟨no, -, -⟩ | ⟨rest, same, split, outside⟩)
        · cases no
        · obtain ⟨rfl, rfl⟩ := List.cons.inj same
          exact ⟨congrArg (d :: ·) split, outside⟩

theorem not_occurs_nil {o : α} {os : List α} :
    ¬ Occurs q (o :: os) inside [] before after := by
  rintro ⟨split, -⟩
  cases before <;> cases split

/-- What a search says. -/
inductive Outcome (q : α) (hazard : α → Bool) (op : List α) (inside : Bool) (t : List α) :
    Found α → Prop where
  | at {before after : List α} : First q op inside t before after →
      Clear q hazard inside before → Outcome q hazard op inside t (.at before after)
  | nowhere : (∀ before after, ¬ Occurs q op inside t before after) →
      Clear q hazard inside t → Outcome q hazard op inside t .nowhere
  | stuck : ¬ Clear q hazard inside t →
      (∀ before after, Occurs q op inside t before after → ¬ Clear q hazard inside before) →
      Outcome q hazard op inside t .stuck

/-- One character that is not where `op` begins, and at which the search goes on. -/
theorem Outcome.behind {c : α} {found : Found α} (notHere : c ≠ q → inside = false →
      ∀ after, c :: s ≠ op ++ after)
    (marked : c = q → ∀ after, c :: s ≠ op ++ after)
    (safe : c ≠ q → inside = false → hazard c = false)
    (rest : Outcome q hazard op (if c = q then !inside else inside) s found) :
    Outcome q hazard op inside (c :: s) (found.behind c) := by
  have there {before after : List α} : Occurs q op inside (c :: s) before after ↔
      ∃ rest, before = c :: rest ∧
        Occurs q op (if c = q then !inside else inside) s rest after := by
    rw [occurs_cons]
    refine or_iff_right ?_
    rintro ⟨-, here, outside⟩
    by_cases hc : c = q
    · exact marked hc _ here
    · exact notHere hc outside _ here
  have clear {u : List α} : Clear q hazard inside (c :: u) ↔
      Clear q hazard (if c = q then !inside else inside) u := by
    by_cases hc : c = q
    · simp only [Clear, if_pos hc]
    · simp only [Clear, if_neg hc]
      exact and_iff_right (safe hc)
  cases rest with
  | «at» first free =>
      refine .at ⟨there.mpr ⟨_, rfl, first.1⟩, ?_⟩ (clear.mpr free)
      intro before' after' occurs
      obtain ⟨rest, rfl, deeper⟩ := there.mp occurs
      exact Nat.succ_le_succ (first.2 _ _ deeper)
  | nowhere none free =>
      refine .nowhere ?_ (clear.mpr free)
      intro before after occurs
      obtain ⟨rest, -, deeper⟩ := there.mp occurs
      exact none _ _ deeper
  | stuck bad all =>
      refine .stuck (fun free => bad (clear.mp free)) ?_
      intro before after occurs free
      obtain ⟨rest, rfl, deeper⟩ := there.mp occurs
      exact all _ _ deeper (clear.mp free)

/-- The search ends with the first place, with none, or in front of a hazard that comes
before every place. -/
theorem search_outcome {o : α} {os : List α} (ho : o ≠ q) (inside : Bool) (t : List α) :
    Outcome q hazard (o :: os) inside t (search q hazard (o :: os) inside t) := by
  induction t generalizing inside with
  | nil => exact .nowhere (fun _ _ => not_occurs_nil) trivial
  | cons c s ih =>
      rw [search]
      split
      next hc =>
        have rest := ih (!inside)
        refine Outcome.behind (fun no => absurd hc no) ?_ (fun no => absurd hc no) ?_
        · intro _ after here
          exact ho ((List.cons.inj here).1.symm.trans hc)
        · rwa [if_pos hc]
      next hc =>
        split
        next quoted =>
          refine Outcome.behind (fun _ no => ?_) (fun no => absurd no hc) (fun _ no => ?_) ?_
          · rw [quoted] at no
            cases no
          · rw [quoted] at no
            cases no
          · rw [if_neg hc]
            exact ih inside
        next unquoted =>
          have outside : inside = false := Bool.eq_false_iff.mpr unquoted
          split
          next after here =>
            have split : c :: s = (o :: os) ++ after := dropPrefix_iff.mp here
            refine .at ⟨⟨split, outside⟩, ?_⟩ trivial
            exact fun _ _ _ => Nat.zero_le _
          next none =>
            have notHere : ∀ after, c :: s ≠ (o :: os) ++ after := by
              intro after here
              rw [dropPrefix_iff.mpr here] at none
              cases none
            split
            next bad =>
              have blocked {u : List α} : ¬ Clear q hazard inside (c :: u) := by
                rw [Clear, if_neg hc]
                intro free
                rw [free.1 outside] at bad
                cases bad
              refine .stuck blocked ?_
              intro before after occurs
              rcases occurs_cons.mp occurs with ⟨-, here, -⟩ | ⟨rest, rfl, -⟩
              · exact absurd here (notHere _)
              · exact blocked
            next safe =>
              refine Outcome.behind (fun _ _ => notHere) (fun no => absurd no hc) ?_ ?_
              · exact fun _ _ => Bool.eq_false_iff.mpr safe
              · rw [if_neg hc]
                exact ih inside

/-! ### One operator between two sides -/

/-- Two first places are one. -/
theorem First.unique (one : First q op inside t before after)
    (other : First q op inside t before' after') : before = before' ∧ after = after' := by
  have length := Nat.le_antisymm (one.2 _ _ other.1) (other.2 _ _ one.1)
  obtain ⟨same, rest⟩ := List.append_inj (one.1.1.symm.trans other.1.1) length
  exact ⟨same, List.append_cancel_left rest⟩

/-- An operator stands behind a side that is clear of its first character. -/
theorem Occurs.behind {kind : α → Bool} {o : α} {os l m : List α}
    (occurs : Occurs q (o :: os) false (l ++ m) before after) (ho : kind o = true) (hq : o ≠ q)
    (clear : Clear q kind false l) (closed : endsInside q false l = false) :
    ∃ rest, before = l ++ rest ∧ Occurs q (o :: os) false m rest after := by
  obtain ⟨split, outside⟩ := occurs
  rcases List.append_eq_append_iff.mp split with ⟨rest, rfl, hm⟩ | ⟨rest, rfl, hm⟩
  · refine ⟨rest, rfl, hm, ?_⟩
    rw [endsInside_append, closed] at outside
    exact outside
  · cases rest with
    | nil => exact ⟨[], by simp, hm.symm, rfl⟩
    | cons c rest =>
        obtain ⟨rfl, -⟩ := List.cons.inj hm
        rw [clear.at outside hq] at ho
        cases ho

/-- A side that is clear of its first character has no operator. -/
theorem Occurs.not_clear {kind : α → Bool} {o : α} {os : List α}
    (occurs : Occurs q (o :: os) inside t before after) (ho : kind o = true) (hq : o ≠ q) :
    ¬ Clear q kind inside t := by
  intro clear
  obtain ⟨rfl, outside⟩ := occurs
  rw [List.cons_append] at clear
  rw [clear.at outside hq] at ho
  cases ho

end Lazuli.General.Quoted
