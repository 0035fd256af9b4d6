import Mathlib.Data.List.Basic
import Mathlib.Logic.Relation

/-!
A walk that keeps its path.

From a place there is at most one way on. `pursue` follows it until there is none or until it
comes to a place whose name is on the path. The walk has fuel; `pursue_isSome` says how much is
enough. `Closes` is what it looks for, for any relation between places, and `Revisits` is the same
of a function without a path: the walk comes to some place twice.
-/

namespace Lazuli.General

variable {α β : Type*}

/-- Whether the walk comes back, and its path; `none` when the fuel is used up. -/
def pursue [DecidableEq β] (label : α → β) (next : α → Option α) :
    Nat → List β → α → Option (Bool × List β)
  | 0, _, _ => none
  | fuel + 1, path, a =>
      if label a ∈ path then some (true, path ++ [label a])
      else
        match next a with
        | none => some (false, path)
        | some b => pursue label next fuel (path ++ [label a]) b

/-- From here the steps lead back to the path, or to a place they have passed. -/
inductive Closes (label : α → β) (step : α → α → Prop) : List β → α → Prop
  | back {path : List β} {a : α} (passed : label a ∈ path) : Closes label step path a
  | onward {path : List β} {a b : α} (way : step a b)
      (rest : Closes label step (path ++ [label a]) b) : Closes label step path a

/-- The place after so many steps. -/
def after (next : α → Option α) : Nat → α → Option α
  | 0, a => some a
  | n + 1, a => (next a).bind (after next n)

/-- Some place is visited twice. -/
def Revisits (next : α → Option α) (a : α) : Prop :=
  ∃ m n b, m < n ∧ after next m a = some b ∧ after next n a = some b

section Pursue

variable [DecidableEq β] {label : α → β} {next : α → Option α} {a : α} {path : List β}

/-- As much fuel as there are places with a way on, and one more. -/
theorem pursue_isSome (places : List β) {fuel : Nat}
    (known : ∀ a b, next a = some b → label a ∈ places ∨ label a ∈ path)
    (enough : places.length < fuel) : (pursue label next fuel path a).isSome = true := by
  induction fuel generalizing places path a with
  | zero => omega
  | succ fuel ih =>
      rw [pursue]
      split
      · rfl
      · rename_i fresh
        cases way : next a with
        | none => rfl
        | some b =>
            have here : label a ∈ places := (known a b way).resolve_right fresh
            refine @ih _ _ (places.erase (label a)) (fun c d hway => ?_) ?_
            · rcases known c d hway with hmem | hmem
              · by_cases same : label c = label a
                · exact .inr (by simp [same])
                · exact .inl ((List.mem_erase_of_ne same).mpr hmem)
              · exact .inr (List.mem_append_left _ hmem)
            · rw [List.length_erase_of_mem here]
              have := List.length_pos_of_mem here
              omega

/-- The walk that has come to its end has come back exactly when the steps close. -/
theorem pursue_iff {fuel : Nat} {r : Bool × List β} (ran : pursue label next fuel path a = some r) :
    r.1 = true ↔ Closes label (fun a b => next a = some b) path a := by
  induction fuel generalizing path a with
  | zero => cases ran
  | succ fuel ih =>
      rw [pursue] at ran
      split at ran
      · rename_i passed
        obtain rfl := Option.some.inj ran
        exact ⟨fun _ => .back passed, fun _ => rfl⟩
      · rename_i fresh
        cases way : next a with
        | none =>
            rw [way] at ran
            obtain rfl := Option.some.inj ran
            refine ⟨nofun, fun closes => ?_⟩
            cases closes with
            | back passed => exact absurd passed fresh
            | onward step _ => cases way.symm.trans step
        | some b =>
            rw [way] at ran
            rw [ih ran]
            constructor
            · exact .onward way
            · intro closes
              cases closes with
              | back passed => exact absurd passed fresh
              | onward step rest =>
                  obtain rfl := Option.some.inj (way.symm.trans step)
                  exact rest

end Pursue

section Closes

variable {label : α → β} {step step' : α → α → Prop} {next : α → Option α} {a : α}

/-- Finer names and fewer steps close less. -/
theorem Closes.map {γ : Type*} {fine : α → γ} (f : γ → β) {path : List γ}
    (same : ∀ a, label a = f (fine a)) (fewer : ∀ a b, step a b → step' a b)
    (closes : Closes fine step path a) : Closes label step' (path.map f) a := by
  induction closes with
  | back passed => exact .back (by rw [same]; exact List.mem_map_of_mem passed)
  | onward way _ ih =>
      refine .onward (fewer _ _ way) ?_
      rwa [List.map_append, List.map_singleton, ← same] at ih

/-- The steps from a place on the path do not matter. -/
theorem Closes.apart {place : α} {path : List α} (passed : place ∈ path)
    (fewer : ∀ a b, a ≠ place → step a b → step' a b) (closes : Closes id step path a) :
    Closes id step' path a := by
  induction closes with
  | back here => exact .back here
  | @onward path a b way _ ih =>
      by_cases same : a = place
      · exact .back (same ▸ passed)
      · exact .onward (fewer a b same way) (ih (List.mem_append_left _ passed))

theorem after_succ {n : Nat} {b c : α} (way : next a = some b) (h : after next n b = some c) :
    after next (n + 1) a = some c := by
  rw [after, way]
  exact h

theorem Revisits.before {b : α} (way : next a = some b) (h : Revisits next b) :
    Revisits next a := by
  obtain ⟨m, n, c, lt, first, second⟩ := h
  exact ⟨m + 1, n + 1, c, Nat.succ_lt_succ lt, after_succ way first, after_succ way second⟩

/-- Steps of a function that close come to the path or visit a place twice. -/
theorem Closes.revisits {path : List α} (closes : Closes id (fun a b => next a = some b) path a) :
    (∃ n b, after next n a = some b ∧ b ∈ path) ∨ Revisits next a := by
  induction closes with
  | @back path a passed => exact .inl ⟨0, a, rfl, passed⟩
  | @onward path a b way _ ih =>
      rcases ih with ⟨n, c, reached, passed⟩ | again
      · rcases List.mem_append.mp passed with passed | here
        · exact .inl ⟨n + 1, c, after_succ way reached, passed⟩
        · rw [List.mem_singleton.mp here] at reached
          exact .inr ⟨0, n + 1, a, Nat.succ_pos n, rfl, after_succ way reached⟩
      · exact .inr (again.before way)

theorem closes_of_after {n : Nat} {b : α} {path : List α} (passed : b ∈ path)
    (reached : after next n a = some b) : Closes id (fun a b => next a = some b) path a := by
  induction n generalizing a path with
  | zero =>
      obtain rfl := Option.some.inj reached
      exact .back passed
  | succ n ih =>
      obtain ⟨c, way, rest⟩ := Option.bind_eq_some_iff.mp reached
      exact .onward way (ih (List.mem_append_left _ passed) rest)

theorem Revisits.closes (again : Revisits next a) (path : List α) :
    Closes id (fun a b => next a = some b) path a := by
  obtain ⟨m, n, b, lt, first, second⟩ := again
  induction m generalizing a n path with
  | zero =>
      cases n with
      | zero => cases lt
      | succ n =>
          obtain rfl := Option.some.inj first
          obtain ⟨c, way, rest⟩ := Option.bind_eq_some_iff.mp second
          exact .onward way (closes_of_after (by simp) rest)
  | succ m ih =>
      cases n with
      | zero => cases lt
      | succ n =>
          obtain ⟨c, way, early⟩ := Option.bind_eq_some_iff.mp first
          rw [after, way] at second
          exact .onward way (ih _ n (Nat.lt_of_succ_lt_succ lt) early second)

/-- The steps of a function close exactly when they visit a place twice. -/
theorem closes_iff_revisits :
    Closes id (fun a b => next a = some b) [] a ↔ Revisits next a := by
  refine ⟨fun closes => ?_, fun again => again.closes []⟩
  rcases closes.revisits with ⟨n, b, -, passed⟩ | again
  · cases passed
  · exact again

end Closes

end Lazuli.General
