import Mathlib.Data.List.Basic

/-!
Runs of a program that answers a sequence of inputs.

A `step` function maps a state and an input to the next state and an answer; `runState` and
`runOutputs` fold it over a list. The induction that a development should do only once comes in
three forms:

* `Along.inv`: what a guarded step preserves holds after a guarded run;
* `along_iff_not_bad`: the guard is exact when every unguarded step does lasting harm;
* `runOutputs_eq_of_simulation`: a lockstep simulation gives equal answers.
-/

namespace Lazuli.General

variable {σ τ ε ω : Type*}

/-- The state after answering all inputs. -/
def runState (step : σ → ε → σ × ω) : σ → List ε → σ
  | s, [] => s
  | s, e :: es => runState step (step s e).1 es

/-- The answers, in order. -/
def runOutputs (step : σ → ε → σ × ω) : σ → List ε → List ω
  | _, [] => []
  | s, e :: es => (step s e).2 :: runOutputs step (step s e).1 es

/-- `Along step P s es`: every step of the run satisfies `P` of the state it starts
from and of its input. -/
def Along (step : σ → ε → σ × ω) (P : σ → ε → Prop) : σ → List ε → Prop
  | _, [] => True
  | s, e :: es => P s e ∧ Along step P (step s e).1 es

instance Along.decidable (step : σ → ε → σ × ω) (P : σ → ε → Prop)
    [∀ s e, Decidable (P s e)] : ∀ s es, Decidable (Along step P s es)
  | _, [] => .isTrue trivial
  | s, e :: es =>
      have := Along.decidable step P (step s e).1 es
      inferInstanceAs (Decidable (P s e ∧ Along step P (step s e).1 es))

variable {step : σ → ε → σ × ω} {P : σ → ε → Prop}

@[simp] theorem runState_nil (s : σ) : runState step s [] = s := rfl

@[simp] theorem runState_cons (s : σ) (e : ε) (es : List ε) :
    runState step s (e :: es) = runState step (step s e).1 es := rfl

@[simp] theorem runOutputs_nil (s : σ) : runOutputs step s [] = [] := rfl

@[simp] theorem runOutputs_cons (s : σ) (e : ε) (es : List ε) :
    runOutputs step s (e :: es) = (step s e).2 :: runOutputs step (step s e).1 es := rfl

theorem runState_append (s : σ) (es fs : List ε) :
    runState step s (es ++ fs) = runState step (runState step s es) fs := by
  induction es generalizing s with
  | nil => rfl
  | cons e es ih => exact ih _

theorem Along.append {s : σ} {es fs : List ε} (h : Along step P s (es ++ fs)) :
    Along step P s es ∧ Along step P (runState step s es) fs := by
  induction es generalizing s with
  | nil => exact ⟨trivial, h⟩
  | cons e es ih =>
      obtain ⟨here, rest⟩ := h
      obtain ⟨before, after⟩ := ih rest
      exact ⟨⟨here, before⟩, after⟩

theorem Along.trivial (step : σ → ε → σ × ω) (s : σ) (es : List ε) : Along step (fun _ _ => True) s es := by
  induction es generalizing s with
  | nil => exact True.intro
  | cons e es ih => exact ⟨True.intro, ih _⟩

/-- What every guarded step preserves holds after a guarded run. -/
theorem Along.inv {I : σ → Prop}
    (preserves : ∀ s e, I s → P s e → I (step s e).1)
    {s : σ} {es : List ε} (init : I s) (along : Along step P s es) :
    I (runState step s es) := by
  induction es generalizing s with
  | nil => exact init
  | cons e es ih => exact ih (preserves s e init along.1) along.2

/-- A guarded run from an invariant has at each step what the invariant and the guard give. -/
theorem Along.strengthen {I : σ → Prop} {Q : σ → ε → Prop}
    (gives : ∀ s e, I s → P s e → I (step s e).1 ∧ Q s e)
    {s : σ} {es : List ε} (init : I s) (along : Along step P s es) : Along step Q s es := by
  induction es generalizing s with
  | nil => exact True.intro
  | cons e es ih =>
      obtain ⟨next, here⟩ := gives s e init along.1
      exact ⟨here, ih next along.2⟩

/-- A run without a bad end is guarded throughout, when an unguarded step is bad and a bad
state stays bad. -/
theorem along_iff_not_bad (I Bad : σ → Prop)
    (preserves : ∀ s e, I s → P s e → I (step s e).1)
    (breaks : ∀ s e, I s → ¬ P s e → Bad (step s e).1)
    (stays : ∀ s e, Bad s → Bad (step s e).1) (good : ∀ s, I s → ¬ Bad s)
    {s : σ} {es : List ε} (init : I s) :
    Along step P s es ↔ ¬ Bad (runState step s es) := by
  constructor
  · intro along
    exact good _ (along.inv preserves init)
  · intro notBad
    induction es generalizing s with
    | nil => trivial
    | cons e es ih =>
        have here : P s e := by
          by_contra unguarded
          have anyRun := Along.trivial step (step s e).1 es
          have bad : Bad (runState step (step s e).1 es) :=
            anyRun.inv (fun s e bad _ => stays s e bad) (breaks s e init unguarded)
          exact notBad bad
        exact ⟨here, ih (preserves s e init here) notBad⟩

/-- A lockstep simulation. The relation may speak of the inputs still to come, so
that it can carry their ordering. -/
theorem runOutputs_eq_of_simulation {step' : τ → ε → τ × ω}
    {R : σ → τ → List ε → Prop}
    (lockstep : ∀ s t e es, R s t (e :: es) → P s e →
      (step s e).2 = (step' t e).2 ∧ R (step s e).1 (step' t e).1 es)
    {s : σ} {t : τ} {es : List ε} (related : R s t es) (along : Along step P s es) :
    runOutputs step s es = runOutputs step' t es := by
  induction es generalizing s t with
  | nil => rfl
  | cons e es ih =>
      obtain ⟨same, next⟩ := lockstep s t e es related along.1
      rw [runOutputs_cons, runOutputs_cons, same, ih next along.2]

end Lazuli.General
