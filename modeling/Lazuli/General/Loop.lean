import Mathlib.Data.List.Basic
import Mathlib.Data.List.Chain
import Mathlib.Data.List.Forall2

/-!
Loops over a list that may stop with an error.

* `foldlM_view`: two loops run in lockstep when a view of the first one's accumulator is the second
  one's;
* `foldlM_inv`: what holds of the elements done and the accumulator holds at the end;
* `foldl_iff`: a loop that cannot fail, and what each of its steps may add.
-/

namespace Lazuli.General

universe u

variable {ε σ τ : Type u} {α β : Type*}

theorem foldlM_view {f : σ → α → Except ε σ} {g : τ → β → Except ε τ} (view : σ → τ) (h : α → β)
    {l : List α} (step : ∀ s, ∀ a ∈ l, (f s a).map view = g (view s) (h a)) (s : σ) :
    (l.foldlM f s).map view = (l.map h).foldlM g (view s) := by
  induction l generalizing s with
  | nil => rfl
  | cons a l ih =>
      have here := step s a List.mem_cons_self
      have rest := ih (fun s b hb => step s b (List.mem_cons_of_mem a hb))
      rw [List.map_cons, List.foldlM_cons, List.foldlM_cons, ← here]
      cases f s a with
      | error e => rfl
      | ok s' => exact rest s'

theorem foldlM_inv_append {f : σ → α → Except ε σ} (I : List α → σ → Prop)
    (step : ∀ done a s s', I done s → f s a = .ok s' → I (done ++ [a]) s') {done l : List α}
    {s s' : σ} (init : I done s) (run : l.foldlM f s = .ok s') : I (done ++ l) s' := by
  induction l generalizing s done with
  | nil =>
      cases run
      rwa [List.append_nil]
  | cons a l ih =>
      rw [List.foldlM_cons] at run
      cases here : f s a with
      | error e =>
          rw [here] at run
          cases run
      | ok t =>
          rw [here] at run
          have next := ih (step done a s t init here) run
          rwa [List.append_assoc, List.singleton_append] at next

theorem foldlM_inv {f : σ → α → Except ε σ} (I : List α → σ → Prop)
    (step : ∀ done a s s', I done s → f s a = .ok s' → I (done ++ [a]) s') {l : List α} {s s' : σ}
    (init : I [] s) (run : l.foldlM f s = .ok s') : I l s' :=
  foldlM_inv_append I step init run

theorem foldl_iff {f : σ → α → σ} {P : σ → Prop} {Q : α → Prop}
    (step : ∀ s a, P (f s a) ↔ P s ∨ Q a) (s : σ) (l : List α) :
    P (l.foldl f s) ↔ P s ∨ ∃ a ∈ l, Q a := by
  induction l generalizing s with
  | nil => simp
  | cons a l ih => rw [List.foldl_cons, ih, step, or_assoc, List.exists_mem_cons_iff]

end Lazuli.General

/-!
Guarded jumps.

A jump leaves the states of a set and ends in one state. A list of jumps can be taken one by
one, or at once: from the sources of the first to the target of the last. Both agree when every
jump ends where the next one may start.
-/

namespace Lazuli.General

structure Jump (σ : Type*) where
  sources : σ → Bool
  target : σ

namespace Jump

variable {σ : Type*}

def fire (j : Jump σ) (s : σ) : Option σ := if j.sources s then some j.target else none

/-- One by one. -/
def fireAll : List (Jump σ) → σ → Option σ
  | [], s => some s
  | j :: js, s => (j.fire s).bind (fireAll js)

/-- Only the first is guarded, and the last target is written. -/
def skip : List (Jump σ) → σ → Option σ
  | [], s => some s
  | j :: js, s => if j.sources s then ((j :: js).getLast?).map (·.target) else none

/-- Every jump ends in a source of the next. -/
def Contiguous (js : List (Jump σ)) : Prop := js.IsChain fun l r => r.sources l.target

@[simp] theorem fire_of_source {j : Jump σ} {s : σ} (h : j.sources s) : j.fire s = some j.target :=
  if_pos h

@[simp] theorem fireAll_nil (s : σ) : fireAll [] s = some s := rfl

@[simp] theorem fireAll_cons (j : Jump σ) (js : List (Jump σ)) (s : σ) :
    fireAll (j :: js) s = (j.fire s).bind (fireAll js) := rfl

/-- Behind a jump, a contiguous list fires to its end. -/
theorem fireAll_target {j : Jump σ} {js : List (Jump σ)} (h : Contiguous (j :: js)) :
    fireAll js j.target = ((j :: js).getLast?).map (·.target) := by
  induction js generalizing j with
  | nil => rfl
  | cons next js ih =>
      obtain ⟨starts, rest⟩ := List.isChain_cons_cons.mp h
      rw [fireAll_cons, fire_of_source starts, Option.bind_some, ih rest]
      simp

theorem skip_eq_fireAll {js : List (Jump σ)} (h : Contiguous js) (s : σ) :
    skip js s = fireAll js s := by
  cases js with
  | nil => rfl
  | cons j js =>
      simp only [skip, fireAll_cons, fire]
      split
      · rw [Option.bind_some, fireAll_target h]
      · rfl

end Jump

end Lazuli.General
