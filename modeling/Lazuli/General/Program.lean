import Lazuli.General.Transition

/-!
Programs that run beside each other, one operation at a time.

A `Program` carries out operations and goes on with their answers. `Threads.act` lets one
program of a family take its next operation on a shared state, or the outside change that
state; everything may happen between two operations of a program.
-/

namespace Lazuli.General

inductive Program {Op : Type} (Res : Op → Type) (α : Type) where
  | done (a : α)
  | call (op : Op) (rest : Res op → Program Res α)

namespace Program

variable {Op : Type} {Res : Op → Type} {α β : Type}

def map (f : α → β) : Program Res α → Program Res β
  | .done a => .done (f a)
  | .call op rest => .call op fun r => (rest r).map f

@[simp] theorem map_done (f : α → β) (a : α) : (done a : Program Res α).map f = done (f a) := rfl

@[simp] theorem map_call (f : α → β) (op : Op) (rest : Res op → Program Res α) :
    (call op rest).map f = call op fun r => (rest r).map f := rfl

def result? : Program Res α → Option α
  | .done a => some a
  | .call _ _ => none

@[simp] theorem result?_done (a : α) : (done a : Program Res α).result? = some a := rfl

@[simp] theorem result?_call (op : Op) (rest : Res op → Program Res α) :
    (call op rest).result? = none := rfl

theorem result?_eq_some {p : Program Res α} {a : α} : p.result? = some a ↔ p = .done a := by
  cases p with
  | done b => simp
  | call op rest => simp

/-- The operation a program is about to carry out. -/
def next? : Program Res α → Option Op
  | .done _ => none
  | .call op _ => some op

@[simp] theorem next?_done (a : α) : (done a : Program Res α).next? = none := rfl

@[simp] theorem next?_call (op : Op) (rest : Res op → Program Res α) :
    (call op rest).next? = some op := rfl

/-! ### Runs of one program -/

def bind (p : Program Res α) (f : α → Program Res β) : Program Res β :=
  match p with
  | .done a => f a
  | .call op rest => .call op fun r => (rest r).bind f

@[simp] theorem bind_done (a : α) (f : α → Program Res β) :
    (done a : Program Res α).bind f = f a := rfl

@[simp] theorem bind_call (op : Op) (rest : Res op → Program Res α) (f : α → Program Res β) :
    (call op rest).bind f = call op fun r => (rest r).bind f := rfl

/-- An operation with its answer. -/
structure Answered (Res : Op → Type) where
  op : Op
  answer : Res op

/-- The program can end with `a` after these operations were answered so. -/
inductive Runs : Program Res α → List (Answered Res) → α → Prop where
  | done (a : α) : Runs (.done a) [] a
  | call {op : Op} {rest : Res op → Program Res α} {r : Res op} {trace : List (Answered Res)}
      {a : α} : Runs (rest r) trace a → Runs (.call op rest) (⟨op, r⟩ :: trace) a

@[simp] theorem runs_done {a b : α} {trace : List (Answered Res)} :
    (done a : Program Res α).Runs trace b ↔ trace = [] ∧ b = a := by
  constructor
  · intro run
    cases run
    exact ⟨rfl, rfl⟩
  · rintro ⟨rfl, rfl⟩
    exact .done b

theorem runs_call {op : Op} {rest : Res op → Program Res α} {trace : List (Answered Res)} {a : α} :
    (call op rest).Runs trace a ↔
      ∃ r later, trace = ⟨op, r⟩ :: later ∧ (rest r).Runs later a := by
  constructor
  · intro run
    cases run with
    | call run => exact ⟨_, _, rfl, run⟩
  · rintro ⟨r, later, rfl, run⟩
    exact .call run

theorem runs_bind {p : Program Res α} {f : α → Program Res β} {trace : List (Answered Res)}
    {b : β} : (p.bind f).Runs trace b ↔
      ∃ first a second, trace = first ++ second ∧ p.Runs first a ∧ (f a).Runs second b := by
  constructor
  · induction p generalizing trace with
    | done a => exact fun run => ⟨[], a, trace, rfl, .done a, run⟩
    | call op rest ih =>
        rw [bind_call, runs_call]
        rintro ⟨r, later, rfl, run⟩
        obtain ⟨first, a, second, rfl, before, after⟩ := ih r run
        exact ⟨⟨op, r⟩ :: first, a, second, rfl, .call before, after⟩
  · rintro ⟨first, a, second, rfl, before, after⟩
    induction before with
    | done a => exact after
    | call _ ih => exact .call (ih after)

/-! ### A program with fixed answers -/

section Reaches

variable (answer : (op : Op) → Res op) (q : Op → Bool)

/-- The program comes to an operation of this kind. -/
def reaches : Program Res α → Bool
  | .done _ => false
  | .call op rest => q op || (rest (answer op)).reaches

@[simp] theorem reaches_done (a : α) : (done a : Program Res α).reaches answer q = false := rfl

@[simp] theorem reaches_call (op : Op) (rest : Res op → Program Res α) :
    (call op rest).reaches answer q = (q op || (rest (answer op)).reaches answer q) := rfl

end Reaches

/-! ### A program alone -/

section Alone

variable {σ Choice : Type} (exec : (op : Op) → Choice → σ → σ × Res op)

/-- Nothing happens between the operations, each of which takes the next choice. -/
def alone : Program Res α → (Nat → Choice) → σ → σ × List (Answered Res) × α
  | .done a, _, s => (s, [], a)
  | .call op rest, choices, s =>
      let ran := exec op (choices 0) s
      let later := (rest ran.2).alone (fun n => choices (n + 1)) ran.1
      (later.1, ⟨op, ran.2⟩ :: later.2.1, later.2.2)

variable (choices : Nat → Choice) (s : σ)

@[simp] theorem alone_done (a : α) :
    (done a : Program Res α).alone exec choices s = (s, [], a) := rfl

@[simp] theorem alone_call (op : Op) (rest : Res op → Program Res α) :
    (call op rest).alone exec choices s =
      let ran := exec op (choices 0) s
      let later := (rest ran.2).alone exec (fun n => choices (n + 1)) ran.1
      (later.1, ⟨op, ran.2⟩ :: later.2.1, later.2.2) := rfl

theorem alone_call_of_exec {op : Op} {rest : Res op → Program Res α} {s' : σ} {r : Res op}
    (ran : exec op (choices 0) s = (s', r)) :
    (call op rest).alone exec choices s =
      let later := (rest r).alone exec (fun n => choices (n + 1)) s'
      (later.1, ⟨op, r⟩ :: later.2.1, later.2.2) := by
  rw [alone_call, ran]

theorem alone_bind (p : Program Res α) (f : α → Program Res β) :
    (p.bind f).alone exec choices s =
      let first := p.alone exec choices s
      let second := (f first.2.2).alone exec (fun n => choices (first.2.1.length + n)) first.1
      (second.1, first.2.1 ++ second.2.1, second.2.2) := by
  induction p generalizing choices s with
  | done a => simp
  | call op rest ih =>
      simp only [bind_call, alone_call, ih, List.length_cons, List.cons_append]
      simp only [Nat.add_right_comm]

theorem alone_map (p : Program Res α) (f : α → β) :
    (p.map f).alone exec choices s =
      let ran := p.alone exec choices s
      (ran.1, ran.2.1, f ran.2.2) := by
  induction p generalizing choices s with
  | done a => rfl
  | call op rest ih => simp only [map_call, alone_call, ih]

end Alone

/-! ### Programs for operations -/

section Expand

variable {Op' : Type} {Res' : Op' → Type}

/-- A program in place of each operation. -/
def expand (f : (op : Op) → Program Res' (Res op)) : Program Res α → Program Res' α
  | .done a => .done a
  | .call op rest => (f op).bind fun r => (rest r).expand f

@[simp] theorem expand_done (f : (op : Op) → Program Res' (Res op)) (a : α) :
    (done a : Program Res α).expand f = done a := rfl

@[simp] theorem expand_call (f : (op : Op) → Program Res' (Res op)) (op : Op)
    (rest : Res op → Program Res α) :
    (call op rest).expand f = (f op).bind fun r => (rest r).expand f := rfl

end Expand

/-! ### Disciplines -/

/-- The program can come to this operation. -/
def MayCall (o : Op) : Program Res α → Prop
  | .done _ => False
  | .call op rest => op = o ∨ ∃ r, (rest r).MayCall o

theorem MayCall.here (op : Op) (rest : Res op → Program Res α) : (call op rest).MayCall op :=
  .inl rfl

theorem MayCall.later {o op : Op} {rest : Res op → Program Res α} {r : Res op}
    (h : (rest r).MayCall o) : (call op rest).MayCall o := .inr ⟨r, h⟩

theorem mayCall_bind {p : Program Res α} {f : α → Program Res β} {o : Op} :
    (p.bind f).MayCall o ↔ p.MayCall o ∨ ∃ trace a, p.Runs trace a ∧ (f a).MayCall o := by
  constructor
  · induction p with
    | done a => exact fun may => .inr ⟨[], a, .done a, may⟩
    | call op rest ih =>
        rintro (rfl | ⟨r, may⟩)
        · exact .inl (.here _ _)
        · rcases ih r may with may | ⟨trace, a, run, may⟩
          · exact .inl may.later
          · exact .inr ⟨⟨op, r⟩ :: trace, a, .call run, may⟩
  · rintro (may | ⟨trace, a, run, may⟩)
    · induction p with
      | done a => exact may.elim
      | call op rest ih =>
          rcases may with rfl | ⟨r, may⟩
          · exact .here _ _
          · exact .later (ih r may)
    · induction run with
      | done a => exact may
      | call _ ih => exact .later (ih may)

/-- Where every operation can be answered, every program can come to its end. -/
theorem exists_runs (answer : (op : Op) → Res op) (p : Program Res α) :
    ∃ trace a, p.Runs trace a := by
  induction p with
  | done a => exact ⟨[], a, .done a⟩
  | call op rest ih =>
      obtain ⟨trace, a, run⟩ := ih (answer op)
      exact ⟨⟨op, answer op⟩ :: trace, a, .call run⟩

/-- Which operations are in order when something is known, and what their answers tell. -/
structure Discipline {Op : Type} (Res : Op → Type) (κ : Type) where
  Allows : κ → Op → Prop
  learn : κ → (op : Op) → Res op → κ

section Obeys

variable {κ : Type} {D : Discipline Res κ} {k : κ}

/-- Every operation is in order, whatever was answered before it, and `Q` holds at the end. -/
def Obeys (D : Discipline Res κ) (Q : κ → α → Prop) : Program Res α → κ → Prop
  | .done a, k => Q k a
  | .call op rest, k => D.Allows k op ∧ ∀ r, (rest r).Obeys D Q (D.learn k op r)

@[simp] theorem obeys_done {Q : κ → α → Prop} (a : α) :
    (done a : Program Res α).Obeys D Q k ↔ Q k a := .rfl

@[simp] theorem obeys_call {Q : κ → α → Prop} {op : Op} {rest : Res op → Program Res α} :
    (call op rest).Obeys D Q k ↔
      D.Allows k op ∧ ∀ r, (rest r).Obeys D Q (D.learn k op r) := .rfl

theorem Obeys.mono {Q Q' : κ → α → Prop} {p : Program Res α} (h : p.Obeys D Q k)
    (weaker : ∀ k a, Q k a → Q' k a) : p.Obeys D Q' k := by
  induction p generalizing k with
  | done a => exact weaker k a h
  | call op rest ih => exact ⟨h.1, fun r => ih r (h.2 r)⟩

theorem Obeys.map {Q : κ → β → Prop} {p : Program Res α} {f : α → β}
    (h : p.Obeys D (fun k a => Q k (f a)) k) : (p.map f).Obeys D Q k := by
  induction p generalizing k with
  | done a => exact h
  | call op rest ih => exact ⟨h.1, fun r => ih r (h.2 r)⟩

theorem Obeys.bind {R : κ → α → Prop} {Q : κ → β → Prop} {p : Program Res α}
    {f : α → Program Res β} (h : p.Obeys D R k) (next : ∀ k a, R k a → (f a).Obeys D Q k) :
    (p.bind f).Obeys D Q k := by
  induction p generalizing k with
  | done a => exact next k a h
  | call op rest ih => exact ⟨h.1, fun r => ih r (h.2 r)⟩

/-- It is enough that the program for each operation obeys, and lets one know what the
operation would have. -/
theorem Obeys.expand {Op' : Type} {Res' : Op' → Type} {D' : Discipline Res' κ}
    {f : (op : Op) → Program Res' (Res op)} {Q : κ → α → Prop} {p : Program Res α}
    (carries : ∀ k op, D.Allows k op → (f op).Obeys D' (fun k' r => k' = D.learn k op r) k)
    (h : p.Obeys D Q k) : (p.expand f).Obeys D' Q k := by
  induction p generalizing k with
  | done a => exact h
  | call op rest ih =>
      apply (carries k op h.1).bind
      rintro _ r rfl
      exact ih r (h.2 r)

/-- A fact about the state and what is known, kept by every operation that is in order. -/
theorem Obeys.alone {σ Choice : Type} {exec : (op : Op) → Choice → σ → σ × Res op}
    {I : κ → σ → Prop} {Q : κ → α → Prop} {p : Program Res α} {s : σ}
    (keeps : ∀ k op c s, D.Allows k op → I k s →
      I (D.learn k op (exec op c s).2) (exec op c s).1)
    (h : p.Obeys D Q k) (inv : I k s) (choices : Nat → Choice) :
    ∃ k', I k' (p.alone exec choices s).1 := by
  induction p generalizing k s choices with
  | done a => exact ⟨k, inv⟩
  | call op rest ih => exact ih _ (h.2 _) (keeps k op (choices 0) s h.1 inv) _

/-- What is in order somewhere on the way, was in order from the start when nothing that is
learnt adds to it. -/
theorem Obeys.allows_of_mayCall {Q : κ → α → Prop} {p : Program Res α} {o : Op}
    {P : κ → Prop} (allowed : ∀ k, D.Allows k o → P k)
    (back : ∀ k op r, P (D.learn k op r) → P k) (h : p.Obeys D Q k) (may : p.MayCall o) : P k := by
  induction p generalizing k with
  | done a => exact may.elim
  | call op rest ih =>
      rcases may with rfl | ⟨r, may⟩
      · exact allowed k h.1
      · exact back k op r (ih r (h.2 r) may)

end Obeys

end Program

/-! ### Threads -/

/-- How operations are carried out, in every way they can turn out, and what the outside does. -/
structure Machine (σ : Type) {Op : Type} (Res : Op → Type) (Choice Event : Type) where
  exec : (op : Op) → Choice → σ → σ × Res op
  outside : Event → σ → σ

inductive Act (ι Choice Event : Type) where
  | step (i : ι) (choice : Choice)
  | outside (event : Event)
  deriving DecidableEq

structure Threads (σ ι : Type) {Op : Type} (Res : Op → Type) (α : Type) where
  shared : σ
  programs : ι → Program Res α

namespace Threads

variable {σ ι Op α Choice Event : Type} {Res : Op → Type} [DecidableEq ι]

/-- The answer is the result of a program that has just finished. -/
def act (M : Machine σ Res Choice Event) (s : Threads σ ι Res α) :
    Act ι Choice Event → Threads σ ι Res α × Option (ι × α)
  | .step i choice =>
      match s.programs i with
      | .done _ => (s, none)
      | .call op rest =>
          let ran := M.exec op choice s.shared
          let next := rest ran.2
          ({ shared := ran.1, programs := Function.update s.programs i next },
            next.result?.map fun a => (i, a))
  | .outside event => ({ s with shared := M.outside event s.shared }, none)

variable {M : Machine σ Res Choice Event} {s : Threads σ ι Res α} {i : ι} {choice : Choice}

theorem act_done {a : α} (h : s.programs i = .done a) : act M s (.step i choice) = (s, none) := by
  simp only [act, h]

theorem act_call {op : Op} {rest : Res op → Program Res α} (h : s.programs i = .call op rest) :
    act M s (.step i choice) =
      ({ shared := (M.exec op choice s.shared).1
         programs := Function.update s.programs i (rest (M.exec op choice s.shared).2) },
        (rest (M.exec op choice s.shared).2).result?.map fun a => (i, a)) := by
  simp only [act, h]

/-- An invariant of the shared state and of each program is kept when a step keeps it for its
own program and does not disturb the others. -/
theorem act_inv (I : σ → Prop) (At : ι → σ → Program Res α → Prop)
    (P : Threads σ ι Res α → Act ι Choice Event → Prop)
    (own : ∀ s i choice op rest, I s.shared → At i s.shared (.call op rest) →
      s.programs i = .call op rest → P s (.step i choice) →
      I (M.exec op choice s.shared).1 ∧
        At i (M.exec op choice s.shared).1 (rest (M.exec op choice s.shared).2))
    (others : ∀ s i choice op rest j, I s.shared → At i s.shared (.call op rest) →
      s.programs i = .call op rest → P s (.step i choice) → j ≠ i →
      At j s.shared (s.programs j) → At j (M.exec op choice s.shared).1 (s.programs j))
    (outside : ∀ s event, I s.shared → P s (.outside event) → I (M.outside event s.shared) ∧
      ∀ j, At j s.shared (s.programs j) → At j (M.outside event s.shared) (s.programs j))
    (inv : I s.shared ∧ ∀ i, At i s.shared (s.programs i)) (a : Act ι Choice Event) (guard : P s a) :
    I (act M s a).1.shared ∧ ∀ i, At i (act M s a).1.shared ((act M s a).1.programs i) := by
  obtain ⟨shared, programs⟩ := inv
  cases a with
  | outside event =>
      obtain ⟨kept, still⟩ := outside s event shared guard
      exact ⟨kept, fun j => still j (programs j)⟩
  | step i choice =>
      cases h : s.programs i with
      | done a =>
          rw [act_done h]
          exact ⟨shared, programs⟩
      | call op rest =>
          have here := programs i
          rw [h] at here
          obtain ⟨kept, next⟩ := own s i choice op rest shared here h guard
          rw [act_call h]
          refine ⟨kept, ?_⟩
          intro j
          by_cases same : j = i
          · subst same
            simpa using next
          · simpa [same] using others s i choice op rest j shared here h guard same (programs j)

end Threads

/-! ### Threads and what they have done -/

namespace Program.Discipline

variable {ι Op κ : Type} {Res : Op → Type} [DecidableEq ι]

/-- What thread `i` knows from its own answers, the latest first. -/
def learned (D : Discipline Res κ) (k : κ) (i : ι) : List (ι × Answered Res) → κ
  | [] => k
  | e :: past =>
      if e.1 = i then D.learn (D.learned k i past) e.2.op e.2.answer else D.learned k i past

/-- Every operation was in order when it was carried out. -/
inductive InOrder (D : Discipline Res κ) (k : κ) : List (ι × Answered Res) → Prop where
  | nil : InOrder D k []
  | cons {i : ι} {e : Answered Res} {past : List (ι × Answered Res)} :
      InOrder D k past → D.Allows (D.learned k i past) e.op → InOrder D k ((i, e) :: past)

variable {D : Discipline Res κ} {k : κ} {i : ι} {past : List (ι × Answered Res)}

theorem learned_cons_self (e : Answered Res) :
    D.learned k i ((i, e) :: past) = D.learn (D.learned k i past) e.op e.answer := if_pos rfl

theorem learned_cons_of_ne {j : ι} (h : j ≠ i) (e : Answered Res) :
    D.learned k i ((j, e) :: past) = D.learned k i past := if_neg h

theorem InOrder.of_append {later : List (ι × Answered Res)} (h : D.InOrder k (later ++ past)) :
    D.InOrder k past := by
  induction later with
  | nil => exact h
  | cons e later ih =>
      cases h with
      | cons before _ => exact ih before

end Program.Discipline

/-- Threads with the operations they have carried out, the latest first. -/
structure Recorded (σ ι : Type) {Op : Type} (Res : Op → Type) (α : Type) where
  threads : Threads σ ι Res α
  past : List (ι × Program.Answered Res)

namespace Recorded

open Program

variable {σ ι Op α κ Choice Event : Type} {Res : Op → Type} [DecidableEq ι]

/-- The operation that an act carries out. -/
def performed (M : Machine σ Res Choice Event) (s : Threads σ ι Res α) :
    Act ι Choice Event → Option (ι × Answered Res)
  | .step i choice =>
      match s.programs i with
      | .done _ => none
      | .call op _ => some (i, ⟨op, (M.exec op choice s.shared).2⟩)
  | .outside _ => none

def act (M : Machine σ Res Choice Event) (r : Recorded σ ι Res α) (a : Act ι Choice Event) :
    Recorded σ ι Res α × Option (ι × α) :=
  let next := r.threads.act M a
  (⟨next.1, (performed M r.threads a).toList ++ r.past⟩, next.2)

/-- Every program keeps to the discipline with what it has learnt, and has done so. -/
structure Disciplined (D : Discipline Res κ) (Q : κ → α → Prop) (k : κ)
    (r : Recorded σ ι Res α) : Prop where
  programs : ∀ i, (r.threads.programs i).Obeys D Q (D.learned k i r.past)
  past : D.InOrder k r.past

variable {M : Machine σ Res Choice Event} {r : Recorded σ ι Res α} {D : Discipline Res κ}
  {Q : κ → α → Prop} {k : κ} {i : ι} {choice : Choice}

theorem act_done {a : α} (h : r.threads.programs i = .done a) :
    r.act M (.step i choice) = (r, none) := by
  simp only [act, performed, Threads.act_done h, h, Option.toList_none, List.nil_append]

theorem act_call {op : Op} {rest : Res op → Program Res α}
    (h : r.threads.programs i = .call op rest) :
    (r.act M (.step i choice)).1 =
      ⟨⟨(M.exec op choice r.threads.shared).1, Function.update r.threads.programs i
          (rest (M.exec op choice r.threads.shared).2)⟩,
        (i, ⟨op, (M.exec op choice r.threads.shared).2⟩) :: r.past⟩ := by
  simp only [act, performed, Threads.act_call h, h, Option.toList_some, List.cons_append,
    List.nil_append]

/-- A step answers when it has brought its program to an end. -/
theorem act_answers {j : ι} {a : α} :
    (r.act M (.step i choice)).2 = some (j, a) ↔ j = i ∧ (∃ op rest, r.threads.programs i =
      .call op rest) ∧ (r.act M (.step i choice)).1.threads.programs i = .done a := by
  cases h : r.threads.programs i with
  | done b => simp [act_done h]
  | call op rest =>
      have answer : (r.act M (.step i choice)).2 =
          (rest (M.exec op choice r.threads.shared).2).result?.map fun a => (i, a) := by
        simp only [act, Threads.act_call h]
      have called : ∃ op' rest', call op rest = (call op' rest' : Program Res α) := ⟨op, rest, rfl⟩
      rw [answer, act_call h, and_iff_right called, Option.map_eq_some_iff]
      simp only [result?_eq_some, Prod.mk.injEq, Function.update_self]
      constructor
      · rintro ⟨b, done, rfl, rfl⟩
        exact ⟨rfl, done⟩
      · rintro ⟨rfl, done⟩
        exact ⟨a, done, rfl, rfl⟩

theorem Disciplined.act (disciplined : r.Disciplined D Q k) (a : Act ι Choice Event) :
    (r.act M a).1.Disciplined D Q k := by
  cases a with
  | outside event => exact ⟨disciplined.programs, disciplined.past⟩
  | step i choice =>
      cases h : r.threads.programs i with
      | done a =>
          rw [act_done h]
          exact disciplined
      | call op rest =>
          have own := disciplined.programs i
          rw [h] at own
          obtain ⟨allowed, next⟩ := own
          rw [act_call h]
          refine ⟨?_, .cons disciplined.past allowed⟩
          intro j
          by_cases same : j = i
          · subst same
            simpa [Discipline.learned_cons_self] using next _
          · rw [Discipline.learned_cons_of_ne (Ne.symm same)]
            simpa [same] using disciplined.programs j

end Recorded

end Lazuli.General

/-!
How one statement on a database goes.

A statement is atomic. It may fail without effect, and its answer may be lost after it took
effect.
-/

namespace Lazuli.General

inductive Reply where
  | done
  | failed (message : String)
  | lost (message : String)
  deriving DecidableEq

namespace Reply

variable {σ α : Type}

/-- What is left of `ran`, which the statement would do from `before`. -/
def perform (before : σ) (ran : σ × α) : Reply → σ × Except String α
  | .done => (ran.1, .ok ran.2)
  | .failed message => (before, .error message)
  | .lost message => (ran.1, .error message)

variable {r : Reply} {before : σ} {ran : σ × α}

@[simp] theorem perform_done : Reply.done.perform before ran = (ran.1, .ok ran.2) := rfl

theorem perform_ok {a : α} (h : (r.perform before ran).2 = .ok a) :
    r = .done ∧ r.perform before ran = (ran.1, .ok ran.2) := by
  cases r with
  | done => exact ⟨rfl, rfl⟩
  | failed message => cases h
  | lost message => cases h

theorem perform_cases (r : Reply) (before : σ) (ran : σ × α) :
    (r.perform before ran).1 = before ∨ (r.perform before ran).1 = ran.1 := by
  cases r with
  | done => exact .inr rfl
  | failed message => exact .inl rfl
  | lost message => exact .inr rfl

/-- A statement that changes nothing. -/
@[simp] theorem perform_same (r : Reply) (before : σ) (a : α) :
    (r.perform before (before, a)).1 = before := or_self_iff.mp (r.perform_cases before (before, a))

end Reply

end Lazuli.General
