import Lazuli.Runtime.Policy

/-!
The evaluator returns the value of every phrase.

`lexicon` reads policy atoms as tokens of the notation of `General.Infix`: the five
`predicate` markers, and all other atoms as leaves. The equations of the five functions
are stated on results, so the proofs never see the bound that a `Walk` carries.
`evalOr_phrase` is by induction on the phrase; the statement for each level says how the
loop of that level treats a phrase when it has a value in hand already.
-/

namespace Lazuli.Runtime

open Lazuli.General.Infix

/-- The marker that an atom is, if it is one. -/
def PolicyAtom.mark (a : PolicyAtom) : Option Mark :=
  if a.ns = "predicate" then
    match a.name with
    | "(" => some .opening
    | ")" => some .closing
    | "and" => some .and
    | "or" => some .or
    | "not" => some .not
    | _ => none
  else none

def markName : Mark → String
  | .opening => "("
  | .closing => ")"
  | .and => "and"
  | .or => "or"
  | .not => "not"

theorem PolicyAtom.mark_eq_some_iff {a : PolicyAtom} {m : Mark} :
    a.mark = some m ↔ a.isPredicate (markName m) = true := by
  unfold PolicyAtom.mark PolicyAtom.isPredicate
  split
  case isTrue hns =>
    split <;> cases m <;> simp_all [markName]
  case isFalse hns => simp [hns]

theorem PolicyAtom.isPredicate_markName {a : PolicyAtom} {m : Mark} (h : a.mark = some m) :
    a.isPredicate (markName m) = true := mark_eq_some_iff.mp h

theorem PolicyAtom.mark_of_isPredicate {a : PolicyAtom} {m : Mark}
    (h : a.isPredicate (markName m) = true) : a.mark = some m := mark_eq_some_iff.mpr h

theorem PolicyAtom.isPredicate_of_mark {a : PolicyAtom} {m : Mark} (h : a.mark = some m)
    (n : Mark) : a.isPredicate (markName n) = decide (m = n) := by
  by_cases hmn : m = n
  · subst hmn
    simp [isPredicate_markName h]
  · have hne : ¬ a.isPredicate (markName n) = true := by
      intro hn
      rw [← mark_eq_some_iff, h] at hn
      exact hmn (Option.some.inj hn)
    simp [hmn, hne]

theorem PolicyAtom.isPredicate_of_no_mark {a : PolicyAtom} (h : a.mark = none) (m : Mark) :
    a.isPredicate (markName m) = false := by
  have hne : ¬ a.isPredicate (markName m) = true := by
    intro hm
    rw [← mark_eq_some_iff, h] at hm
    cases hm
  simpa using hne

theorem PolicyAtom.mark_of_ns_ne {a : PolicyAtom} (h : a.ns ≠ "predicate") : a.mark = none := by
  simp [PolicyAtom.mark, h]

def lexicon (hooks : Rbac) (ctx : Ctx) (input : Option Slot) : Lexicon PolicyAtom :=
  { mark := PolicyAtom.mark, leaf := atomMatchesInput hooks ctx input }

section Equations

variable (hooks : Rbac) (ctx : Ctx) (input : Option Slot)

theorem evalOr_result (atoms : List PolicyAtom) :
    (evalOr hooks ctx input atoms).result =
      (evalOrLoop hooks ctx input (evalAnd hooks ctx input atoms).value
        (evalAnd hooks ctx input atoms).rest).result := by
  rw [evalOr]
  rfl

theorem evalAnd_result (atoms : List PolicyAtom) :
    (evalAnd hooks ctx input atoms).result =
      (evalAndLoop hooks ctx input (evalUnary hooks ctx input atoms).value
        (evalUnary hooks ctx input atoms).rest).result := by
  rw [evalAnd]
  rfl

theorem evalOrLoop_or {a : PolicyAtom} (h : a.mark = some .or) (left : Bool)
    (atoms : List PolicyAtom) :
    (evalOrLoop hooks ctx input left (a :: atoms)).result =
      (evalOrLoop hooks ctx input (left || (evalAnd hooks ctx input atoms).value)
        (evalAnd hooks ctx input atoms).rest).result := by
  have hor : a.isPredicate "or" = true := PolicyAtom.isPredicate_markName h
  rw [evalOrLoop, if_pos hor]
  rfl

theorem evalAndLoop_and {a : PolicyAtom} (h : a.mark = some .and) (left : Bool)
    (atoms : List PolicyAtom) :
    (evalAndLoop hooks ctx input left (a :: atoms)).result =
      (evalAndLoop hooks ctx input (left && (evalUnary hooks ctx input atoms).value)
        (evalUnary hooks ctx input atoms).rest).result := by
  have hand : a.isPredicate "and" = true := PolicyAtom.isPredicate_markName h
  rw [evalAndLoop, if_pos hand]
  rfl

/-- The mark `m` does not come next. -/
def NotNext (m : Mark) (atoms : List PolicyAtom) : Prop :=
  ∀ a ∈ atoms.head?, a.mark ≠ some m

theorem notNext_nil (m : Mark) : NotNext m [] := by
  intro a ha
  cases ha

theorem notNext_cons {m : Mark} {a : PolicyAtom} (h : a.mark ≠ some m) (atoms : List PolicyAtom) :
    NotNext m (a :: atoms) := by
  intro b hb
  cases hb
  exact h

theorem evalOrLoop_stop {atoms : List PolicyAtom} (h : NotNext .or atoms) (left : Bool) :
    (evalOrLoop hooks ctx input left atoms).result = (left, atoms) := by
  cases atoms with
  | nil =>
      rw [evalOrLoop]
      rfl
  | cons a atoms =>
      have hne : ¬ a.isPredicate "or" = true := fun hp =>
        h a rfl (PolicyAtom.mark_of_isPredicate (m := .or) hp)
      rw [evalOrLoop, if_neg hne]
      rfl

theorem evalAndLoop_stop {atoms : List PolicyAtom} (h : NotNext .and atoms) (left : Bool) :
    (evalAndLoop hooks ctx input left atoms).result = (left, atoms) := by
  cases atoms with
  | nil =>
      rw [evalAndLoop]
      rfl
  | cons a atoms =>
      have hne : ¬ a.isPredicate "and" = true := fun hp =>
        h a rfl (PolicyAtom.mark_of_isPredicate (m := .and) hp)
      rw [evalAndLoop, if_neg hne]
      rfl

theorem evalUnary_leaf {a : PolicyAtom} (h : a.mark = none) (atoms : List PolicyAtom) :
    (evalUnary hooks ctx input (a :: atoms)).result =
      (atomMatchesInput hooks ctx input a, atoms) := by
  have hnot : a.isPredicate "not" = false := PolicyAtom.isPredicate_of_no_mark h .not
  have hopen : a.isPredicate "(" = false := PolicyAtom.isPredicate_of_no_mark h .opening
  rw [evalUnary]
  simp [hnot, hopen, Walk.result]

theorem evalUnary_not {a : PolicyAtom} (h : a.mark = some .not) (atoms : List PolicyAtom) :
    (evalUnary hooks ctx input (a :: atoms)).result =
      (!(evalUnary hooks ctx input atoms).value, (evalUnary hooks ctx input atoms).rest) := by
  have hnot : a.isPredicate "not" = true := PolicyAtom.isPredicate_markName h
  rw [evalUnary, if_pos hnot]
  rfl

theorem evalUnary_group {o c : PolicyAtom} (ho : o.mark = some .opening)
    (hc : c.mark = some .closing) {atoms rest : List PolicyAtom} {b : Bool}
    (h : (evalOr hooks ctx input atoms).result = (b, c :: rest)) :
    (evalUnary hooks ctx input (o :: atoms)).result = (b, rest) := by
  have hnot : o.isPredicate "not" = false := PolicyAtom.isPredicate_of_mark ho .not
  have hopen : o.isPredicate "(" = true := PolicyAtom.isPredicate_markName ho
  have hclose : c.isPredicate ")" = true := PolicyAtom.isPredicate_markName hc
  rw [evalUnary, if_neg (by simp [hnot]), if_pos hopen]
  revert h
  rcases evalOr hooks ctx input atoms with ⟨v, i, le⟩
  intro h
  obtain ⟨rfl, rfl⟩ := Prod.mk.inj h
  simp [Walk.closed, hclose, Walk.result]

end Equations

section Phrases

variable {hooks : Rbac} {ctx : Ctx} {input : Option Slot}

theorem Walk.value_eq {atoms : List PolicyAtom} {w : Walk atoms} {b : Bool}
    {rest : List PolicyAtom} (h : w.result = (b, rest)) : w.value = b :=
  congrArg Prod.fst h

theorem Walk.rest_eq {atoms : List PolicyAtom} {w : Walk atoms} {b : Bool}
    {rest : List PolicyAtom} (h : w.result = (b, rest)) : w.rest = rest :=
  congrArg Prod.snd h

/-- How the function of a level reads `ts` when it denotes `b`. The two loops hold the
value `left` of the operands read before. -/
def Reads (hooks : Rbac) (ctx : Ctx) (input : Option Slot) (level : Level)
    (ts : List PolicyAtom) (b : Bool) : Prop :=
  match level with
  | .unary => ∀ rest, (evalUnary hooks ctx input (ts ++ rest)).result = (b, rest)
  | .conj => ∀ left rest, NotNext .and rest →
      (evalAndLoop hooks ctx input (left && (evalUnary hooks ctx input (ts ++ rest)).value)
        (evalUnary hooks ctx input (ts ++ rest)).rest).result = (left && b, rest)
  | .disj => ∀ left rest, NotNext .and rest → NotNext .or rest →
      (evalOrLoop hooks ctx input (left || (evalAnd hooks ctx input (ts ++ rest)).value)
        (evalAnd hooks ctx input (ts ++ rest)).rest).result = (left || b, rest)

theorem Reads.evalAnd {ts rest : List PolicyAtom} {b : Bool}
    (h : Reads hooks ctx input .conj ts b) (hrest : NotNext .and rest) :
    (Runtime.evalAnd hooks ctx input (ts ++ rest)).result = (b, rest) := by
  have hloop := h true rest hrest
  rw [Bool.true_and, Bool.true_and] at hloop
  rw [evalAnd_result, hloop]

theorem Reads.evalOr {ts rest : List PolicyAtom} {b : Bool}
    (h : Reads hooks ctx input .disj ts b) (hand : NotNext .and rest) (hor : NotNext .or rest) :
    (Runtime.evalOr hooks ctx input (ts ++ rest)).result = (b, rest) := by
  have hloop := h false rest hand hor
  rw [Bool.false_or, Bool.false_or] at hloop
  rw [evalOr_result, hloop]

theorem Reads.not {a : PolicyAtom} {ts : List PolicyAtom} {b : Bool}
    (ha : a.mark = some .not) (h : Reads hooks ctx input .unary ts b) :
    Reads hooks ctx input .unary (a :: ts) (!b) := by
  intro rest
  rw [List.cons_append, evalUnary_not hooks ctx input ha, Walk.value_eq (h rest),
    Walk.rest_eq (h rest)]

theorem Reads.group {o c : PolicyAtom} {ts : List PolicyAtom} {b : Bool}
    (ho : o.mark = some .opening) (hc : c.mark = some .closing)
    (h : Reads hooks ctx input .disj ts b) :
    Reads hooks ctx input .unary (o :: (ts ++ [c])) b := by
  intro rest
  have hand : NotNext .and (c :: rest) := notNext_cons (by simp [hc]) rest
  have hor : NotNext .or (c :: rest) := notNext_cons (by simp [hc]) rest
  rw [List.cons_append, List.append_assoc, List.singleton_append]
  exact evalUnary_group hooks ctx input ho hc (h.evalOr hand hor)

theorem Reads.factor {ts : List PolicyAtom} {b : Bool} (h : Reads hooks ctx input .unary ts b) :
    Reads hooks ctx input .conj ts b := by
  intro left rest hrest
  rw [Walk.value_eq (h rest), Walk.rest_eq (h rest)]
  exact evalAndLoop_stop hooks ctx input hrest (left && b)

theorem Reads.and {a : PolicyAtom} {ts us : List PolicyAtom} {b c : Bool}
    (h : Reads hooks ctx input .unary ts b) (ha : a.mark = some .and)
    (hus : Reads hooks ctx input .conj us c) :
    Reads hooks ctx input .conj (ts ++ a :: us) (b && c) := by
  intro left rest hrest
  have hts := h (a :: (us ++ rest))
  rw [List.append_assoc, List.cons_append, Walk.value_eq hts, Walk.rest_eq hts,
    evalAndLoop_and hooks ctx input ha, hus (left && b) rest hrest, Bool.and_assoc]

theorem Reads.term {ts : List PolicyAtom} {b : Bool} (h : Reads hooks ctx input .conj ts b) :
    Reads hooks ctx input .disj ts b := by
  intro left rest hand hor
  have hts := h.evalAnd hand
  rw [Walk.value_eq hts, Walk.rest_eq hts]
  exact evalOrLoop_stop hooks ctx input hor (left || b)

theorem Reads.or {a : PolicyAtom} {ts us : List PolicyAtom} {b c : Bool}
    (h : Reads hooks ctx input .conj ts b) (ha : a.mark = some .or)
    (hus : Reads hooks ctx input .disj us c) :
    Reads hooks ctx input .disj (ts ++ a :: us) (b || c) := by
  intro left rest hand hor
  have hnext : NotNext .and (a :: (us ++ rest)) := notNext_cons (by simp [ha]) _
  have hts := h.evalAnd hnext
  rw [List.append_assoc, List.cons_append, Walk.value_eq hts, Walk.rest_eq hts,
    evalOrLoop_or hooks ctx input ha, hus (left || b) rest hand hor, Bool.or_assoc]

theorem reads_of_phrase {level : Level} {ts : List PolicyAtom} {b : Bool}
    (h : Phrase (lexicon hooks ctx input) level ts b) : Reads hooks ctx input level ts b := by
  induction h with
  | leaf ht => exact evalUnary_leaf hooks ctx input ht
  | not ht _ ih => exact ih.not ht
  | group ho hc _ ih => exact ih.group ho hc
  | factor _ ih => exact ih.factor
  | and _ ht _ ihts ihus => exact ihts.and ht ihus
  | term _ ih => exact ih.term
  | or _ ht _ ihts ihus => exact ihts.or ht ihus

/-- A disjunction is read to its end and not further, when neither `and` nor `or` follows. -/
theorem evalOr_phrase {ts rest : List PolicyAtom} {b : Bool}
    (h : Phrase (lexicon hooks ctx input) .disj ts b)
    (hand : NotNext .and rest) (hor : NotNext .or rest) :
    (evalOr hooks ctx input (ts ++ rest)).result = (b, rest) :=
  (reads_of_phrase h).evalOr hand hor

/-- A formula that is the whole list is read as a whole. -/
theorem evalExpr_phrase {ts : List PolicyAtom} {b : Bool}
    (h : Phrase (lexicon hooks ctx input) .disj ts b) :
    (evalExpr hooks ctx input ts).result = (b, []) := by
  have hread := evalOr_phrase h (notNext_nil .and) (notNext_nil .or)
  rwa [List.append_nil] at hread

end Phrases

/-! ### The two modes -/

section Modes

variable {hooks : Rbac} {ctx : Ctx} {input : Option Slot} {p : Policy}

theorem granted_iff_evalExpr (h : hasPredicateAtom p.atoms = true) :
    Granted hooks ctx input p ↔ (evalExpr hooks ctx input p.atoms).value = true := by
  have hne : p.atoms.isEmpty = false := by
    cases hatoms : p.atoms with
    | nil => simp [hatoms, hasPredicateAtom] at h
    | cons a atoms => rfl
  simp [Granted, evalPolicyInput, hne, h]

theorem granted_iff_any (h : hasPredicateAtom p.atoms = false) :
    Granted hooks ctx input p ↔ p.atoms.any (atomMatchesInput hooks ctx input) = true := by
  unfold Granted evalPolicyInput
  cases hatoms : p.atoms with
  | nil => simp
  | cons a atoms =>
      rw [hatoms] at h
      rw [h]
      by_cases hany : (a :: atoms).any (atomMatchesInput hooks ctx input) = true
      · simp only [hany, List.isEmpty_cons, Bool.false_eq_true, if_false, if_true]
      · simp only [hany, List.isEmpty_cons, Bool.false_eq_true, if_false, reduceCtorEq]

/-- Without markers a phrase is a single leaf. -/
theorem leaf_of_phrase {level : Level} {ts : List PolicyAtom} {b : Bool}
    (h : Phrase (lexicon hooks ctx input) level ts b) (hmode : hasPredicateAtom ts = false) :
    ∃ a, ts = [a] ∧ b = atomMatchesInput hooks ctx input a := by
  have hmark {a : PolicyAtom} {m : Mark} (ha : a.mark = some m) (hmem : a ∈ ts) : False := by
    have hns := List.any_eq_false.mp hmode a hmem
    rw [PolicyAtom.mark_of_ns_ne (by simpa using hns)] at ha
    cases ha
  induction h with
  | leaf _ => exact ⟨_, rfl, rfl⟩
  | not ht _ _ => exact (hmark ht List.mem_cons_self).elim
  | group ho _ _ _ => exact (hmark ho List.mem_cons_self).elim
  | factor _ ih => exact ih hmode hmark
  | and _ ht _ _ _ => exact (hmark ht (List.mem_append_right _ List.mem_cons_self)).elim
  | term _ ih => exact ih hmode hmark
  | or _ ht _ _ _ => exact (hmark ht (List.mem_append_right _ List.mem_cons_self)).elim

/-- A policy that is a formula grants exactly when the formula is true, in either mode. -/
theorem granted_iff_of_phrase {b : Bool}
    (h : Phrase (lexicon hooks ctx input) .disj p.atoms b) :
    Granted hooks ctx input p ↔ b = true := by
  cases hmode : hasPredicateAtom p.atoms with
  | true => rw [granted_iff_evalExpr hmode, Walk.value_eq (evalExpr_phrase h)]
  | false =>
      obtain ⟨a, hatoms, rfl⟩ := leaf_of_phrase h hmode
      simp [granted_iff_any hmode, hatoms]

end Modes

end Lazuli.Runtime
