import Lazuli.Codegen.GuardText
import Lazuli.General.Quoted
import Mathlib.Data.List.Infix

/-!
Finding the operator of a predicate text (`find_top_level_operator` in `helpers.rs`, and the
loop over the operators that `parse_closed_predicate` and `parse_query_filter_line` share).

The search goes by bytes. Outside quotes it slices the text at each byte, and the second byte
of a character is no place to slice at: Rust panics there. So a character outside ASCII must be
quoted, or be found by nobody because a `<=`, which is looked for first, comes before it.

The operators are tried one after the other, each in the whole text. `Decides` is the one that
wins, at its first place outside quotes.
-/

namespace Lazuli.Analyzer

open General.Quoted General.Text
open Codegen (closedOperators isOpChar)
open Ir (CompareOp)

/-! ### The search -/

inductive Panic where
  /-- A slice in the middle of a character. -/
  | charBoundary
  deriving DecidableEq

/-- More than one byte long. -/
def isNonAscii (c : Char) : Bool := 128 ≤ c.toNat

def findTopLevelOperator (text op : List Char) : Found Char := search '"' isNonAscii op false text

/-- The loop over the operators: the first that is found, with what is on its sides. -/
def firstOperator (trimmed : List Char) :
    List (String × CompareOp) → Except Panic (Option (CompareOp × List Char × List Char))
  | [] => .ok none
  | (token, op) :: operators =>
      match findTopLevelOperator trimmed token.toList with
      | .at lhs rhs => .ok (some (op, lhs, rhs))
      | .nowhere => firstOperator trimmed operators
      | .stuck => .error .charBoundary

/-! ### Without a panic -/

/-- What a search found, if it came to an end. -/
def sides : Found Char → Option (List Char × List Char)
  | .at lhs rhs => some (lhs, rhs)
  | _ => none

theorem sides_behind (c : Char) (found : Found Char) :
    sides (found.behind c) = (sides found).map fun (lhs, rhs) => (c :: lhs, rhs) := by
  cases found <;> rfl

theorem behind_eq_stuck {c : Char} {found : Found Char} (h : found = .stuck) :
    found.behind c = .stuck := by
  rw [h]
  rfl

/-- A search that does not panic finds what a search by characters finds. -/
theorem search_eq {op : List Char} {inside : Bool} {t : List Char}
    (ends : search '"' isNonAscii op inside t ≠ .stuck) :
    Codegen.findTopLevelOperator op inside t = sides (search '"' isNonAscii op inside t) := by
  induction t generalizing inside with
  | nil => rfl
  | cons c s ih =>
      rw [search] at ends ⊢
      rw [Codegen.findTopLevelOperator]
      by_cases quote : c = '"'
      · simp only [if_pos quote] at ends ⊢
        rw [sides_behind, ih fun stuck => ends (behind_eq_stuck stuck)]
      · simp only [if_neg quote] at ends ⊢
        by_cases quoted : inside = true
        · simp only [if_pos quoted] at ends ⊢
          rw [sides_behind, ih fun stuck => ends (behind_eq_stuck stuck)]
        · simp only [if_neg quoted] at ends ⊢
          cases here : (c :: s).dropPrefix? op with
          | some after => rfl
          | none =>
              simp only [here] at ends ⊢
              by_cases hazard : isNonAscii c = true
              · exact absurd (if_pos hazard) ends
              · simp only [if_neg hazard] at ends ⊢
                rw [sides_behind, ih fun stuck => ends (behind_eq_stuck stuck)]

/-! ### Which operator wins -/

/-- No character outside ASCII is met before a `<=`. -/
def Sliceable (t : List Char) : Prop :=
  Clear '"' isNonAscii false t ∨ ∃ before after,
    Occurs '"' "<=".toList false t before after ∧ Clear '"' isNonAscii false before

/-- The operators of `passed` are not in the text, and `token` is first found there. -/
structure Wins (t : List Char) (passed : List (String × CompareOp)) (token : String)
    (lhs rhs : List Char) : Prop where
  passed : ∀ other ∈ passed, ∀ before after, ¬ Occurs '"' other.1.toList false t before after
  first : First '"' token.toList false t lhs rhs

def Decides (t : List Char) (op : CompareOp) (lhs rhs : List Char) : Prop :=
  ∃ passed token rest, closedOperators = passed ++ (token, op) :: rest ∧ Wins t passed token lhs rhs

section Loop

variable {t lhs rhs lhs' rhs' : List Char} {op op' : CompareOp} {token : String}
  {operators : List (String × CompareOp)}

theorem token_opens (h : (token, op) ∈ closedOperators) :
    ∃ o os, token.toList = o :: os ∧ isOpChar o = true := by
  simp only [closedOperators, List.mem_cons, Prod.mk.injEq, List.not_mem_nil, or_false] at h
  rcases h with ⟨rfl, -⟩ | ⟨rfl, -⟩ | ⟨rfl, -⟩ | ⟨rfl, -⟩ | ⟨rfl, -⟩ | ⟨rfl, -⟩ <;>
    exact ⟨_, _, rfl, rfl⟩

theorem find_outcome (h : (token, op) ∈ closedOperators) (t : List Char) :
    Outcome '"' isNonAscii token.toList false t (findTopLevelOperator t token.toList) := by
  obtain ⟨o, os, heq, ho⟩ := token_opens h
  unfold findTopLevelOperator
  rw [heq]
  exact search_outcome (Codegen.ne_quote_of_isOpChar ho) false t

/-- The loop passes the operators that are not in the text. -/
theorem firstOperator_some (known : ∀ x ∈ operators, x ∈ closedOperators)
    (h : firstOperator t operators = .ok (some (op, lhs, rhs))) :
    ∃ passed token rest, operators = passed ++ (token, op) :: rest ∧ Wins t passed token lhs rhs := by
  induction operators with
  | nil => cases h
  | cons x operators ih =>
      obtain ⟨token, op'⟩ := x
      have outcome := find_outcome (known _ List.mem_cons_self) t
      rw [firstOperator] at h
      generalize findTopLevelOperator t token.toList = found at outcome h
      cases outcome with
      | «at» first free =>
          obtain ⟨rfl, same⟩ := Prod.mk.inj (Option.some.inj (Except.ok.inj h))
          obtain ⟨rfl, rfl⟩ := Prod.mk.inj same
          exact ⟨[], token, operators, rfl, fun _ no => absurd no List.not_mem_nil, first⟩
      | nowhere none free =>
          obtain ⟨passed, token', rest, rfl, wins⟩ :=
            ih (fun x hx => known x (List.mem_cons_of_mem _ hx)) h
          refine ⟨(token, op') :: passed, token', rest, rfl, ?_, wins.first⟩
          intro other hother
          cases hother with
          | head => exact none
          | tail _ hother => exact wins.passed other hother
      | stuck _ _ => cases h

theorem firstOperator_none (known : ∀ x ∈ operators, x ∈ closedOperators)
    (h : firstOperator t operators = .ok none) :
    ∀ x ∈ operators, ∀ before after, ¬ Occurs '"' x.1.toList false t before after := by
  induction operators with
  | nil => exact fun _ no => absurd no List.not_mem_nil
  | cons x operators ih =>
      obtain ⟨token, op⟩ := x
      have outcome := find_outcome (known _ List.mem_cons_self) t
      rw [firstOperator] at h
      generalize findTopLevelOperator t token.toList = found at outcome h
      cases outcome with
      | «at» _ _ => cases h
      | nowhere none _ =>
          intro other hother
          cases hother with
          | head => exact none
          | tail _ hother =>
              exact ih (fun x hx => known x (List.mem_cons_of_mem _ hx)) h other hother
      | stuck _ _ => cases h

/-- Nothing stops the loop in a text without hazards. -/
theorem firstOperator_ok_of_clear (known : ∀ x ∈ operators, x ∈ closedOperators)
    (clear : Clear '"' isNonAscii false t) : ∃ r, firstOperator t operators = .ok r := by
  induction operators with
  | nil => exact ⟨none, rfl⟩
  | cons x operators ih =>
      obtain ⟨token, op⟩ := x
      have outcome := find_outcome (known _ List.mem_cons_self) t
      rw [firstOperator]
      generalize findTopLevelOperator t token.toList = found at outcome
      cases outcome with
      | «at» _ _ => exact ⟨_, rfl⟩
      | nowhere _ _ => exact ih fun x hx => known x (List.mem_cons_of_mem _ hx)
      | stuck bad _ => exact absurd clear bad

/-- The loop ends without a panic exactly in the sliceable texts. -/
theorem firstOperator_ok_iff :
    (∃ r, firstOperator t closedOperators = .ok r) ↔ Sliceable t := by
  have le_known : ("<=", CompareOp.le) ∈ closedOperators := List.mem_cons_self
  have outcome := find_outcome le_known t
  have step : firstOperator t closedOperators =
      match findTopLevelOperator t "<=".toList with
      | .at lhs rhs => .ok (some (.le, lhs, rhs))
      | .nowhere => firstOperator t closedOperators.tail
      | .stuck => .error .charBoundary := rfl
  rw [step]
  generalize findTopLevelOperator t "<=".toList = found at outcome ⊢
  cases outcome with
  | «at» first free => exact ⟨fun _ => .inr ⟨_, _, first.1, free⟩, fun _ => ⟨_, rfl⟩⟩
  | nowhere none free =>
      refine ⟨fun _ => .inl free, fun _ => firstOperator_ok_of_clear ?_ free⟩
      exact fun x hx => List.mem_of_mem_tail hx
  | stuck bad all =>
      constructor
      · rintro ⟨r, h⟩
        cases h
      · rintro (free | ⟨before, after, occurs, free⟩)
        · exact absurd free bad
        · exact absurd free (all before after occurs)

/-- The three ways through the loop. -/
theorem firstOperator_cases (t : List Char) :
    ¬ Sliceable t ∧ firstOperator t closedOperators = .error .charBoundary ∨
    Sliceable t ∧ (∀ op lhs rhs, ¬ Decides t op lhs rhs) ∧
      firstOperator t closedOperators = .ok none ∨
    Sliceable t ∧ ∃ op lhs rhs, Decides t op lhs rhs ∧
      firstOperator t closedOperators = .ok (some (op, lhs, rhs)) := by
  have ends := firstOperator_ok_iff (t := t)
  cases h : firstOperator t closedOperators with
  | error panic =>
      cases panic
      refine .inl ⟨fun sliceable => ?_, rfl⟩
      obtain ⟨r, hr⟩ := ends.mpr sliceable
      rw [h] at hr
      cases hr
  | ok r =>
      have sliceable := ends.mp ⟨r, h⟩
      cases r with
      | none =>
          refine .inr (.inl ⟨sliceable, ?_, rfl⟩)
          rintro op lhs rhs ⟨passed, name, rest, split, wins⟩
          have hmem : (name, op) ∈ closedOperators := by
            rw [split]
            exact List.mem_append_right _ List.mem_cons_self
          exact firstOperator_none (fun _ hx => hx) h _ hmem _ _ wins.first.1
      | some found =>
          obtain ⟨op, lhs, rhs⟩ := found
          exact .inr (.inr ⟨sliceable, op, lhs, rhs, firstOperator_some (fun _ hx => hx) h, rfl⟩)

/-- Of two operators that are found, the one that is tried first is not passed for the other. -/
theorem Wins.eq_of_append {more rest rest' passed passed' : List (String × CompareOp)}
    {token' : String} (wins : Wins t passed token lhs rhs) (wins' : Wins t passed' token' lhs' rhs')
    (hpassed : passed' = passed ++ more)
    (htail : (token, op) :: rest = more ++ (token', op') :: rest') :
    op = op' ∧ lhs = lhs' ∧ rhs = rhs' := by
  cases more with
  | nil =>
      obtain ⟨same, -⟩ := List.cons.inj htail
      obtain ⟨rfl, rfl⟩ := Prod.mk.inj same
      exact ⟨rfl, wins.first.unique wins'.first⟩
  | cons x more =>
      obtain ⟨rfl, -⟩ := List.cons.inj htail
      have early : (token, op) ∈ passed' := by
        rw [hpassed]
        exact List.mem_append_right _ List.mem_cons_self
      exact absurd wins.first.1 (wins'.passed _ early _ _)

theorem Decides.unique (one : Decides t op lhs rhs) (other : Decides t op' lhs' rhs') :
    op = op' ∧ lhs = lhs' ∧ rhs = rhs' := by
  obtain ⟨passed, token, rest, split, wins⟩ := one
  obtain ⟨passed', token', rest', split', wins'⟩ := other
  rcases List.append_eq_append_iff.mp (split.symm.trans split') with
    ⟨more, hpassed, htail⟩ | ⟨more, hpassed, htail⟩
  · exact wins.eq_of_append wins' hpassed htail
  · obtain ⟨ops, left, right⟩ := wins'.eq_of_append wins hpassed htail
    exact ⟨ops.symm, left.symm, right.symm⟩

end Loop

/-! ### One comparison -/

/-- The token of an operator. -/
def token : CompareOp → List Char
  | .eq => "==".toList
  | .ne => "!=".toList
  | .lt => "<".toList
  | .le => "<=".toList
  | .gt => ">".toList
  | .ge => ">=".toList

/-- No operator character outside quotes, and the quotes are closed. -/
structure Side (s : List Char) : Prop where
  clear : Clear '"' isOpChar false s
  closed : endsInside '"' false s = false

section Single

variable {t lhs rhs before after : List Char} {op : CompareOp}

theorem token_eq {name : String} (h : (name, op) ∈ closedOperators) : name.toList = token op := by
  simp only [closedOperators, List.mem_cons, Prod.mk.injEq, List.not_mem_nil, or_false] at h
  rcases h with ⟨rfl, rfl⟩ | ⟨rfl, rfl⟩ | ⟨rfl, rfl⟩ | ⟨rfl, rfl⟩ | ⟨rfl, rfl⟩ | ⟨rfl, rfl⟩ <;> rfl

/-- The operator that decides a text stands between the sides. -/
theorem Decides.split (decides : Decides t op lhs rhs) : t = lhs ++ (token op ++ rhs) := by
  obtain ⟨passed, name, rest, split, wins⟩ := decides
  have hmem : (name, op) ∈ closedOperators := by
    rw [split]
    exact List.mem_append_right _ List.mem_cons_self
  rw [← token_eq hmem]
  exact wins.first.1.1

theorem token_chars (op : CompareOp) : ∀ c ∈ token op, isOpChar c = true := by
  have all : (token op).all isOpChar = true := by cases op <;> rfl
  exact List.all_eq_true.mp all

theorem endsInside_token (op : CompareOp) {gap left : List Char} (h : token op = gap ++ left) :
    endsInside '"' false gap = false := by
  apply endsInside_of_notMem
  intro hq
  have hop := token_chars op '"' (h ▸ List.mem_append_left _ hq)
  cases hop

/-- Between two sides an operator begins within the token. -/
theorem occurs_within {o : Char} {os : List Char} (ho : isOpChar o = true) (left : Side lhs)
    (right : Side rhs)
    (h : Occurs '"' (o :: os) false (lhs ++ (token op ++ rhs)) before after) :
    ∃ gap rest, before = lhs ++ gap ∧ token op = gap ++ rest ∧ rest ≠ [] ∧
      rest ++ rhs = (o :: os) ++ after := by
  have hq : o ≠ '"' := Codegen.ne_quote_of_isOpChar ho
  have absent (more : List Char) (hmore : endsInside '"' false more = false)
      (split : rhs = more ++ ((o :: os) ++ after)) : False :=
    Occurs.not_clear ⟨split, hmore⟩ ho hq right.clear
  obtain ⟨gap, rfl, split, outside⟩ := h.behind ho hq left.clear left.closed
  rcases List.append_eq_append_iff.mp split with ⟨more, rfl, hrhs⟩ | ⟨rest, htoken, hrest⟩
  · rw [endsInside_append, endsInside_token op (List.append_nil _).symm] at outside
    exact absurd hrhs (absent more outside)
  · cases rest with
    | nil => exact absurd hrest.symm (absent [] rfl)
    | cons c rest => exact ⟨gap, c :: rest, rfl, htoken, List.cons_ne_nil _ _, hrest.symm⟩

/-- What continues the end of a token in a side is no longer operator. -/
theorem prefix_of_within {o : List Char} (ho : ∀ c ∈ o, isOpChar c = true) {rest : List Char}
    (right : Side rhs) (h : rest ++ rhs = o ++ after) : o <+: rest := by
  rcases List.append_eq_append_iff.mp h with ⟨more, hrest, hrhs⟩ | ⟨more, hrest, -⟩
  · cases more with
    | nil =>
        rw [List.append_nil] at hrest
        exact hrest ▸ List.prefix_refl _
    | cons c more =>
        have hop : isOpChar c = true := by
          apply ho
          rw [hrest]
          exact List.mem_append_right _ List.mem_cons_self
        have clear := right.clear
        rw [hrhs] at clear
        have plain := Clear.at (s := []) clear rfl (Codegen.ne_quote_of_isOpChar hop)
        rw [hop] at plain
        cases plain
  · exact ⟨more, hrest.symm⟩

/-- No earlier operator begins in a token. -/
theorem no_earlier_token (op : CompareOp) : ∃ passed name rest,
    closedOperators = passed ++ (name, op) :: rest ∧ name.toList = token op ∧
      ∀ other ∈ passed, ∀ left ∈ (token op).tails, left ≠ [] → ¬ other.1.toList <+: left := by
  cases op with
  | le => exact ⟨[], "<=", _, rfl, rfl, by decide⟩
  | ge => exact ⟨[("<=", .le)], ">=", _, rfl, rfl, by decide⟩
  | ne => exact ⟨[("<=", .le), (">=", .ge)], "!=", _, rfl, rfl, by decide⟩
  | lt => exact ⟨[("<=", .le), (">=", .ge), ("!=", .ne)], "<", _, rfl, rfl, by decide⟩
  | gt => exact ⟨[("<=", .le), (">=", .ge), ("!=", .ne), ("<", .lt)], ">", _, rfl, rfl, by decide⟩
  | eq => exact ⟨[("<=", .le), (">=", .ge), ("!=", .ne), ("<", .lt), (">", .gt)], "==", _, rfl,
      rfl, by decide⟩

/-- An operator between two sides decides the text. -/
theorem decides_of_single (left : Side lhs) (right : Side rhs) :
    Decides (lhs ++ (token op ++ rhs)) op lhs rhs := by
  obtain ⟨passed, name, rest, split, hname, earlier⟩ := no_earlier_token op
  have known (other : String × CompareOp) (h : other ∈ closedOperators) :
      ∀ c ∈ other.1.toList, isOpChar c = true := by
    rw [token_eq h]
    exact token_chars other.2
  refine ⟨passed, name, rest, split, ?_, ?_⟩
  · intro other hother before after occurs
    have hmem : (other.1, other.2) ∈ closedOperators := by
      rw [split]
      exact List.mem_append_left _ hother
    obtain ⟨o, os, heq, ho⟩ := token_opens hmem
    rw [heq] at occurs
    obtain ⟨gap, left', rfl, htoken, hne, hsplit⟩ := occurs_within ho left right occurs
    rw [← heq] at hsplit
    apply earlier other hother left' _ hne (prefix_of_within (known _ hmem) right hsplit)
    exact (List.mem_tails _ _).mpr ⟨gap, htoken.symm⟩
  · have hmem : (name, op) ∈ closedOperators := by
      rw [split]
      exact List.mem_append_right _ List.mem_cons_self
    refine ⟨⟨by rw [hname], left.closed⟩, ?_⟩
    intro before after occurs
    obtain ⟨o, os, heq, ho⟩ := token_opens hmem
    rw [heq] at occurs
    obtain ⟨gap, left', rfl, -, -, -⟩ := occurs_within ho left right occurs
    rw [List.length_append]
    exact Nat.le_add_right _ _

end Single

end Lazuli.Analyzer
