import Mathlib.Data.List.Basic
import Mathlib.Data.List.Infix
import Mathlib.Data.List.Nodup
import Mathlib.Data.List.Pairwise

/-!
Boolean formulas written infix, over any alphabet of tokens.

A `Lexicon` says which tokens are the five marks of the notation and what the others
stand for. `Phrase L level ts b` is the grammar

    disj  ::= conj ("or" conj)*
    conj  ::= unary ("and" unary)*
    unary ::= "not" unary | leaf | "(" disj ")"

together with the value `b` that the phrase denotes. A printer is correct when what it
prints is a phrase of the value it means; an evaluator is correct when it returns the
value of every phrase it is given. The two sides meet here and nowhere else.
-/

namespace Lazuli.General.Infix

inductive Mark where
  | opening
  | closing
  | and
  | or
  | not
  deriving DecidableEq

/-- What the tokens are: one of the marks, or a leaf with a truth value. -/
structure Lexicon (τ : Type*) where
  mark : τ → Option Mark
  leaf : τ → Bool

inductive Level where
  | unary
  | conj
  | disj
  deriving DecidableEq

inductive Phrase {τ : Type*} (L : Lexicon τ) : Level → List τ → Bool → Prop where
  | leaf {t : τ} : L.mark t = none → Phrase L .unary [t] (L.leaf t)
  | not {t : τ} {ts : List τ} {b : Bool} :
      L.mark t = some .not → Phrase L .unary ts b → Phrase L .unary (t :: ts) (!b)
  | group {o c : τ} {ts : List τ} {b : Bool} :
      L.mark o = some .opening → L.mark c = some .closing →
      Phrase L .disj ts b → Phrase L .unary (o :: (ts ++ [c])) b
  | factor {ts : List τ} {b : Bool} : Phrase L .unary ts b → Phrase L .conj ts b
  | and {t : τ} {ts us : List τ} {b c : Bool} :
      Phrase L .unary ts b → L.mark t = some .and →
      Phrase L .conj us c → Phrase L .conj (ts ++ t :: us) (b && c)
  | term {ts : List τ} {b : Bool} : Phrase L .conj ts b → Phrase L .disj ts b
  | or {t : τ} {ts us : List τ} {b c : Bool} :
      Phrase L .conj ts b → L.mark t = some .or →
      Phrase L .disj us c → Phrase L .disj (ts ++ t :: us) (b || c)

/-- The operands one after the other, `sep` before each but the first. -/
def joined {τ : Type*} (sep : τ) : List (List τ) → List τ
  | [] => []
  | ts :: rest => ts ++ rest.flatMap (sep :: ·)

section Rules

variable {τ ι : Type*} {L : Lexicon τ} {ts : List τ} {b : Bool}

theorem joined_singleton (sep : τ) (ts : List τ) : joined sep [ts] = ts := by
  simp [joined]

theorem joined_cons_cons (sep : τ) (ts us : List τ) (rest : List (List τ)) :
    joined sep (ts :: us :: rest) = ts ++ sep :: joined sep (us :: rest) := by
  simp [joined]

/-- A unary phrase also stands where a disjunction is wanted. -/
theorem Phrase.disjunct (h : Phrase L .unary ts b) : Phrase L .disj ts b :=
  .term (.factor h)

/-- Operands joined by "or" denote "some operand is true". -/
theorem Phrase.joined_or {sep : τ} (hsep : L.mark sep = some .or)
    (text : ι → List τ) (value : ι → Bool) (xs : List ι) (hne : xs ≠ [])
    (h : ∀ x ∈ xs, Phrase L .unary (text x) (value x)) :
    Phrase L .disj (joined sep (xs.map text)) (xs.any value) := by
  induction xs with
  | nil => exact absurd rfl hne
  | cons x xs ih =>
      have hx := h x List.mem_cons_self
      cases xs with
      | nil => simpa [joined_singleton] using hx.disjunct
      | cons y ys =>
          have hrest := ih (List.cons_ne_nil y ys)
            (fun z hz => h z (List.mem_cons_of_mem x hz))
          rw [List.any_cons, List.map_cons, List.map_cons, joined_cons_cons]
          exact .or (.factor hx) hsep hrest

/-- Operands joined by "and" denote "every operand is true". -/
theorem Phrase.joined_and {sep : τ} (hsep : L.mark sep = some .and)
    (text : ι → List τ) (value : ι → Bool) (xs : List ι) (hne : xs ≠ [])
    (h : ∀ x ∈ xs, Phrase L .unary (text x) (value x)) :
    Phrase L .conj (joined sep (xs.map text)) (xs.all value) := by
  induction xs with
  | nil => exact absurd rfl hne
  | cons x xs ih =>
      have hx := h x List.mem_cons_self
      cases xs with
      | nil => simpa [joined_singleton] using Phrase.factor hx
      | cons y ys =>
          have hrest := ih (List.cons_ne_nil y ys)
            (fun z hz => h z (List.mem_cons_of_mem x hz))
          rw [List.all_cons, List.map_cons, List.map_cons, joined_cons_cons]
          exact .and hx hsep hrest

end Rules

end Lazuli.General.Infix

/-!
Names that are formed around a word.

An affix puts a lead before a word and a tail behind it. Different words stay different, and two
affixes never form the same name when neither lead begins with the other, or neither tail ends
with the other. So a family of such affixes keeps a list of words apart (`nodup_names`).
-/

namespace Lazuli.General

structure Affix where
  lead : String
  tail : String := ""
  deriving DecidableEq

namespace Affix

variable {a b : Affix} {x y : String}

def name (a : Affix) (x : String) : String := a.lead ++ x ++ a.tail

theorem toList_name : (a.name x).toList = a.lead.toList ++ (x.toList ++ a.tail.toList) := by
  rw [name, String.toList_append, String.toList_append, List.append_assoc]

theorem name_inj : a.name x = a.name y ↔ x = y :=
  (String.append_left_inj a.tail).trans (String.append_right_inj a.lead)

/-- What is formed with one is never formed with the other. -/
def Apart (a b : Affix) : Prop :=
  (¬ a.lead.toList <+: b.lead.toList ∧ ¬ b.lead.toList <+: a.lead.toList) ∨
    (¬ a.tail.toList <:+ b.tail.toList ∧ ¬ b.tail.toList <:+ a.tail.toList)

instance : DecidableRel Apart := fun _ _ => inferInstanceAs (Decidable (_ ∨ _))

instance : Std.Symm Apart where
  symm _ _ apart := apart.imp And.symm And.symm

theorem Apart.name_ne (apart : a.Apart b) (x y : String) : a.name x ≠ b.name y := by
  intro h
  have same := congrArg String.toList h
  rw [toList_name, toList_name] at same
  rcases apart with ⟨left, right⟩ | ⟨left, right⟩
  · rcases List.prefix_or_prefix_of_prefix (List.prefix_append _ _) ⟨_, same.symm⟩ with h | h
    · exact left h
    · exact right h
  · rw [← List.append_assoc, ← List.append_assoc] at same
    rcases List.suffix_or_suffix_of_suffix (List.suffix_append _ _) ⟨_, same.symm⟩ with h | h
    · exact left h
    · exact right h

/-- Affixes that are apart keep different words apart. -/
theorem nodup_names {affixes : List Affix} {words : List String}
    (apart : affixes.Pairwise Apart) (distinct : words.Nodup) :
    (words.flatMap fun x => affixes.map fun a => a.name x).Nodup := by
  refine List.nodup_flatMap.mpr ⟨fun x _ => ?_, ?_⟩
  · exact List.pairwise_map.mpr (apart.imp fun apart => apart.name_ne x x)
  · refine distinct.imp fun {x y} ne => ?_
    intro n first second
    obtain ⟨a, hmem, rfl⟩ := List.mem_map.mp first
    obtain ⟨b, hmem', same⟩ := List.mem_map.mp second
    rcases eq_or_ne a b with rfl | other
    · exact ne (name_inj.mp same).symm
    · exact (apart.forall hmem hmem' other).name_ne x y same.symm

end Affix

end Lazuli.General
