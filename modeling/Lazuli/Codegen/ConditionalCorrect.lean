import Lazuli.Codegen.GuardText

/-!
Conditional policy references, against what their text says.

A reference should grant when its predicate holds and the category it names grants. The
emitted policy is a disjunction of one group for each reference, so it grants when the
guard rendered for some reference holds and some atom of its category matches
(`granted_conditional`). The difference between the two is spelled out by `Widened`, in
three cases; by `renderWhenText_of_comparison` a plain comparison is never misread. What
predicates of other shapes mean is left open (`Meaning`).
-/

namespace Lazuli.Codegen

open Lazuli.General.Infix
open Lazuli.Runtime
open Lazuli.Ir (PolicyCategory Policies EvalPredicate leafMatches)

/-! ### What references mean -/

/-- A reading of predicates: comparisons mean what they say, the rest is free. -/
structure Meaning where
  text : String → Option Slot → Bool
  predicate : EvalPredicate → Option Slot → Bool
  text_comparison : ∀ {t : String} {c : Ir.Comparison}, readComparison t = some c →
    ∀ input, text t input = c.holds input
  predicate_comparison : ∀ {p : EvalPredicate} {c : Ir.Comparison}, p.comparison? = some c →
    ∀ input, predicate p input = c.holds input

/-- Nothing but comparisons holds. -/
def Meaning.plain : Meaning where
  text t input := (readComparison t).any fun c => c.holds input
  predicate p input := p.holds input
  text_comparison h input := by rw [h, Option.any_some]
  predicate_comparison h input := by rw [EvalPredicate.holds, h, Option.any_some]

section References

variable (m : Meaning) (hooks : Rbac) (ctx : Ctx) (policies : Policies) (input : Option Slot)

/-- The predicate that the author wrote holds, or there is none. -/
def ConditionalPolicyRef.authored (r : ConditionalPolicyRef) : Bool :=
  r.when.all fun t => m.text t input

/-- The category grants, its own guards included. -/
def NameGrants (name : String) : Prop :=
  match builtinScopeAtom name with
  | some scope => leafMatches hooks ctx "scope" scope = true
  | none => ∃ category, policies.find name = some category ∧
      category.Grants hooks ctx fun p => m.predicate p input

def RefGrants (r : ConditionalPolicyRef) : Prop :=
  r.authored m input = true ∧ NameGrants m hooks ctx policies input r.name

/-- Some atom of the category matches, its own guard disregarded. -/
def SomeAtomMatches (name : String) : Prop :=
  ∃ atoms, refAtoms policies name = .ok atoms ∧
    ∃ a ∈ atoms, leafMatches hooks ctx a.1 a.2 = true

/-- The guard that was rendered holds, or none was. -/
def ConditionalPolicyRef.rendered (r : ConditionalPolicyRef) : Bool :=
  (r.when.bind renderWhenText).all fun w => w.holds input

/-- How a reference lets a caller through whom its text does not. -/
inductive Widened (r : ConditionalPolicyRef) : Prop
  /-- Its predicate is false and was not rendered at all. -/
  | unguarded {t : String} : r.when = some t → renderWhenText t = none →
      m.text t input = false → SomeAtomMatches hooks ctx policies r.name → Widened r
  /-- Its predicate is false and no plain comparison, and was rendered as one that holds. -/
  | misread {t : String} {w : PolicyWhen} : r.when = some t → readComparison t = none →
      renderWhenText t = some w → w.holds input = true →
      m.text t input = false → SomeAtomMatches hooks ctx policies r.name → Widened r
  /-- The category does not grant: only atoms whose own guards fail match. -/
  | ownGuard : r.rendered input = true → SomeAtomMatches hooks ctx policies r.name →
      ¬ NameGrants m hooks ctx policies input r.name → Widened r

end References

/-! ### The emitted policy -/

theorem mapM_ok {ε α β : Type} {f : α → Except ε β} {xs : List α} {ys : List β}
    (h : xs.mapM f = .ok ys) :
    (∀ x ∈ xs, ∃ y, f x = .ok y) ∧ ∀ g : α → β, (∀ x ∈ xs, f x = .ok (g x)) → ys = xs.map g := by
  induction xs generalizing ys with
  | nil =>
      cases h
      exact ⟨fun x hx => absurd hx List.not_mem_nil, fun g _ => rfl⟩
  | cons x xs ih =>
      rw [List.mapM_cons] at h
      cases hx : f x with
      | error e =>
          rw [hx] at h
          cases h
      | ok y =>
          cases hxs : xs.mapM f with
          | error e =>
              rw [hx, hxs] at h
              cases h
          | ok zs =>
              rw [hx, hxs] at h
              cases h
              obtain ⟨hall, hmap⟩ := ih hxs
              constructor
              · intro z hz
                rcases List.mem_cons.mp hz with rfl | hz
                · exact ⟨y, hx⟩
                · exact hall z hz
              · intro g hg
                have hy : y = g x := by
                  have hgx := hg x List.mem_cons_self
                  rw [hx] at hgx
                  exact Except.ok.inj hgx
                rw [hy, hmap g fun z hz => hg z (List.mem_cons_of_mem _ hz), List.map_cons]

section Emitted

variable {hooks : Rbac} {ctx : Ctx} {policies : Policies} {input : Option Slot}

theorem refAtoms_ne_nil {name : String} {atoms : List (String × String)}
    (h : refAtoms policies name = .ok atoms) : atoms ≠ [] := by
  unfold refAtoms at h
  split at h
  · cases h
    exact List.cons_ne_nil _ _
  · split at h
    · cases h
    · next category _ =>
      simp only at h
      split at h
      · cases h
      · next hne =>
        cases h
        exact fun hnil => hne (List.isEmpty_iff.mpr hnil)

/-- The atoms of a category are no markers. -/
theorem refAtoms_ns_ne {name : String} {atoms : List (String × String)}
    (h : refAtoms policies name = .ok atoms) {a : String × String} (ha : a ∈ atoms) :
    a.1 ≠ "predicate" := by
  unfold refAtoms at h
  split at h
  · cases h
    obtain rfl := List.mem_singleton.mp ha
    exact (by decide : "scope" ≠ "predicate")
  · split at h
    · cases h
    · next category _ =>
      simp only at h
      split at h
      · cases h
      · cases h
        rcases List.mem_append.mp ha with ha | ha
        · obtain ⟨atom, hatom, rfl⟩ := List.mem_map.mp ha
          exact atom_ns_ne hatom
        · obtain ⟨ca, hca, rfl⟩ := List.mem_map.mp ha
          rw [← renderConditionalAtom_ns]
          exact conditional_ns_ne hca

/-- The atoms of a reference that resolves, each with the rendered guard. -/
def guardedAtoms (r : ConditionalPolicyRef) (atoms : List (String × String)) :
    List Runtime.PolicyAtom :=
  atoms.map fun (ns, name) => { ns, name, when := r.when.bind renderWhenText }

theorem refGroup_eq {r : ConditionalPolicyRef} {group : List Runtime.PolicyAtom}
    (h : refGroup policies r = .ok group) :
    ∃ atoms, refAtoms policies r.name = .ok atoms ∧ group = orGroup (guardedAtoms r atoms) := by
  unfold refGroup at h
  cases hatoms : refAtoms policies r.name with
  | error e =>
      rw [hatoms] at h
      cases h
  | ok atoms =>
      rw [hatoms] at h
      exact ⟨atoms, rfl, (Except.ok.inj h).symm⟩

theorem any_guardedAtoms (r : ConditionalPolicyRef) (atoms : List (String × String)) :
    (guardedAtoms r atoms).any (atomMatchesInput hooks ctx input) =
      (r.rendered input && atoms.any fun a => leafMatches hooks ctx a.1 a.2) := by
  unfold guardedAtoms
  induction atoms with
  | nil => simp
  | cons a atoms ih =>
      rw [List.map_cons, List.any_cons, ih, List.any_cons, Bool.and_or_distrib_left]
      rfl

/-- The group of a reference is one operand: its guard holds and some atom matches. -/
theorem phrase_refGroup {r : ConditionalPolicyRef} {group : List Runtime.PolicyAtom}
    {atoms : List (String × String)} (hatoms : refAtoms policies r.name = .ok atoms)
    (hgroup : refGroup policies r = .ok group) :
    Phrase (lexicon hooks ctx input) .unary group
      (r.rendered input && atoms.any fun a => leafMatches hooks ctx a.1 a.2) := by
  obtain ⟨atoms', hatoms', rfl⟩ := refGroup_eq hgroup
  obtain rfl := Except.ok.inj (hatoms.symm.trans hatoms')
  rw [← any_guardedAtoms]
  apply phrase_orGroup
  · intro hnil
    exact refAtoms_ne_nil hatoms (List.map_eq_nil_iff.mp hnil)
  · intro a ha
    obtain ⟨⟨ns, name⟩, hmem, rfl⟩ := List.mem_map.mp ha
    exact refAtoms_ns_ne hatoms hmem

theorem refs_ne_nil {raw : String} {refs : List ConditionalPolicyRef}
    (h : parseConditionalPolicyRefs raw = some refs) : refs ≠ [] := by
  unfold parseConditionalPolicyRefs at h
  split at h
  · cases h
  · split at h
    · next hform =>
      cases h
      rintro rfl
      simp at hform
    · cases h

/-- The emitted policy grants when, for some reference, the rendered guard holds and some
atom of the category matches. -/
theorem granted_conditional {raw : String} {refs : List ConditionalPolicyRef} {p : Policy}
    (hrefs : parseConditionalPolicyRefs raw = some refs)
    (hp : formatConditionalPolicy raw policies = some (some p)) :
    Granted hooks ctx input p ↔
      ∃ r ∈ refs, r.rendered input = true ∧ SomeAtomMatches hooks ctx policies r.name := by
  unfold formatConditionalPolicy at hp
  rw [hrefs] at hp
  simp only at hp
  split at hp
  · cases hp
  · cases hp
  · next groups hgroups =>
    obtain rfl := Option.some.inj (Option.some.inj hp)
    obtain ⟨hall, hmap⟩ := mapM_ok hgroups
    let text (r : ConditionalPolicyRef) : List Runtime.PolicyAtom :=
      (refGroup policies r).toOption.getD []
    let value (r : ConditionalPolicyRef) : Bool :=
      r.rendered input && ((refAtoms policies r.name).toOption.getD []).any fun a =>
        leafMatches hooks ctx a.1 a.2
    have htext : groups = refs.map text := by
      apply hmap
      intro r hr
      obtain ⟨group, hgroup⟩ := hall r hr
      simp only [text, hgroup]
      rfl
    have hphrase : ∀ r ∈ refs, Phrase (lexicon hooks ctx input) .unary (text r) (value r) := by
      intro r hr
      obtain ⟨group, hgroup⟩ := hall r hr
      obtain ⟨atoms, hatoms, -⟩ := refGroup_eq hgroup
      simp only [text, value, hgroup, hatoms]
      exact phrase_refGroup hatoms hgroup
    have hjoined := Phrase.joined_or mark_predicateAtom_or text value refs
      (refs_ne_nil hrefs) hphrase
    rw [← htext] at hjoined
    rw [granted_iff_of_phrase hjoined, List.any_eq_true]
    refine exists_congr fun r => and_congr_right fun hr => ?_
    obtain ⟨group, hgroup⟩ := hall r hr
    obtain ⟨atoms, hatoms, -⟩ := refGroup_eq hgroup
    simp only [value, hatoms, SomeAtomMatches, Bool.and_eq_true]
    refine and_congr_right fun _ => ?_
    constructor
    · intro hany
      exact ⟨atoms, rfl, List.any_eq_true.mp hany⟩
    · rintro ⟨atoms', hatoms', hmatch⟩
      cases hatoms'
      exact List.any_eq_true.mpr hmatch

end Emitted

/-! ### Widening -/

section Widening

variable {m : Meaning} {hooks : Rbac} {ctx : Ctx} {policies : Policies} {input : Option Slot}
  {r : ConditionalPolicyRef}

theorem Widened.emitted (h : Widened m hooks ctx policies input r) :
    r.rendered input = true ∧ SomeAtomMatches hooks ctx policies r.name := by
  cases h with
  | unguarded hwhen hnone _ hmatch =>
      refine ⟨?_, hmatch⟩
      rw [ConditionalPolicyRef.rendered, hwhen, Option.bind_some, hnone, Option.all_none]
  | misread hwhen _ hsome hholds _ hmatch =>
      refine ⟨?_, hmatch⟩
      rw [ConditionalPolicyRef.rendered, hwhen, Option.bind_some, hsome, Option.all_some, hholds]
  | ownGuard hrendered hmatch _ => exact ⟨hrendered, hmatch⟩

/-- A reference that is let through without granting is widened. -/
theorem refGrants_or_widened (hrendered : r.rendered input = true)
    (hmatch : SomeAtomMatches hooks ctx policies r.name) :
    RefGrants m hooks ctx policies input r ∨ Widened m hooks ctx policies input r := by
  by_cases hname : NameGrants m hooks ctx policies input r.name
  · cases hauthored : r.authored m input with
    | true => exact .inl ⟨hauthored, hname⟩
    | false =>
        refine .inr ?_
        cases hwhen : r.when with
        | none => simp [ConditionalPolicyRef.authored, hwhen] at hauthored
        | some t =>
            rw [ConditionalPolicyRef.authored, hwhen, Option.all_some] at hauthored
            cases hrender : renderWhenText t with
            | none => exact .unguarded hwhen hrender hauthored hmatch
            | some w =>
                rw [ConditionalPolicyRef.rendered, hwhen, Option.bind_some, hrender,
                  Option.all_some] at hrendered
                cases hread : readComparison t with
                | none => exact .misread hwhen hread hrender hrendered hauthored hmatch
                | some c =>
                    -- a plain comparison is rendered as it is, so it would be false
                    rcases renderWhenText_of_comparison hread with hnone | hsome
                    · rw [hnone] at hrender
                      cases hrender
                    · rw [hsome] at hrender
                      obtain rfl := Option.some.inj hrender
                      rw [comparisonGuard_holds, ← m.text_comparison hread, hauthored]
                        at hrendered
                      cases hrendered
  · exact .inr (.ownGuard hrendered hmatch hname)

end Widening

def review : PolicyCategory :=
  { name := "review", atoms := ["@role.sales"], conditionalAtoms := [], registered := by decide }

/-- Open to salespeople once the scope is `final`. -/
def release : PolicyCategory :=
  { name := "release"
    atoms := []
    conditionalAtoms :=
      [{ atom := "@role.sales"
         when := .closed (.comparison (.path { segments := ["input", "scope"] }) .eq
           (.string "final")) }]
    registered := by decide }

def reviewPolicies : Policies := { categories := [review, release] }

def noteInput : Slot :=
  .direct (.struct (.cons "Note" "note" (.direct (.string "a<=b"))
    (.cons "Scope" "scope" (.direct (.string "draft")) .nil)))

def noteRef : ConditionalPolicyRef :=
  { name := "review", when := some "input.note != \"a<=b\"" }

def scopeRef : ConditionalPolicyRef :=
  { name := "release", when := some "input.scope == \"draft\"" }

def noteText : String := "@policy.review when input.note != \"a<=b\""

def scopeText : String := "@policy.release when input.scope == \"draft\""

def notePolicy : Policy :=
  { name := noteText, atoms := [{ ns := "role", name := "sales" }] }

def scopeGuard : PolicyWhen := { path := "input.scope", op := "=", value := .string "draft" }

def scopePolicy : Policy :=
  { name := scopeText, atoms := [{ ns := "role", name := "sales", when := some scopeGuard }] }

theorem parse_noteText : parseConditionalPolicyRefs noteText = some [noteRef] := by
  decide +kernel

theorem format_noteText :
    formatConditionalPolicy noteText reviewPolicies = some (some notePolicy) := by
  decide +kernel

theorem parse_scopeText : parseConditionalPolicyRefs scopeText = some [scopeRef] := by
  decide +kernel

theorem format_scopeText :
    formatConditionalPolicy scopeText reviewPolicies = some (some scopePolicy) := by
  decide +kernel

theorem read_note : readComparison "input.note != \"a<=b\"" =
    some { path := "input.note", op := .ne, literal := .string "a<=b" } := by decide +kernel

end Lazuli.Codegen
