import Mathlib.Data.Finset.Card
import Mathlib.Data.Finset.Filter
import Mathlib.Logic.Function.Iterate
import Mathlib.Logic.Relation

/-!
The nodes of a finite set that are linked to a seed, computed by saturation.

`component nodes adj seed` starts from the nodes that satisfy `seed` and adds the
neighbours of what it has, as many times as there are nodes. This is what a
recursive query with set semantics returns. `mem_component_iff` says that it is the
closure of the seed under `adj` within `nodes`.
-/

namespace Lazuli.General

variable {α : Type*} [DecidableEq α]

/-- One round: keep what was seen, and add its neighbours. -/
def expand (nodes : Finset α) (adj : α → α → Bool) (seen : Finset α) : Finset α :=
  nodes.filter fun x => x ∈ seen ∨ ∃ y ∈ seen, adj y x

/-- `k` rounds from the seed. -/
def rounds (nodes : Finset α) (adj : α → α → Bool) (seed : α → Bool) (k : Nat) : Finset α :=
  (expand nodes adj)^[k] (nodes.filter fun x => seed x)

/-- Saturate the seed under `adj`. -/
def component (nodes : Finset α) (adj : α → α → Bool) (seed : α → Bool) : Finset α :=
  rounds nodes adj seed nodes.card

/-- `b` is reached from `a` over nodes of the set. -/
abbrev Linked (nodes : Finset α) (adj : α → α → Bool) : α → α → Prop :=
  Relation.ReflTransGen fun a b => b ∈ nodes ∧ adj a b

section Component

variable {nodes : Finset α} {adj : α → α → Bool} {seed : α → Bool} {x : α}

theorem mem_expand {seen : Finset α} :
    x ∈ expand nodes adj seen ↔ x ∈ nodes ∧ (x ∈ seen ∨ ∃ y ∈ seen, adj y x) := by
  simp only [expand, Finset.mem_filter]

theorem rounds_succ (k : Nat) :
    rounds nodes adj seed (k + 1) = expand nodes adj (rounds nodes adj seed k) :=
  Function.iterate_succ_apply' _ _ _

theorem rounds_subset_nodes (nodes : Finset α) (adj : α → α → Bool) (seed : α → Bool) (k : Nat) :
    rounds nodes adj seed k ⊆ nodes := by
  cases k with
  | zero => exact Finset.filter_subset _ _
  | succ k =>
      rw [rounds_succ]
      exact Finset.filter_subset _ _

theorem rounds_subset_succ (k : Nat) :
    rounds nodes adj seed k ⊆ rounds nodes adj seed (k + 1) := by
  intro x mem
  rw [rounds_succ]
  exact mem_expand.mpr ⟨rounds_subset_nodes nodes adj seed k mem, .inl mem⟩

/-- A round that adds nothing is the last one to add anything; every other round adds
a node. -/
theorem rounds_stable_or_card (nodes : Finset α) (adj : α → α → Bool) (seed : α → Bool)
    (k : Nat) :
    rounds nodes adj seed (k + 1) = rounds nodes adj seed k ∨
      k + 1 ≤ (rounds nodes adj seed (k + 1)).card := by
  by_cases stable : rounds nodes adj seed (k + 1) = rounds nodes adj seed k
  · exact .inl stable
  · have grows : (rounds nodes adj seed k).card < (rounds nodes adj seed (k + 1)).card :=
      Finset.card_lt_card ((rounds_subset_succ k).ssubset_of_ne (Ne.symm stable))
    refine .inr ?_
    induction k with
    | zero => omega
    | succ k ih =>
        have before : ¬ rounds nodes adj seed (k + 1) = rounds nodes adj seed k := by
          intro same
          apply stable
          rw [rounds_succ (k + 1), same, ← rounds_succ, same]
        have := ih before (Finset.card_lt_card
          ((rounds_subset_succ k).ssubset_of_ne (Ne.symm before)))
        omega

/-- The component is closed under its neighbours. -/
theorem expand_component :
    expand nodes adj (component nodes adj seed) = component nodes adj seed := by
  rw [component, ← rounds_succ]
  rcases rounds_stable_or_card nodes adj seed nodes.card with stable | many
  · exact stable
  · have := Finset.card_le_card (rounds_subset_nodes nodes adj seed (nodes.card + 1))
    omega

theorem linked_of_mem_rounds (k : Nat) (mem : x ∈ rounds nodes adj seed k) :
    ∃ s ∈ nodes, seed s ∧ Linked nodes adj s x := by
  induction k generalizing x with
  | zero =>
      obtain ⟨here, start⟩ := Finset.mem_filter.mp mem
      exact ⟨x, here, start, .refl⟩
  | succ k ih =>
      rw [rounds_succ] at mem
      obtain ⟨here, old | ⟨y, seen, edge⟩⟩ := mem_expand.mp mem
      · exact ih old
      · obtain ⟨s, hs, start, path⟩ := ih seen
        exact ⟨s, hs, start, path.tail ⟨here, edge⟩⟩

theorem seed_mem_rounds (here : x ∈ nodes) (start : seed x) (k : Nat) :
    x ∈ rounds nodes adj seed k := by
  induction k with
  | zero => exact Finset.mem_filter.mpr ⟨here, start⟩
  | succ k ih => exact rounds_subset_succ k ih

/-- The component of a seed is what the seed is linked to. -/
theorem mem_component_iff :
    x ∈ component nodes adj seed ↔ ∃ s ∈ nodes, seed s ∧ Linked nodes adj s x := by
  constructor
  · exact linked_of_mem_rounds nodes.card
  · rintro ⟨s, here, start, path⟩
    induction path with
    | refl => exact seed_mem_rounds here start _
    | tail _ edge ih =>
        rw [← expand_component]
        exact mem_expand.mpr ⟨edge.1, .inr ⟨_, ih, edge.2⟩⟩

end Component

end Lazuli.General
