import Mathlib.Data.List.Nodup
import Mathlib.Data.List.Perm.Subperm
import Mathlib.Logic.Relation

/-!
A search with a worklist.

`walk next visit` takes a node off the stack, skips it if it was visited, and otherwise visits it
and pushes its successors. A visit folds the node into what was collected, or ends the search.
The loop has fuel; `walk_isSome` says how much is enough.

When the search comes to its end it has visited the nodes reachable from its start, each once
(`walk_ok`). When a visit ends it, that was a reachable node (`walk_error`).
-/

namespace Lazuli.General

variable {α β ρ : Type*}

/-- The search; `none` when the fuel is used up. -/
def walk [DecidableEq α] (next : α → List α) (visit : β → α → Except ρ β) :
    Nat → List α → β → List α → Option (Except ρ β)
  | _, _, found, [] => some (.ok found)
  | 0, _, _, _ :: _ => none
  | fuel + 1, visited, found, node :: stack =>
      if node ∈ visited then walk next visit fuel visited found stack
      else
        match visit found node with
        | .error r => some (.error r)
        | .ok found => walk next visit fuel (visited ++ [node]) found (next node ++ stack)

section Walk

variable {next : α → List α} {visit : β → α → Except ρ β} {start : α}

/-- A node is a successor of another. -/
abbrev Succ (next : α → List α) (a b : α) : Prop := b ∈ next a

/-- What holds of the loop: nodes come from the start, none was visited twice, and the
successors of a visited node are visited or on the stack. -/
structure Walking (next : α → List α) (visit : β → α → Except ρ β) (start : α) (first : β)
    (visited : List α) (found : β) (stack : List α) : Prop where
  reached : ∀ v ∈ visited ++ stack, Relation.ReflTransGen (Succ next) start v
  started : start ∈ visited ++ stack
  closed : ∀ v ∈ visited, ∀ w ∈ next v, w ∈ visited ++ stack
  nodup : visited.Nodup
  folded : visited.foldlM visit first = .ok found

variable {first found : β} {visited stack : List α} {node : α}

theorem Walking.init (first : β) : Walking next visit start first [] first [start] where
  reached v mem := by
    rw [List.mem_singleton.mp mem]
  started := List.mem_singleton_self _
  closed v mem := absurd mem List.not_mem_nil
  nodup := List.nodup_nil
  folded := rfl

theorem Walking.skip (walking : Walking next visit start first visited found (node :: stack))
    (old : node ∈ visited) : Walking next visit start first visited found stack := by
  have narrow : ∀ v ∈ visited ++ node :: stack, v ∈ visited ++ stack := by
    intro v mem
    rcases List.mem_append.mp mem with here | ahead
    · exact List.mem_append_left _ here
    · rcases List.mem_cons.mp ahead with rfl | later
      · exact List.mem_append_left _ old
      · exact List.mem_append_right _ later
  have wide : ∀ v ∈ visited ++ stack, v ∈ visited ++ node :: stack := by
    intro v mem
    rcases List.mem_append.mp mem with here | ahead
    · exact List.mem_append_left _ here
    · exact List.mem_append_right _ (List.mem_cons_of_mem _ ahead)
  exact ⟨fun v mem => walking.reached v (wide v mem), narrow _ walking.started,
    fun v mem w hw => narrow w (walking.closed v mem w hw), walking.nodup, walking.folded⟩

theorem foldlM_concat {visit : β → α → Except ρ β} {visited : List α} {first found found' : β}
    (folded : visited.foldlM visit first = .ok found) (ok : visit found node = .ok found') :
    (visited ++ [node]).foldlM visit first = .ok found' := by
  rw [List.foldlM_append, folded]
  show [node].foldlM visit found = Except.ok found'
  rw [List.foldlM_cons, ok]
  rfl

theorem Walking.step (walking : Walking next visit start first visited found (node :: stack))
    (new : node ∉ visited) {found' : β} (ok : visit found node = .ok found') :
    Walking next visit start first (visited ++ [node]) found' (next node ++ stack) where
  reached v mem := by
    rcases List.mem_append.mp mem with here | ahead
    · exact walking.reached v (by
        rcases List.mem_append.mp here with old | now
        · exact List.mem_append_left _ old
        · rw [List.mem_singleton.mp now]
          exact List.mem_append_right _ List.mem_cons_self)
    · rcases List.mem_append.mp ahead with succ | later
      · have here := walking.reached node (List.mem_append_right _ List.mem_cons_self)
        exact here.tail succ
      · exact walking.reached v (List.mem_append_right _ (List.mem_cons_of_mem _ later))
  started := by
    have started := walking.started
    simp only [List.mem_append, List.mem_cons, List.not_mem_nil, or_false] at started ⊢
    tauto
  closed v mem w hw := by
    rcases List.mem_append.mp mem with old | now
    · have closed := walking.closed v old w hw
      simp only [List.mem_append, List.mem_cons, List.not_mem_nil, or_false] at closed ⊢
      tauto
    · rw [List.mem_singleton.mp now] at hw
      exact List.mem_append_right _ (List.mem_append_left _ hw)
  nodup := by
    rw [← List.concat_eq_append]
    exact walking.nodup.concat new
  folded := foldlM_concat walking.folded ok

/-- With an empty stack everything reachable was visited. -/
theorem Walking.complete (walking : Walking next visit start first visited found []) (v : α) :
    v ∈ visited ↔ Relation.ReflTransGen (Succ next) start v := by
  have reached := walking.reached
  have started := walking.started
  have closed := walking.closed
  simp only [List.append_nil] at reached started closed
  constructor
  · exact reached v
  · intro path
    induction path with
    | refl => exact started
    | tail _ step ih => exact closed _ ih _ step

variable [DecidableEq α]

theorem walk_spec {fuel : Nat} {result : Except ρ β}
    (walking : Walking next visit start first visited found stack)
    (h : walk next visit fuel visited found stack = some result) :
    (∀ found', result = .ok found' → ∃ order : List α, order.Nodup ∧
      (∀ v, v ∈ order ↔ Relation.ReflTransGen (Succ next) start v) ∧
      order.foldlM visit first = .ok found') ∧
    ∀ r, result = .error r → ∃ v seen, Relation.ReflTransGen (Succ next) start v ∧
      visit seen v = .error r := by
  induction fuel generalizing visited found stack with
  | zero =>
      cases stack with
      | cons node stack => simp [walk] at h
      | nil =>
          cases h
          refine ⟨?_, nofun⟩
          rintro found' ⟨rfl⟩
          exact ⟨visited, walking.nodup, walking.complete, walking.folded⟩
  | succ fuel ih =>
      cases stack with
      | nil =>
          cases h
          refine ⟨?_, nofun⟩
          rintro found' ⟨rfl⟩
          exact ⟨visited, walking.nodup, walking.complete, walking.folded⟩
      | cons node stack =>
          unfold walk at h
          by_cases old : node ∈ visited
          · rw [if_pos old] at h
            exact ih (walking.skip old) h
          · rw [if_neg old] at h
            cases hvisit : visit found node with
            | error r =>
                rw [hvisit] at h
                cases h
                refine ⟨nofun, ?_⟩
                rintro r' ⟨rfl⟩
                exact ⟨node, found,
                  walking.reached node (List.mem_append_right _ List.mem_cons_self), hvisit⟩
            | ok found' =>
                rw [hvisit] at h
                exact ih (walking.step old hvisit) h

/-- A search that came to its end visited what can be reached, each node once. -/
theorem walk_ok {fuel : Nat} {found' : β}
    (h : walk next visit fuel [] first [start] = some (.ok found')) :
    ∃ order : List α, order.Nodup ∧
      (∀ v, v ∈ order ↔ Relation.ReflTransGen (Succ next) start v) ∧
      order.foldlM visit first = .ok found' :=
  (walk_spec (Walking.init first) h).1 found' rfl

theorem walk_error {fuel : Nat} {r : ρ}
    (h : walk next visit fuel [] first [start] = some (.error r)) :
    ∃ v seen, Relation.ReflTransGen (Succ next) start v ∧ visit seen v = .error r :=
  (walk_spec (Walking.init first) h).2 r rfl

/-- When nodes are among `nodes` and none has more than one successor, two turns for each
node are enough. -/
theorem walk_isSome (nodes : List α) (within : ∀ v, ∀ w ∈ next v, w ∈ nodes)
    (single : ∀ v, (next v).length ≤ 1) {fuel : Nat} (nodup : visited.Nodup)
    (old : ∀ v ∈ visited, v ∈ nodes) (ahead : ∀ v ∈ stack, v ∈ nodes)
    (enough : 2 * (nodes.length - visited.length) + stack.length ≤ fuel) :
    (walk next visit fuel visited found stack).isSome = true := by
  induction fuel generalizing visited found stack with
  | zero =>
      cases stack with
      | nil => rfl
      | cons node stack =>
          rw [List.length_cons] at enough
          omega
  | succ fuel ih =>
      cases stack with
      | nil => rfl
      | cons node stack =>
          rw [List.length_cons] at enough
          have later : ∀ v ∈ stack, v ∈ nodes := fun v mem => ahead v (List.mem_cons_of_mem _ mem)
          unfold walk
          by_cases seen : node ∈ visited
          · rw [if_pos seen]
            exact ih nodup old later (by omega)
          · rw [if_neg seen]
            cases visit found node with
            | error r => rfl
            | ok found' =>
                have grown : (visited ++ [node]).Nodup := by
                  rw [← List.concat_eq_append]
                  exact nodup.concat seen
                have inside : ∀ v ∈ visited ++ [node], v ∈ nodes := by
                  intro v mem
                  rcases List.mem_append.mp mem with here | now
                  · exact old v here
                  · rw [List.mem_singleton.mp now]
                    exact ahead node List.mem_cons_self
                have room : (visited ++ [node]).length ≤ nodes.length :=
                  (List.subperm_of_subset grown inside).length_le
                have one := single node
                refine ih grown inside ?_ ?_
                · intro v mem
                  rcases List.mem_append.mp mem with succ | rest
                  · exact within node v succ
                  · exact later v rest
                · rw [List.length_append, List.length_singleton] at room ⊢
                  rw [List.length_append]
                  omega

end Walk

end Lazuli.General
