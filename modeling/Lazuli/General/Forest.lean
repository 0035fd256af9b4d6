import Mathlib

/-!
Forests grown from a relation between a label and the labels under it.

A forest is grown level by level from its roots. Where every label stands in one place only, each
label that is reached from a root occurs exactly once, under the label it hangs from, and a forest
as high as there are labels is complete.
-/

namespace Lazuli.General

variable {α : Type*}

/-- A forest: a first tree, given by its label and what is below it, and the other trees. -/
inductive Forest (α : Type*) where
  | nil
  | node (label : α) (below rest : Forest α)

namespace Forest

def labels : Forest α → List α
  | nil => []
  | node label below rest => label :: (below.labels ++ rest.labels)

/-- Each label with the one it hangs from; the roots hang from `above`. -/
def edges (above : α) : Forest α → List (α × α)
  | nil => []
  | node label below rest => (above, label) :: (below.edges label ++ rest.edges above)

/-- The trees of these labels, each on what `grow` makes of it. -/
def plant (grow : α → Forest α) : List α → Forest α
  | [] => nil
  | label :: others => node label (grow label) (plant grow others)

/-- The forest over these roots, up to a height. -/
def grow (children : α → List α) : Nat → List α → Forest α
  | 0, roots => plant (fun _ => nil) roots
  | height + 1, roots => plant (fun label => grow children height (children label)) roots

/-- A label at this depth below the roots. -/
inductive Depth (children : α → List α) (roots : List α) : Nat → α → Prop where
  | root {x : α} : x ∈ roots → Depth children roots 0 x
  | child {depth : Nat} {x y : α} : Depth children roots depth x → y ∈ children x →
      Depth children roots (depth + 1) y

/-- No label stands in two places. -/
structure Placed (children : α → List α) (roots : List α) : Prop where
  roots_nodup : roots.Nodup
  children_nodup : ∀ x, (children x).Nodup
  root_or_child : ∀ x ∈ roots, ∀ y, x ∉ children y
  one_parent : ∀ x y z, x ∈ children y → x ∈ children z → y = z

section Plant

variable {g : α → Forest α} {roots : List α} {x : α}

theorem labels_plant_perm : (plant g roots).labels.Perm (roots ++ roots.flatMap (labels ∘ g)) := by
  induction roots with
  | nil => exact List.Perm.refl _
  | cons root others ih =>
      have behind : ((g root).labels ++ (plant g others).labels).Perm
          (others ++ ((g root).labels ++ others.flatMap (labels ∘ g))) := by
        refine (ih.append_left _).trans ?_
        rw [← List.append_assoc, ← List.append_assoc]
        exact List.perm_append_comm.append_right _
      exact behind.cons root

theorem mem_labels_plant :
    x ∈ (plant g roots).labels ↔ x ∈ roots ∨ ∃ root ∈ roots, x ∈ (g root).labels := by
  rw [labels_plant_perm.mem_iff, List.mem_append, List.mem_flatMap]
  rfl

theorem count_labels_plant [BEq α] :
    (plant g roots).labels.count x =
      roots.count x + (roots.map fun root => (g root).labels.count x).sum := by
  rw [labels_plant_perm.count_eq, List.count_append, List.count_flatMap]
  rfl

theorem mem_edges_plant {above : α} {edge : α × α} :
    edge ∈ (plant g roots).edges above ↔
      (∃ root ∈ roots, edge = (above, root)) ∨ ∃ root ∈ roots, edge ∈ (g root).edges root := by
  induction roots with
  | nil => simp [plant, edges]
  | cons root others ih =>
      simp only [plant, edges, List.mem_cons, List.mem_append, ih, exists_eq_or_imp]
      simp only [or_assoc, or_left_comm]

theorem plant_congr {g' : α → Forest α} (h : ∀ root ∈ roots, g root = g' root) :
    plant g roots = plant g' roots := by
  induction roots with
  | nil => rfl
  | cons root others ih =>
      rw [plant, plant, h root List.mem_cons_self, ih fun y hy => h y (List.mem_cons_of_mem _ hy)]

end Plant

variable {children : α → List α} {roots : List α} {x y : α} {height depth : Nat}

/-! ### What occurs -/

theorem depth_succ_iff :
    Depth children roots (depth + 1) y ↔
      ∃ root ∈ roots, Depth children (children root) depth y := by
  induction depth generalizing y with
  | zero =>
      constructor
      · rintro (- | ⟨(hroot | -), hy⟩)
        exact ⟨_, hroot, .root hy⟩
      · rintro ⟨root, hroot, (hy | -)⟩
        exact .child (.root hroot) hy
  | succ depth ih =>
      constructor
      · rintro (- | ⟨habove, hy⟩)
        obtain ⟨root, hroot, hx⟩ := ih.mp habove
        exact ⟨root, hroot, .child hx hy⟩
      · rintro ⟨root, hroot, (- | ⟨hx, hy⟩)⟩
        exact .child (ih.mpr ⟨root, hroot, hx⟩) hy

theorem depth_zero_iff : Depth children roots 0 x ↔ x ∈ roots := by
  constructor
  · rintro (h | -)
    exact h
  · exact .root

/-- The labels are those within the height. -/
theorem mem_labels_grow_iff :
    x ∈ (grow children height roots).labels ↔ ∃ depth ≤ height, Depth children roots depth x := by
  induction height generalizing roots with
  | zero =>
      rw [grow, mem_labels_plant]
      simp [labels, depth_zero_iff]
  | succ height ih =>
      rw [grow, mem_labels_plant]
      constructor
      · rintro (hroot | ⟨root, hroot, hx⟩)
        · exact ⟨0, Nat.zero_le _, .root hroot⟩
        · obtain ⟨depth, hle, hdepth⟩ := ih.mp hx
          exact ⟨depth + 1, Nat.succ_le_succ hle, depth_succ_iff.mpr ⟨root, hroot, hdepth⟩⟩
      · rintro ⟨depth, hle, hdepth⟩
        cases depth with
        | zero => exact .inl (depth_zero_iff.mp hdepth)
        | succ depth =>
            obtain ⟨root, hroot, hx⟩ := depth_succ_iff.mp hdepth
            exact .inr ⟨root, hroot, ih.mpr ⟨depth, Nat.le_of_succ_le_succ hle, hx⟩⟩

/-- A root hangs from what is above the forest. -/
theorem root_mem_edges {above : α} (h : x ∈ roots) :
    (above, x) ∈ (grow children height roots).edges above := by
  cases height with
  | zero => exact mem_edges_plant.mpr (.inl ⟨x, h, rfl⟩)
  | succ height => exact mem_edges_plant.mpr (.inl ⟨x, h, rfl⟩)

/-- What is below a label within the height hangs from it. -/
theorem child_mem_edges {above : α} (hdepth : Depth children roots depth x) (hlt : depth < height)
    (hy : y ∈ children x) : (x, y) ∈ (grow children height roots).edges above := by
  induction height generalizing roots depth above with
  | zero => exact absurd hlt (Nat.not_lt_zero _)
  | succ height ih =>
      rw [grow, mem_edges_plant]
      cases depth with
      | zero => exact .inr ⟨x, depth_zero_iff.mp hdepth, root_mem_edges hy⟩
      | succ depth =>
          obtain ⟨root, hroot, hx⟩ := depth_succ_iff.mp hdepth
          exact .inr ⟨root, hroot, ih hx (Nat.lt_of_succ_lt_succ hlt)⟩

/-! ### How often -/

theorem sum_indicator [BEq α] (levels : List α) :
    (levels.map fun root => if root == x then 1 else 0).sum = levels.count x := by
  induction levels with
  | nil => rfl
  | cons root others ih =>
      rw [List.map_cons, List.sum_cons, ih, List.count_cons, Nat.add_comm]

section Count

variable [BEq α] [LawfulBEq α]

/-- What is below nothing occurs as often as among the roots. -/
theorem count_grow_of_root (h : ∀ y, x ∉ children y) :
    (grow children height roots).labels.count x = roots.count x := by
  induction height generalizing roots with
  | zero => simp [grow, count_labels_plant, labels]
  | succ height ih =>
      have none : ∀ root, (grow children height (children root)).labels.count x = 0 :=
        fun root => by rw [ih, List.count_eq_zero.mpr (h root)]
      simp [grow, count_labels_plant, none]

/-- What is below one label only occurs once for each time that one does. -/
theorem count_grow_of_child (hplaced : Placed children roots) (hy : y ∈ children x)
    (levels : List α) :
    (grow children (height + 1) levels).labels.count y =
      levels.count y + (grow children height levels).labels.count x := by
  have here : ∀ root, (children root).count y = if root == x then 1 else 0 := by
    intro root
    split
    · next same =>
        obtain rfl := eq_of_beq same
        exact List.count_eq_one_of_mem (hplaced.children_nodup root) hy
    · next other =>
        refine List.count_eq_zero.mpr fun hmem => other ?_
        exact beq_iff_eq.mpr (hplaced.one_parent y root x hmem hy)
  induction height generalizing levels with
  | zero =>
      rw [grow, grow, count_labels_plant, count_labels_plant]
      have each : ∀ root,
          (grow children 0 (children root)).labels.count y = if root == x then 1 else 0 := by
        intro root
        rw [← here root]
        simp [grow, count_labels_plant, labels]
      simp only [each, labels, List.count_nil, List.map_const', List.sum_replicate, smul_zero,
        Nat.add_zero, Nat.add_left_cancel_iff]
      exact sum_indicator levels
  | succ height ih =>
      rw [grow, grow, count_labels_plant, count_labels_plant]
      simp only [ih, here]
      rw [List.sum_map_add, sum_indicator]

/-- Each label within the height occurs exactly once. -/
theorem count_labels_grow (hplaced : Placed children roots) (hdepth : Depth children roots depth x)
    (hle : depth ≤ height) : (grow children height roots).labels.count x = 1 := by
  induction hdepth generalizing height with
  | root hroot =>
      rw [count_grow_of_root (hplaced.root_or_child _ hroot)]
      exact List.count_eq_one_of_mem hplaced.roots_nodup hroot
  | @child depth x y _ hy ih =>
      obtain ⟨lower, rfl⟩ : ∃ lower, height = lower + 1 := ⟨height - 1, by omega⟩
      have noRoot : y ∉ roots := fun hroot => hplaced.root_or_child y hroot x hy
      rw [count_grow_of_child hplaced hy, List.count_eq_zero.mpr noRoot, Nat.zero_add]
      exact ih (Nat.le_of_succ_le_succ hle)

end Count

/-! ### How high -/

/-- A label has one depth. -/
theorem depth_unique (hplaced : Placed children roots) {depth' : Nat}
    (h : Depth children roots depth x) (h' : Depth children roots depth' x) : depth = depth' := by
  induction h generalizing depth' with
  | root hroot =>
      cases h' with
      | root => rfl
      | child _ hx => exact absurd hx (hplaced.root_or_child _ hroot _)
  | child _ hx ih =>
      cases h' with
      | root hroot => exact absurd hx (hplaced.root_or_child _ hroot _)
      | child habove hx' =>
          obtain rfl := hplaced.one_parent _ _ _ hx hx'
          exact congrArg Nat.succ (ih habove)

/-- The labels from one of these up to its root are all different. -/
theorem exists_path (hplaced : Placed children roots) (h : Depth children roots depth x) :
    ∃ path : List α, path.length = depth + 1 ∧ path.Nodup ∧
      ∀ y ∈ path, ∃ above ≤ depth, Depth children roots above y := by
  induction h with
  | @root x hroot =>
      refine ⟨[x], rfl, List.nodup_singleton x, fun y hy => ?_⟩
      obtain rfl := List.mem_singleton.mp hy
      exact ⟨0, Nat.le_refl _, .root hroot⟩
  | @child depth x y hx hy ih =>
      obtain ⟨path, hlength, hnodup, hpath⟩ := ih
      have here : Depth children roots (depth + 1) y := .child hx hy
      have fresh : y ∉ path := by
        intro hmem
        obtain ⟨above, hle, habove⟩ := hpath y hmem
        have := depth_unique hplaced here habove
        omega
      refine ⟨y :: path, by simp [hlength], List.nodup_cons.mpr ⟨fresh, hnodup⟩, ?_⟩
      rintro z (- | ⟨-, hz⟩)
      · exact ⟨depth + 1, Nat.le_refl _, here⟩
      · obtain ⟨above, hle, habove⟩ := hpath z hz
        exact ⟨above, Nat.le_succ_of_le hle, habove⟩

/-- Nothing is deeper than there are labels. -/
theorem depth_lt (hplaced : Placed children roots) {all : List α} (hroots : roots ⊆ all)
    (hchildren : ∀ x, children x ⊆ all) (h : Depth children roots depth x) :
    depth < all.length := by
  obtain ⟨path, hlength, hnodup, hpath⟩ := exists_path hplaced h
  have inside : path ⊆ all := by
    intro y hy
    obtain ⟨above, -, hdepth⟩ := hpath y hy
    cases hdepth with
    | root hroot => exact hroots hroot
    | child _ hmem => exact hchildren _ hmem
  have := hnodup.length_le_of_subset inside
  omega

/-- A forest that is high enough does not grow any further. -/
theorem grow_succ (h : ∀ x, ¬ Depth children roots (height + 1) x) :
    grow children (height + 1) roots = grow children height roots := by
  induction height generalizing roots with
  | zero =>
      refine plant_congr fun root hroot => ?_
      have none : children root = [] :=
        List.eq_nil_iff_forall_not_mem.mpr fun y hy => h y (.child (.root hroot) hy)
      simp [none, grow, plant]
  | succ height ih =>
      refine plant_congr fun root hroot => ih fun x hx => ?_
      exact h x (depth_succ_iff.mpr ⟨root, hroot, hx⟩)

/-- As many levels as there are labels are enough. -/
theorem grow_eq (hplaced : Placed children roots) {all : List α} (hroots : roots ⊆ all)
    (hchildren : ∀ x, children x ⊆ all) (hle : all.length ≤ height) :
    grow children height roots = grow children all.length roots := by
  induction hle with
  | refl => rfl
  | @step height hle ih =>
      rw [← ih]
      refine grow_succ fun x hx => ?_
      have deep := depth_lt hplaced hroots hchildren hx
      exact absurd (Nat.le_succ_of_le hle) (Nat.not_le.mpr deep)

end Forest

end Lazuli.General
