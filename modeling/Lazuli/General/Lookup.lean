import Mathlib.Data.List.Forall2
import Mathlib.Logic.Function.Basic

/-!
Lookups in lists.

A map that is filled from a list holds, under a key, the last entry with the key; a search takes
the first. Both are the same entry when there is only one.
-/

namespace Lazuli.General

variable {α β γ δ : Type*}

/-- What a map holds after all insertions. -/
def lastWhere (p : α → Bool) (l : List α) : Option α := l.reverse.find? p

theorem lastWhere_some {p : α → Bool} {l : List α} {a : α} (h : lastWhere p l = some a) :
    a ∈ l ∧ p a :=
  ⟨List.mem_reverse.mp (List.mem_of_find?_eq_some h), List.find?_some h⟩

theorem lastWhere_eq_some_iff {p : α → Bool} {l : List α} {a : α} :
    lastWhere p l = some a ↔ ∃ pre post, l = pre ++ a :: post ∧ p a ∧ ∀ b ∈ post, ¬ p b := by
  rw [lastWhere, List.find?_eq_some_iff_append]
  constructor
  · rintro ⟨ha, post, pre, hl, hpost⟩
    refine ⟨pre.reverse, post.reverse, ?_, ha, fun b hb => ?_⟩
    · have := congrArg List.reverse hl
      simpa using this
    · simpa using hpost b (List.mem_reverse.mp hb)
  · rintro ⟨pre, post, rfl, ha, hpost⟩
    refine ⟨ha, post.reverse, pre.reverse, by simp, fun b hb => ?_⟩
    simpa using hpost b (List.mem_reverse.mp hb)

theorem lastWhere_eq_getLast? (p : α → Bool) (l : List α) :
    lastWhere p l = (l.filter p).getLast? := by
  rw [lastWhere, ← List.head?_filter, List.filter_reverse, List.head?_reverse]

theorem lastWhere_map (p : β → Bool) (f : α → β) (l : List α) :
    lastWhere p (l.map f) = (lastWhere (p ∘ f) l).map f := by
  rw [lastWhere, ← List.map_reverse, List.find?_map]
  rfl

/-- A map after the insertion of a list of values under their keys. -/
def insertAll [DecidableEq α] (key : γ → α) (value : γ → β) (m : α → Option β) (l : List γ) :
    α → Option β :=
  l.foldl (fun m c => Function.update m (key c) (some (value c))) m

/-- It holds, under a key, the last value inserted there. -/
theorem insertAll_apply [DecidableEq α] (key : γ → α) (value : γ → β) (m : α → Option β)
    (l : List γ) (k : α) :
    insertAll key value m l k =
      ((lastWhere (fun c => key c = k) l).map value).or (m k) := by
  induction l generalizing m with
  | nil => rfl
  | cons c l ih =>
      have step : insertAll key value m (c :: l) k =
          insertAll key value (Function.update m (key c) (some (value c))) l k := rfl
      rw [step, ih, lastWhere, lastWhere, List.reverse_cons, List.find?_append]
      cases l.reverse.find? fun c => key c = k with
      | some later => rfl
      | none =>
          by_cases here : key c = k
          · simp [here]
          · simp [here, Function.update_of_ne (Ne.symm here)]

/-- Of a reversed list the last entry of a key is looked up. -/
theorem lookup_reverse_eq_some_iff [BEq α] [LawfulBEq α] {l : List (α × β)} {k : α} {b : β} :
    l.reverse.lookup k = some b ↔
      ∃ pre post, l = pre ++ (k, b) :: post ∧ ∀ later ∈ post, later.1 ≠ k := by
  rw [List.lookup_eq_some_iff]
  constructor
  · rintro ⟨post, pre, hl, hpost⟩
    refine ⟨pre.reverse, post.reverse, ?_, fun later hlater => ?_⟩
    · have := congrArg List.reverse hl
      simpa using this
    · exact (bne_iff_ne.mp (hpost later (List.mem_reverse.mp hlater))).symm
  · rintro ⟨pre, post, rfl, hpost⟩
    refine ⟨post.reverse, pre.reverse, by simp, fun later hlater => ?_⟩
    exact bne_iff_ne.mpr (hpost later (List.mem_reverse.mp hlater)).symm

theorem lookup_flatMap [BEq α] (l : List γ) (f : γ → List (α × β)) (k : α) :
    (l.flatMap f).lookup k = l.findSome? fun c => (f c).lookup k := by
  induction l with
  | nil => rfl
  | cons c l ih =>
      rw [List.flatMap_cons, List.lookup_append, List.findSome?_cons, ih]
      cases (f c).lookup k <;> rfl

theorem mem_map_fst_iff [BEq α] [LawfulBEq α] {l : List (α × β)} {k : α} :
    k ∈ l.map Prod.fst ↔ ∃ b, l.lookup k = some b := by
  rw [← Option.isSome_iff_exists, List.lookup_isSome_iff, List.mem_map]
  refine exists_congr fun entry => and_congr_right fun _ => ?_
  rw [beq_iff_eq, eq_comm]

theorem find?_of_unique {p : α → Bool} {l : List α} {a : α} (mem : a ∈ l) (here : p a)
    (unique : ∀ b ∈ l, p b → b = a) : l.find? p = some a := by
  cases hfound : l.find? p with
  | none => exact absurd here (List.find?_eq_none.mp hfound a mem)
  | some b => rw [unique b (List.mem_of_find?_eq_some hfound) (List.find?_some hfound)]

theorem lastWhere_of_unique {p : α → Bool} {l : List α} {a : α} (mem : a ∈ l) (here : p a)
    (unique : ∀ b ∈ l, p b → b = a) : lastWhere p l = some a :=
  find?_of_unique (List.mem_reverse.mpr mem) here fun b hb => unique b (List.mem_reverse.mp hb)

/-- What is found for all of a list is found one for one. -/
theorem forall₂_filterMap {f : α → Option β} {l : List α} (h : ∀ a ∈ l, (f a).isSome) :
    l.Forall₂ (fun a b => f a = some b) (l.filterMap f) := by
  induction l with
  | nil => exact .nil
  | cons a l ih =>
      obtain ⟨b, hb⟩ := Option.isSome_iff_exists.mp (h a (.head _))
      rw [List.filterMap_cons_some hb]
      exact .cons hb (ih fun a' ha' => h a' (.tail _ ha'))

theorem map_eq_of_forall₂ {R : α → β → Prop} {f : α → γ} {g : β → γ} {l : List α} {m : List β}
    (h : l.Forall₂ R m) (same : ∀ a b, R a b → f a = g b) : l.map f = m.map g := by
  induction h with
  | nil => rfl
  | cons here _ ih => rw [List.map_cons, List.map_cons, same _ _ here, ih]

/-- A map that may fail, and does not. -/
theorem mapM_eq_some_iff {f : α → Option β} {l : List α} {bs : List β} :
    l.mapM f = some bs ↔ (∀ a ∈ l, (f a).isSome) ∧ l.filterMap f = bs := by
  induction l generalizing bs with
  | nil => simp
  | cons a l ih =>
      rw [List.mapM_cons, List.forall_mem_cons]
      cases hb : f a with
      | none => simp
      | some b =>
          rw [List.filterMap_cons_some hb]
          simp only [Option.bind_eq_bind, Option.bind_some, Option.bind_eq_some_iff, ih]
          constructor
          · rintro ⟨bs', ⟨hl, rfl⟩, hbs⟩
            exact ⟨⟨rfl, hl⟩, Option.some.inj hbs⟩
          · rintro ⟨⟨-, hl⟩, rfl⟩
            exact ⟨_, ⟨hl, rfl⟩, rfl⟩

/-- A selection from a list gives what another one gives on all of it exactly when it finds
something equal everywhere. -/
theorem map_filterMap_eq_iff {f : α → Option β} {r : α → Option δ} {g : β → γ} {k : δ → γ}
    {l : List α} {ds : List δ} (h : l.Forall₂ (fun a d => r a = some d) ds) :
    (l.filterMap f).map g = ds.map k ↔
      ∀ a ∈ l, ∀ d, r a = some d → ∃ b, f a = some b ∧ g b = k d := by
  induction h with
  | nil => simp
  | @cons a d l ds here rest ih =>
      have only : (∀ d', r a = some d' → ∃ b, f a = some b ∧ g b = k d') ↔
          ∃ b, f a = some b ∧ g b = k d := by
        simp [here]
      rw [List.forall_mem_cons, only, ← ih]
      cases ha : f a with
      | none =>
          rw [List.filterMap_cons_none ha]
          constructor
          · intro same
            have short := List.length_filterMap_le f l
            have long := congrArg List.length same
            have equal := rest.length_eq
            simp only [List.length_map, List.length_cons] at long
            omega
          · rintro ⟨⟨b, none, -⟩, -⟩
            cases none
      | some b =>
          rw [List.filterMap_cons_some ha]
          simp

end Lazuli.General
