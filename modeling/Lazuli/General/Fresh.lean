import Mathlib

/-!
Entries that are taken from a list one after the other, each under a key that is not in use.

`fresh` is the list of the entries taken, `takeFresh` one step of the loop that collects them.
-/

namespace Lazuli.General

variable {α κ : Type*} [DecidableEq κ]

/-- The entries whose keys are neither in use nor those of entries before them. -/
def fresh (key : α → κ) (used : Finset κ) : List α → List α
  | [] => []
  | a :: l =>
      if key a ∈ used then fresh key used l else a :: fresh key (insert (key a) used) l

/-- The keys in use and the entries taken, after one more entry. -/
def takeFresh (key : α → κ) (state : Finset κ × List α) (a : α) : Finset κ × List α :=
  if key a ∈ state.1 then state else (insert (key a) state.1, state.2 ++ [a])

variable {key : α → κ} {used : Finset κ} {a : α} {l : List α}

theorem fresh_cons : fresh key used (a :: l) =
    if key a ∈ used then fresh key used l else a :: fresh key (insert (key a) used) l := rfl

variable (key used l) in
theorem foldl_takeFresh (taken : List α) :
    (l.foldl (takeFresh key) (used, taken)).2 = taken ++ fresh key used l := by
  induction l generalizing used taken with
  | nil => exact (List.append_nil taken).symm
  | cons a l ih =>
      rw [List.foldl_cons, takeFresh, fresh_cons]
      by_cases h : key a ∈ used
      · rw [if_pos h, if_pos h, ih]
      · rw [if_neg h, if_neg h, ih, List.append_assoc, List.singleton_append]

theorem fresh_eq_nil (h : ∀ a ∈ l, key a ∈ used) : fresh key used l = [] := by
  induction l with
  | nil => rfl
  | cons a l ih =>
      rw [fresh_cons, if_pos (h a List.mem_cons_self)]
      exact ih fun b hb => h b (List.mem_cons_of_mem a hb)

theorem mem_of_mem_fresh (h : a ∈ fresh key used l) : a ∈ l := by
  induction l generalizing used with
  | nil => exact h
  | cons b l ih =>
      rw [fresh_cons] at h
      split at h
      · exact List.mem_cons_of_mem b (ih h)
      · rcases List.mem_cons.mp h with rfl | h
        · exact List.mem_cons_self
        · exact List.mem_cons_of_mem b (ih h)

theorem key_notMem_of_mem_fresh (h : a ∈ fresh key used l) : key a ∉ used := by
  induction l generalizing used with
  | nil => exact absurd h List.not_mem_nil
  | cons b l ih =>
      rw [fresh_cons] at h
      split at h
      · exact ih h
      · rename_i new
        rcases List.mem_cons.mp h with rfl | h
        · exact new
        · exact fun hu => ih h (Finset.mem_insert_of_mem hu)

variable (key used) in
/-- Afterwards the key of every entry is in use. -/
theorem key_mem_or_mem_fresh (h : a ∈ l) : key a ∈ used ∨ key a ∈ (fresh key used l).map key := by
  induction l generalizing used with
  | nil => exact absurd h List.not_mem_nil
  | cons b l ih =>
      rw [fresh_cons]
      by_cases hb : key b ∈ used
      · rw [if_pos hb]
        rcases List.mem_cons.mp h with rfl | h
        · exact Or.inl hb
        · exact ih used h
      · rw [if_neg hb, List.map_cons, List.mem_cons]
        rcases List.mem_cons.mp h with rfl | h
        · exact Or.inr (Or.inl rfl)
        · rcases ih (insert (key b) used) h with hu | hl
          · rcases Finset.mem_insert.mp hu with he | hu
            · exact Or.inr (Or.inl he)
            · exact Or.inl hu
          · exact Or.inr (Or.inr hl)

/-- Of the entries of one key the first is taken, and no other. -/
theorem filter_fresh {pre post : List α} (new : key a ∉ used)
    (first : ∀ b ∈ pre, key b ≠ key a) :
    (fresh key used (pre ++ a :: post)).filter (key · = key a) = [a] := by
  induction pre generalizing used with
  | nil =>
      have rest : (fresh key (insert (key a) used) post).filter (key · = key a) = [] := by
        rw [List.filter_eq_nil_iff]
        intro b hb same
        exact key_notMem_of_mem_fresh hb
          (Finset.mem_insert.mpr (Or.inl (of_decide_eq_true same)))
      rw [List.nil_append, fresh_cons, if_neg new, List.filter_cons, if_pos (decide_eq_true rfl), rest]
  | cons b pre ih =>
      have other : key b ≠ key a := first b List.mem_cons_self
      have first' : ∀ c ∈ pre, key c ≠ key a := fun c hc => first c (List.mem_cons_of_mem b hc)
      rw [List.cons_append, fresh_cons]
      split
      · exact ih new first'
      · rw [List.filter_cons, if_neg (by simpa using other)]
        refine ih (fun h => ?_) first'
        rcases Finset.mem_insert.mp h with h | h
        · exact other h.symm
        · exact new h

end Lazuli.General

/-!
The first entry of a kind, the greatest first.

A list sorted by a key, from the greatest on and otherwise as it was, is searched for an entry of a
kind. The one that is found has the greatest key among those of its kind, and stands before the
others that have that key (`find?_insertionSort`).
-/

namespace Lazuli.General

variable {α β : Type*} [LinearOrder β] {key : α → β} {p : α → Bool} {l s : List α} {a x : α}

/-- No other entry of the kind has a greater key, and none before this one an equal key. -/
def Leads (key : α → β) (p : α → Bool) (l : List α) (x : α) : Prop :=
  ∃ pre post, l = pre ++ x :: post ∧ p x = true ∧ (∀ y ∈ pre, p y = true → key y < key x) ∧
    ∀ y ∈ post, p y = true → key y ≤ key x

theorem Leads.mem (h : Leads key p l x) : x ∈ l := by
  obtain ⟨pre, post, rfl, -⟩ := h
  exact List.mem_append_right _ List.mem_cons_self

theorem not_leads_nil : ¬ Leads key p [] x := fun h => List.not_mem_nil h.mem

theorem leads_cons : Leads key p (a :: l) x ↔
    (a = x ∧ p a = true ∧ ∀ y ∈ l, p y = true → key y ≤ key a) ∨
      Leads key p l x ∧ (p a = true → key a < key x) := by
  constructor
  · rintro ⟨pre, post, hl, hx, hpre, hpost⟩
    cases pre with
    | nil =>
        obtain ⟨rfl, rfl⟩ := List.cons.inj hl
        exact .inl ⟨rfl, hx, hpost⟩
    | cons b pre =>
        obtain ⟨rfl, rfl⟩ := List.cons.inj hl
        obtain ⟨hfirst, hpre⟩ := List.forall_mem_cons.mp hpre
        exact .inr ⟨⟨pre, post, rfl, hx, hpre, hpost⟩, hfirst⟩
  · rintro (⟨rfl, ha, hrest⟩ | ⟨⟨pre, post, rfl, hx, hpre, hpost⟩, hfirst⟩)
    · exact ⟨[], l, rfl, ha, fun y hy => absurd hy List.not_mem_nil, hrest⟩
    · exact ⟨a :: pre, post, rfl, hx, List.forall_mem_cons.mpr ⟨hfirst, hpre⟩, hpost⟩

/-- An entry goes before those of its key. -/
theorem find?_orderedInsert (hs : s.Pairwise fun a b => key b ≤ key a) :
    (s.orderedInsert (fun a b => key b ≤ key a) a).find? p = some x ↔
      (a = x ∧ p a = true ∧ ∀ y ∈ s, p y = true → key y ≤ key a) ∨
        s.find? p = some x ∧ (p a = true → key a < key x) := by
  induction s with
  | nil => cases hp : p a <;> simp [hp]
  | cons b s ih =>
      obtain ⟨hb, hs⟩ := List.pairwise_cons.mp hs
      by_cases hle : key b ≤ key a
      · rw [List.orderedInsert_cons, if_pos hle, List.find?_cons]
        have hall : ∀ y ∈ b :: s, key y ≤ key a :=
          List.forall_mem_cons.mpr ⟨hle, fun y hy => (hb y hy).trans hle⟩
        cases hp : p a with
        | false => simp
        | true =>
            have hnot : ¬ ((b :: s).find? p = some x ∧ key a < key x) := fun ⟨hx, hlt⟩ =>
              not_lt.mpr (hall x (List.mem_of_find?_eq_some hx)) hlt
            simp only [Option.some.injEq, true_and, forall_const, or_iff_left hnot]
            exact ⟨fun h => ⟨h, fun y hy _ => hall y hy⟩, fun h => h.1⟩
      · rw [List.orderedInsert_cons, if_neg hle, List.find?_cons, List.find?_cons]
        cases hp : p b with
        | false =>
            refine (ih hs).trans (or_congr_left (and_congr_right fun _ => and_congr_right fun _ => ?_))
            simp [hp]
        | true =>
            have hlt := not_le.mp hle
            constructor
            · intro hbx
              obtain rfl := Option.some_inj.mp hbx
              exact .inr ⟨rfl, fun _ => hlt⟩
            · rintro (⟨-, -, hall⟩ | ⟨hbx, -⟩)
              · exact absurd (hall b List.mem_cons_self hp) hle
              · exact hbx

/-- **In a list sorted from the greatest key on, the first of a kind leads it.** -/
theorem find?_insertionSort :
    (l.insertionSort fun a b => key b ≤ key a).find? p = some x ↔ Leads key p l x := by
  induction l with
  | nil => exact iff_of_false (by simp) not_leads_nil
  | cons a l ih =>
      have hsorted := List.pairwise_insertionSort (fun a b => key b ≤ key a) l
      have hmem (y : α) : y ∈ l.insertionSort (fun a b => key b ≤ key a) ↔ y ∈ l :=
        (List.perm_insertionSort _ l).mem_iff
      rw [List.insertionSort_cons, find?_orderedInsert hsorted, ih, leads_cons]
      simp only [hmem]

end Lazuli.General
