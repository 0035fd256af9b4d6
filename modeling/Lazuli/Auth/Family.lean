import Mathlib.Logic.Relation
import Lazuli.Auth.Refresh

/-!
Session families.

A family is a connected component of the tree of parent links, whatever its shape:
`SameFamily` is the equivalence that `childOf` generates. The recursive `family`
query computes it (`mem_family_iff`). An update of the stamps does not change it
(`sameFamily_update`), and a new row joins the family of its parent and no other
(`sameFamily_insert`).
-/

namespace Lazuli.Auth

open Lazuli.General

namespace SessionTable

variable {t : SessionTable} {a b : Int} {r s : SessionRow}

/-- Some row `a` of the table has the parent `b`. -/
def childOf (t : SessionTable) (a b : Int) : Prop :=
  ∃ r ∈ t.rows, r.id = a ∧ r.parentSessionID = some b

/-- The rows `a` and `b` are connected by parent links. -/
def SameFamily (t : SessionTable) : Int → Int → Prop := Relation.EqvGen t.childOf

theorem SameFamily.refl (t : SessionTable) (a : Int) : t.SameFamily a a := Relation.EqvGen.refl a

theorem SameFamily.symm (h : t.SameFamily a b) : t.SameFamily b a := Relation.EqvGen.symm a b h

theorem SameFamily.trans {c : Int} (h : t.SameFamily a b) (h' : t.SameFamily b c) :
    t.SameFamily a c :=
  Relation.EqvGen.trans a b c h h'

theorem hasID_of_mem (mem : r ∈ t.rows) : t.hasID r.id := ⟨r, mem, rfl⟩

theorem hasID.lt (h : t.hasID a) : a < t.nextID := by
  obtain ⟨r, mem, rfl⟩ := h
  exact t.ids_lt r mem

/-- Both ends of a parent link are rows of the table. -/
theorem childOf.hasID (h : t.childOf a b) : t.hasID a ∧ t.hasID b := by
  obtain ⟨r, mem, rfl, parent⟩ := h
  exact ⟨hasID_of_mem mem, t.parents r mem b parent⟩

/-- An id without a row is related to itself only. -/
theorem SameFamily.hasID (h : t.SameFamily a b) : a = b ∨ t.hasID a ∧ t.hasID b := by
  induction h with
  | rel a b link => exact .inr link.hasID
  | refl a => exact .inl rfl
  | symm a b _ ih =>
      rcases ih with same | both
      · exact .inl same.symm
      · exact .inr both.symm
  | trans a b c _ _ first second =>
      rcases first with rfl | first
      · exact second
      · rcases second with rfl | second
        · exact .inr first
        · exact .inr ⟨first.1, second.2⟩

/-! ### The recursive query -/

theorem sameFamily_of_kin (hr : r ∈ t.rows) (hs : s ∈ t.rows) (near : kin r s) :
    t.SameFamily r.id s.id := by
  rcases of_decide_eq_true near with up | down
  · exact .rel _ _ ⟨r, hr, rfl, up⟩
  · exact SameFamily.symm (.rel _ _ ⟨s, hs, rfl, down⟩)

theorem sameFamily_of_linked (hr : r ∈ t.rows) (path : Linked t.rows.toFinset kin r s) :
    s ∈ t.rows ∧ t.SameFamily r.id s.id := by
  induction path with
  | refl => exact ⟨hr, .refl t _⟩
  | tail _ edge ih =>
      have hs := List.mem_toFinset.mp edge.1
      exact ⟨hs, ih.2.trans (sameFamily_of_kin ih.1 hs edge.2)⟩

/-- Related rows are linked by the query's joins, in both directions. -/
theorem linked_of_sameFamily (h : t.SameFamily a b) :
    (∀ r ∈ t.rows, r.id = a → ∃ s ∈ t.rows, s.id = b ∧ Linked t.rows.toFinset kin r s) ∧
      (∀ s ∈ t.rows, s.id = b → ∃ r ∈ t.rows, r.id = a ∧ Linked t.rows.toFinset kin s r) := by
  induction h with
  | rel a b link =>
      obtain ⟨child, hchild, rfl, parent⟩ := link
      constructor
      · intro r hr same
        obtain rfl := eq_of_id hr hchild same
        obtain ⟨s, hs, rfl⟩ := t.parents r hr b parent
        have near : kin r s := decide_eq_true (.inl parent)
        exact ⟨s, hs, rfl, .single ⟨List.mem_toFinset.mpr hs, near⟩⟩
      · rintro s hs rfl
        have near : kin s child := decide_eq_true (.inr parent)
        exact ⟨child, hchild, rfl, .single ⟨List.mem_toFinset.mpr hchild, near⟩⟩
  | refl a => exact ⟨fun r hr same => ⟨r, hr, same, .refl⟩, fun r hr same => ⟨r, hr, same, .refl⟩⟩
  | symm a b _ ih => exact ih.symm
  | trans a b c _ _ first second =>
      constructor
      · intro r hr same
        obtain ⟨s, hs, here, path⟩ := first.1 r hr same
        obtain ⟨q, hq, there, path'⟩ := second.1 s hs here
        exact ⟨q, hq, there, path.trans path'⟩
      · intro q hq same
        obtain ⟨s, hs, here, path⟩ := second.2 q hq same
        obtain ⟨r, hr, there, path'⟩ := first.2 s hs here
        exact ⟨r, hr, there, path.trans path'⟩

/-- The query returns the family of the row it starts from. -/
theorem mem_family_iff : s ∈ t.family a ↔ s ∈ t.rows ∧ t.hasID a ∧ t.SameFamily a s.id := by
  rw [family, mem_component_iff]
  constructor
  · rintro ⟨r, hr, start, path⟩
    obtain rfl : r.id = a := of_decide_eq_true start
    have hr := List.mem_toFinset.mp hr
    obtain ⟨hs, same⟩ := sameFamily_of_linked hr path
    exact ⟨hs, hasID_of_mem hr, same⟩
  · rintro ⟨hs, ⟨r, hr, rfl⟩, same⟩
    obtain ⟨q, hq, id, path⟩ := (linked_of_sameFamily same).1 r hr rfl
    obtain rfl := eq_of_id hq hs id
    exact ⟨r, List.mem_toFinset.mpr hr, decide_eq_true rfl, path⟩

/-! ### How statements change families -/

section Update

variable {set : SessionRow → SessionRow} {key : ∀ r, (set r).id = r.id}
  {parent : ∀ r, (set r).parentSessionID = r.parentSessionID}

@[simp] theorem childOf_update : (t.update set key parent).childOf = t.childOf := by
  funext a b
  refine propext ⟨?_, ?_⟩
  · rintro ⟨r, mem, id, link⟩
    obtain ⟨q, hq, rfl⟩ := List.mem_map.mp mem
    exact ⟨q, hq, by rw [← id, key], by rw [← link, parent]⟩
  · rintro ⟨r, mem, id, link⟩
    exact ⟨set r, List.mem_map_of_mem mem, by rw [key, id], by rw [parent, link]⟩

@[simp] theorem sameFamily_update : (t.update set key parent).SameFamily = t.SameFamily := by
  unfold SameFamily
  rw [childOf_update]

@[simp] theorem hasID_update : (t.update set key parent).hasID a ↔ t.hasID a := by
  constructor
  · rintro ⟨r, mem, rfl⟩
    obtain ⟨q, hq, rfl⟩ := List.mem_map.mp mem
    exact ⟨q, hq, (key q).symm⟩
  · rintro ⟨r, mem, rfl⟩
    exact ⟨set r, List.mem_map_of_mem mem, key r⟩

end Update

section Insert

variable {draft : SessionRow} {parent : ∀ p ∈ draft.parentSessionID, t.hasID p}

theorem mem_insert_rows :
    r ∈ (t.insert draft parent).rows ↔ r ∈ t.rows ∨ r = { draft with id := t.nextID } := by
  simp only [insert, List.mem_append, List.mem_singleton]

theorem childOf_insert (link : (t.insert draft parent).childOf a b) :
    t.childOf a b ∨ a = t.nextID ∧ draft.parentSessionID = some b := by
  obtain ⟨r, mem, rfl, up⟩ := link
  rcases mem_insert_rows.mp mem with old | rfl
  · exact .inl ⟨r, old, rfl, up⟩
  · exact .inr ⟨rfl, up⟩

/-- Where the new row is, or the family that it joins. -/
def Joins (t : SessionTable) (draft : SessionRow) (a : Int) : Prop :=
  a = t.nextID ∨ ∃ p ∈ draft.parentSessionID, t.SameFamily a p

theorem Joins.of_sameFamily (h : t.SameFamily a b) (joins : t.Joins draft b) :
    t.Joins draft a := by
  rcases joins with rfl | ⟨p, hp, same⟩
  · rcases h.hasID with rfl | ⟨-, absent⟩
    · exact .inl rfl
    · exact absurd absent.lt (lt_irrefl _)
  · exact .inr ⟨p, hp, h.trans same⟩

/-- Relations that an insert adds are within the family that the new row joins. -/
theorem sameFamily_insert (h : (t.insert draft parent).SameFamily a b) :
    t.SameFamily a b ∨ t.Joins draft a ∧ t.Joins draft b := by
  induction h with
  | rel a b link =>
      rcases childOf_insert link with old | ⟨rfl, up⟩
      · exact .inl (.rel a b old)
      · exact .inr ⟨.inl rfl, .inr ⟨b, up, .refl t b⟩⟩
  | refl a => exact .inl (.refl t a)
  | symm a b _ ih =>
      rcases ih with old | both
      · exact .inl old.symm
      · exact .inr both.symm
  | trans a b c _ _ first second =>
      rcases first with first | first
      · rcases second with second | second
        · exact .inl (first.trans second)
        · exact .inr ⟨.of_sameFamily first second.1, second.2⟩
      · rcases second with second | second
        · exact .inr ⟨first.1, .of_sameFamily second.symm first.2⟩
        · exact .inr ⟨first.1, second.2⟩

/-- The family of a row that the new row does not join stays as it is. -/
theorem sameFamily_of_insert (present : t.hasID a)
    (apart : ∀ p ∈ draft.parentSessionID, ¬ t.SameFamily a p)
    (h : (t.insert draft parent).SameFamily a b) : t.SameFamily a b := by
  rcases sameFamily_insert h with old | ⟨rfl | ⟨p, hp, same⟩, -⟩
  · exact old
  · exact absurd present.lt (lt_irrefl _)
  · exact absurd same (apart p hp)

end Insert

end SessionTable

end Lazuli.Auth
