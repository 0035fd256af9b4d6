import Lazuli.Referential.Order

/-!
What a change does to the tables, and an operation to the store.

A change leaves the rows that it has not taken as they are; if it removes one of those that it
has taken, none of them is live afterwards. An operation of a call leaves the changes of other
calls alone.
-/

namespace Lazuli.Referential

open Lazuli.Codegen Lazuli.General Lazuli.Ir Lazuli.Runtime

/-! ### Changes -/

/-- Of what was in the place there is nothing left, or only a row with a time of deletion. -/
def Gone (left : List Entry) (x : Entry) : Prop :=
  ∀ y ∈ left, y.place = x.place → x.row "deleted_at" = .nil ∧ y.row "deleted_at" ≠ .nil

section Changes

variable {engine : Engine} {c : Change} {tables : Tables} {name : String} {x y : Entry}

theorem rows_apply_of_ne (h : name ≠ c.table) :
    (c.apply engine tables).rows name = tables.rows name := by
  simp [Tables.rows, Change.apply, h]

theorem mem_rows_apply :
    y ∈ (c.apply engine tables).rows c.table ↔
      ∃ x ∈ tables.rows c.table, c.after engine x = some y := by
  unfold Tables.rows Change.apply
  rw [if_pos rfl]
  cases tables c.table with
  | none => simp
  | some table => simp

variable (engine) in
theorem after_of_notMem (h : x.place ∉ c.places) : c.after engine x = some x := if_neg h

theorem after_of_mem (h : x.place ∈ c.places) (outcomes : c.after engine x = some y) :
    y.place = x.place ∧ outcome engine c.plan x.row = some y.row := by
  unfold Change.after at outcomes
  rw [if_pos h] at outcomes
  obtain ⟨row, left, rfl⟩ := Option.map_eq_some_iff.mp outcomes
  exact ⟨rfl, left⟩

/-- A row is as it was, or what became of one that was taken. -/
theorem of_mem_rows_apply (h : y ∈ (c.apply engine tables).rows name) :
    (y ∈ tables.rows name ∧ ¬ c.Takes name y) ∨ c.Takes name y ∧
      ∃ x ∈ tables.rows name, c.Takes name x ∧ outcome engine c.plan x.row = some y.row := by
  by_cases same : name = c.table
  · subst same
    obtain ⟨x, hx, after⟩ := mem_rows_apply.mp h
    by_cases taken : x.place ∈ c.places
    · obtain ⟨place, left⟩ := after_of_mem taken after
      exact .inr ⟨⟨rfl, place ▸ taken⟩, x, hx, ⟨rfl, taken⟩, left⟩
    · rw [after_of_notMem engine taken] at after
      cases after
      exact .inl ⟨hx, fun takes => taken takes.2⟩
  · rw [rows_apply_of_ne same] at h
    exact .inl ⟨h, fun takes => same takes.1⟩

theorem not_gone_of_mem {left : List Entry} (h : x ∈ left) : ¬ Gone left x := by
  intro gone
  obtain ⟨live, dead⟩ := gone x h rfl
  exact dead live

/-- What is gone was removed by the change. -/
theorem removes_of_gone (h : x ∈ tables.rows name)
    (gone : Gone ((c.apply engine tables).rows name) x) : name = c.table ∧ c.Removes engine x := by
  by_cases same : name = c.table
  · subst same
    by_cases taken : x.place ∈ c.places
    · refine ⟨rfl, taken, ?_⟩
      intro row left
      have there : (⟨x.place, row⟩ : Entry) ∈ (c.apply engine tables).rows c.table := by
        apply mem_rows_apply.mpr
        refine ⟨x, h, ?_⟩
        unfold Change.after
        rw [if_pos taken, left]
        rfl
      exact gone _ there rfl
    · have kept := mem_rows_apply.mpr ⟨x, h, after_of_notMem engine taken⟩
      exact absurd gone (not_gone_of_mem kept)
  · rw [rows_apply_of_ne same] at gone
    exact absurd gone (not_gone_of_mem h)

/-- Assignments leave a column alone or give it one value in all rows. -/
theorem applyAll_uniform (engine : Engine) (values : List Value) (col : String)
    (sets : List Assign) :
    (∀ row, sets.foldl (Assign.apply engine values) row col = row col) ∨
      ∃ v, ∀ row, sets.foldl (Assign.apply engine values) row col = v := by
  induction sets with
  | nil => exact .inl fun _ => rfl
  | cons a sets ih =>
      rcases ih with kept | ⟨v, set'⟩
      · by_cases here : a.col.text = col
        · refine .inr ⟨a.value engine values, ?_⟩
          intro row
          rw [List.foldl_cons, kept, Assign.apply, here, Function.update_self]
        · refine .inl ?_
          intro row
          rw [List.foldl_cons, kept]
          exact apply_of_ne here
      · exact .inr ⟨v, fun row => set' _⟩

/-- A statement that removes one row leaves none live of those that it has taken. -/
theorem Change.Removes.dead (h : c.Removes engine x) {row row' : Row}
    (left : outcome engine c.plan row = some row') : row' "deleted_at" ≠ .nil := by
  obtain ⟨-, removes⟩ := h
  unfold outcome at left removes
  cases stmt : c.plan.stmt with
  | delete table conds =>
      rw [stmt] at left
      cases left
  | select | renumber =>
      rw [stmt] at removes
      obtain ⟨live, dead⟩ := removes x.row rfl
      exact absurd live dead
  | update table sets conds returning =>
      rw [stmt] at left removes
      obtain ⟨live, dead⟩ := removes _ rfl
      obtain rfl := Option.some.inj left
      rcases applyAll_uniform engine c.plan.values "deleted_at" sets with kept | ⟨v, set'⟩
      · rw [kept] at dead
        exact absurd live dead
      · rw [set'] at dead ⊢
        exact dead

end Changes

/-! ### What operations do -/

section Operations

variable {pg : Postgres} {st : Store} {call : Nat}

theorem change_close (st : Store) (call j : Nat) :
    (st.close call).change j = if j = call then none else st.change j := by
  unfold Store.close Store.change
  dsimp only
  rw [List.find?_filter]
  split
  next same =>
    subst same
    simp
  next other =>
    congr 1
    congr 1
    funext t
    by_cases here : t.call = j
    · simp [here, other]
    · simp [here]

theorem change_begin (st : Store) (call : Nat) (c : Change) (j : Nat) :
    (st.begin call c).change j = if j = call then some c else st.change j := by
  have close := change_close st call j
  unfold Store.begin
  unfold Store.change at close ⊢
  dsimp only
  rw [List.find?_cons]
  by_cases same : j = call
  · subst same
    simp
  · rw [if_neg same] at close ⊢
    simpa [Ne.symm same] using close

theorem not_mem_of_not_locked {holder : Option Nat} {table : String} {place j : Nat} {c : Change}
    (free : st.locked holder table place = false) (other : some j ≠ holder)
    (h : st.change j = some c) (same : c.table = table) : place ∉ c.places := by
  obtain ⟨t, found, rfl⟩ := Option.map_eq_some_iff.mp h
  intro here
  have mem := List.mem_of_find?_eq_some found
  have mine : t.call = j := by simpa using List.find?_some found
  have no := List.any_eq_false.mp free t mem
  simp [mine, other, same, here] at no

theorem query_ok {guard : RestrictOnDelete} {tenantID : Int} {id : Slot}
    (h : st.query pg guard tenantID id = .ok ()) :
    ∀ y ∈ st.tables.rows guard.relation, finds pg guard tenantID (bound id) y.row = false := by
  unfold Store.query at h
  unfold Tables.rows
  split at h
  · cases h
  next table _ =>
    split at h
    · cases h
    · split at h
      · cases h
      next none' =>
        intro y hy
        simpa using List.any_eq_false.mp (eq_false_of_ne_true none') y hy

theorem send_cases (pg : Postgres) (st : Store) (call : Nat) (plan : Plan) :
    (st.send pg call plan).1 = st ∨
      (st.send pg call plan).1 = st.begin call (st.taking pg plan) ∧
        ∀ place ∈ (st.taking pg plan).places,
          st.locked (some call) (st.taking pg plan).table place = false := by
  unfold Store.send
  split
  · exact .inl rfl
  · dsimp only
    split
    · exact .inl rfl
    · split
      · exact .inl rfl
      next free =>
        refine .inr ⟨rfl, ?_⟩
        intro place hplace
        simpa using List.any_eq_false.mp (eq_false_of_ne_true free) place hplace

theorem commit_some {c : Change} (h : st.change call = some c) :
    (st.commit pg call).tables = c.apply pg.engine st.tables ∧
      ∀ j, (st.commit pg call).change j = if j = call then none else st.change j := by
  unfold Store.commit
  rw [h]
  exact ⟨rfl, change_close st call⟩

theorem commit_none (h : st.change call = none) : st.commit pg call = st := by
  unfold Store.commit
  rw [h]

variable (pg st) in
/-- An operation of one call keeps the changes of the others, and the tables unless it commits. -/
theorem exec_frame {i : Nat} {tenantID : Int} {todo : Todo} {op : Op} (choice : Option TxError)
    (allows : (callDiscipline i tenantID).Allows todo op) :
    (∀ j, j ≠ i → (Store.exec pg op choice st).1.change j = st.change j) ∧
      ((Store.exec pg op choice st).1.tables = st.tables ∨
        ∃ c, op = .commit i ∧ choice = none ∧ st.change i = some c) := by
  cases op with
  | ask op | probe guard tenant id | sleep | started call | finished call =>
      cases choice <;> exact ⟨fun _ _ => rfl, .inl rfl⟩
  | send call plan =>
      obtain ⟨rfl, -⟩ := allows
      cases choice with
      | some e => exact ⟨fun _ _ => rfl, .inl rfl⟩
      | none =>
          show (∀ j, j ≠ call → (st.send pg call plan).1.change j = st.change j) ∧
            ((st.send pg call plan).1.tables = st.tables ∨ _)
          rcases send_cases pg st call plan with same | ⟨begun, -⟩
          · rw [same]
            exact ⟨fun _ _ => rfl, .inl rfl⟩
          · rw [begun]
            refine ⟨?_, .inl rfl⟩
            intro j other
            rw [change_begin, if_neg other]
  | commit call =>
      obtain rfl : call = i := allows
      cases choice with
      | some e =>
          refine ⟨?_, .inl rfl⟩
          intro j other
          exact (change_close st call j).trans (if_neg other)
      | none =>
          show (∀ j, j ≠ call → (st.commit pg call).change j = st.change j) ∧
            ((st.commit pg call).tables = st.tables ∨ _)
          cases h : st.change call with
          | none =>
              rw [commit_none h]
              exact ⟨fun _ _ => rfl, .inl rfl⟩
          | some c =>
              refine ⟨?_, .inr ⟨c, rfl, rfl, rfl⟩⟩
              intro j other
              rw [(commit_some h).2, if_neg other]
  | rollback call =>
      obtain rfl : call = i := allows
      refine ⟨?_, .inl rfl⟩
      intro j other
      exact (change_close st call j).trans (if_neg other)

end Operations

end Lazuli.Referential
