import Lazuli.Referential.Operations
import Lazuli.Runtime.TenantScope

/-!
What a removed row leaves behind.

A call looks for references to one id and removes the rows that its Where map chooses; between
its query and its commit others may write a reference. In a run in which neither goes wrong
(`Orderly`) no row that is removed is referred to when the removal is committed.
-/

namespace Lazuli.Referential

open Lazuli.Codegen Lazuli.General Lazuli.Ir Lazuli.Runtime

/-! ### The promise -/

abbrev Deletes := Threads Store Nat Op.Res (Except (Refusal Failure) Output)

abbrev Step := Act Nat (Option TxError) (List Store.Write)

/-- A live row that refers to the id, as the clause has it. -/
def RefersTo (pg : Postgres) (guard : RestrictOnDelete) (id : Value) (row : Row) : Prop :=
  sqlEq (row guard.fk) id = true ∧ row "deleted_at" = .nil ∧
    guard.extraWhere.all (fun p => pg.meets p row) = true

section Promise

variable (pg : Postgres) (hooks : Hooks) (calls : Nat → Call)

def step (s : Deletes) (a : Step) : Deletes × Option (Nat × Except (Refusal Failure) Output) :=
  s.act (machine pg) a

/-- No row of the resource that a step of a call has removed is referred to. -/
def Upheld (s : Deletes) (a : Step) : Prop :=
  ∀ i choice, a = .step i choice →
    ∀ x ∈ s.shared.tables.rows (snakeCase (calls i).resource.name),
      Gone ((step pg s a).1.shared.tables.rows (snakeCase (calls i).resource.name)) x →
      ∀ guard ∈ (calls i).resource.restrictOnDelete,
        ∀ y ∈ (step pg s a).1.shared.tables.rows guard.relation,
          ¬ RefersTo pg guard (x.row "id") y.row

/-- Would the query of the call find the row? -/
def Call.sees (c : Call) (probe : RestrictOnDelete × Slot) (row : Row) : Prop :=
  finds pg probe.1 (TenantOrgID (some c.ctx)) (bound probe.2) row = true

/-- A call that may still send its statement, and has its query behind it. -/
structure Relies (s : Deletes) (i : Nat) (probe : RestrictOnDelete × Slot) : Prop where
  sends : ∃ plan, (s.programs i).MayCall (.send i plan)
  behind : ¬ (s.programs i).MayCall
    (.probe probe.1 (TenantOrgID (some (calls i).ctx)) probe.2)

/-- Every live reference to a row that the statement removes is one that the call has looked
for, or is taken by the statement as well. -/
def Covered (s : Deletes) (i : Nat) (plan : Plan) : Prop :=
  let c := s.shared.taking pg plan
  ∀ x ∈ s.shared.tables.rows c.table, c.Removes pg.engine x →
    ∀ guard ∈ (calls i).resource.restrictOnDelete, ∀ y ∈ s.shared.tables.rows guard.relation,
      RefersTo pg guard (x.row "id") y.row → ¬ c.Takes guard.relation y →
      ∃ probe ∈ (calls i).probes, probe.1.relation = guard.relation ∧
        (calls i).sees pg probe y.row

/-- The rows that a step commits to a table. -/
inductive Writes (s : Deletes) (name : String) (row : Row) : Step → Prop where
  | foreign {writes : List Store.Write} {place : Nat} :
      (∀ w ∈ writes, s.shared.locked none w.table w.place = false) →
      ⟨name, place, some row⟩ ∈ writes → Writes s name row (.outside writes)
  | call {i : Nat} {c : Change} {x : Entry} :
      (s.programs i).next? = some (.commit i) → s.shared.change i = some c →
      x ∈ s.shared.tables.rows name → c.Takes name x →
      outcome pg.engine c.plan x.row = some row → Writes s name row (.step i none)

/-- The row is not one that the call has looked for, and does not refer to one that it has
removed. -/
structure Avoids (s : Deletes) (i : Nat) (name : String) (row : Row) : Prop where
  probed : ∀ probe ∈ (calls i).probes, Relies calls s i probe → probe.1.relation = name →
    ¬ (calls i).sees pg probe row
  removed : ∀ c, s.shared.change i = some c → ∀ x ∈ s.shared.tables.rows c.table,
    c.Removes pg.engine x → ∀ guard ∈ (calls i).resource.restrictOnDelete,
      guard.relation = name → ¬ RefersTo pg guard (x.row "id") row

/-- A step that is taken in order: a statement that is sent is covered, and no live row is
written that is in the way of another call. -/
structure Orderly (s : Deletes) (a : Step) : Prop where
  covered : ∀ i choice plan, a = .step i choice →
    (s.programs i).next? = some (.send i plan) → Covered pg calls s i plan
  written : ∀ name row, Writes pg s name row a → row "deleted_at" = .nil →
    ∀ i, (∀ choice, a ≠ .step i choice) → Avoids pg calls s i name row

/-- All calls are still to be made, and no transaction is open. -/
structure Start (s : Deletes) : Prop where
  programs : ∀ i, s.programs i = (calls i).program hooks i
  opened : s.shared.opened = []

end Promise

/-! ### The invariant -/

/-- No two transactions have taken the same row. -/
def Store.Locks (st : Store) : Prop :=
  ∀ i j c d, i ≠ j → st.change i = some c → st.change j = some d → c.table = d.table →
    ∀ place ∈ c.places, place ∉ d.places

/-- A query that a call has behind it would not find anything now either. -/
structure Known (pg : Postgres) (c : Call) (i : Nat) (tables : Tables)
    (p : Program Op.Res (Except (Refusal Failure) Output)) (todo : Todo) : Prop where
  obeys : p.Obeys (callDiscipline i (TenantOrgID (some c.ctx))) (fun _ _ => True) todo
  unseen : ∀ ahead, todo = some ahead → (∃ plan, p.MayCall (.send i plan)) →
    ∀ probe ∈ c.probes, probe ∉ ahead → ∀ y ∈ tables.rows probe.1.relation,
      y.row "deleted_at" = .nil → ¬ c.sees pg probe y.row

/-- A row that a call has removed, but not yet committed, is not referred to. -/
def Unreferenced (pg : Postgres) (c : Call) (tables : Tables) (change : Change) : Prop :=
  ∀ x ∈ tables.rows change.table, change.Removes pg.engine x →
    ∀ guard ∈ c.resource.restrictOnDelete, ∀ y ∈ tables.rows guard.relation,
      ¬ change.Takes guard.relation y → ¬ RefersTo pg guard (x.row "id") y.row

structure At (pg : Postgres) (calls : Nat → Call) (i : Nat) (st : Store)
    (p : Program Op.Res (Except (Refusal Failure) Output)) : Prop where
  known : ∃ todo, Known pg (calls i) i st.tables p todo
  pending : ∀ c, st.change i = some c → Unreferenced pg (calls i) st.tables c

section Steps

variable {pg : Postgres} {hooks : Hooks} {calls : Nat → Call} {i : Nat} {st st' : Store} {op : Op}
  {rest : op.Res → Program Op.Res (Except (Refusal Failure) Output)} {choice : Option TxError}

theorem Known.next {c : Call} {tables : Tables} {todo : Todo}
    (h : Known pg c i tables (.call op rest) todo) (r : op.Res)
    (same : (callDiscipline i (TenantOrgID (some c.ctx))).learn todo op r = todo) :
    Known pg c i tables (rest r) todo where
  obeys := by
    have next := h.obeys.2 r
    rwa [same] at next
  unseen ahead eq sends := by
    obtain ⟨plan, sends⟩ := sends
    exact h.unseen ahead eq ⟨plan, sends.later⟩

/-- An operation that leaves the tables alone and opens nothing. -/
theorem At.next (h : At pg calls i st (.call op rest)) (r : op.Res)
    (same : ∀ todo, (callDiscipline i (TenantOrgID (some (calls i).ctx))).learn todo op r = todo)
    (tables : st'.tables = st.tables) (change : ∀ c, st'.change i = some c → st.change i = some c) :
    At pg calls i st' (rest r) where
  known := by
    obtain ⟨todo, known⟩ := h.known
    rw [tables]
    exact ⟨todo, known.next r (same todo)⟩
  pending c opened := by
    rw [tables]
    exact h.pending c (change c opened)

/-- The query of a probe found nothing. -/
theorem Known.probed {c : Call} {guard : RestrictOnDelete} {tenantID : Int} {id : Slot}
    {rest : Except Failure Unit → Program Op.Res (Except (Refusal Failure) Output)} {todo : Todo}
    (h : Known pg c i st.tables (.call (.probe guard tenantID id) rest) todo)
    (found : st.query pg guard tenantID id = .ok ()) :
    Known pg c i st.tables (rest (.ok ())) (todo.map List.tail) := by
  obtain ⟨⟨rfl, ahead, rfl⟩, next⟩ := h.obeys
  refine ⟨next (.ok ()), ?_⟩
  rintro _ ⟨⟩ ⟨plan, sends⟩ probe hprobe passed y hy live sees
  by_cases here : probe = (guard, id)
  · subst here
    have missed := query_ok found y hy
    rw [Call.sees, missed] at sees
    cases sees
  · have notAhead : probe ∉ (guard, id) :: ahead := by
      rw [List.mem_cons]
      rintro (same | later)
      · exact here same
      · exact passed later
    exact h.unseen _ rfl ⟨plan, sends.later⟩ probe hprobe notAhead y hy live sees

/-- What the statement leaves does not refer to what it removes. -/
theorem At.unreferenced {s : Deletes} {plan : Plan}
    {rest : Except TxError (List Row) → Program Op.Res (Except (Refusal Failure) Output)}
    (h : At pg calls i s.shared (.call (.send i plan) rest)) (covered : Covered pg calls s i plan) :
    Unreferenced pg (calls i) s.shared.tables (s.shared.taking pg plan) := by
  intro x hx removes guard hguard y hy kept refers
  obtain ⟨todo, known⟩ := h.known
  obtain ⟨-, rfl⟩ := known.obeys.1
  obtain ⟨probe, hprobe, relation, sees⟩ := covered x hx removes guard hguard y hy refers kept
  rw [← relation] at hy
  exact known.unseen [] rfl ⟨plan, .here _ _⟩ probe hprobe List.not_mem_nil y hy refers.2.1 sees

/-- After a commit nothing is open, and nothing more is sent. -/
theorem At.committed {rest : Except TxError Unit → Program Op.Res (Except (Refusal Failure) Output)}
    (h : At pg calls i st (.call (.commit i) rest)) :
    At pg calls i (st.commit pg i) (rest (.ok ())) where
  known := by
    obtain ⟨todo, known⟩ := h.known
    exact ⟨none, known.obeys.2 (.ok ()), nofun⟩
  pending c opened := by
    cases before : st.change i with
    | none =>
        rw [commit_none before, before] at opened
        cases opened
    | some c' =>
        rw [(commit_some before).2, if_pos rfl] at opened
        cases opened

theorem At.own {s : Deletes} (h : At pg calls i s.shared (.call op rest))
    (covered : ∀ plan, op = .send i plan → Covered pg calls s i plan) :
    At pg calls i (Store.exec pg op choice s.shared).1
      (rest (Store.exec pg op choice s.shared).2) := by
  obtain ⟨todo, known⟩ := h.known
  have allows := known.obeys.1
  cases op with
  | ask op | sleep | started call | finished call =>
      cases choice <;> exact h.next _ (fun _ => rfl) rfl fun _ opened => opened
  | probe guard tenantID id =>
      cases choice with
      | some e => exact h.next _ (fun _ => rfl) rfl fun _ opened => opened
      | none =>
          show At pg calls i s.shared (rest (s.shared.query pg guard tenantID id))
          cases found : s.shared.query pg guard tenantID id with
          | error e => exact h.next _ (fun _ => rfl) rfl fun _ opened => opened
          | ok u => exact ⟨⟨_, known.probed found⟩, h.pending⟩
  | send call plan =>
      obtain ⟨rfl, -⟩ := allows
      cases choice with
      | some e => exact h.next _ (fun _ => rfl) rfl fun _ opened => opened
      | none =>
          show At pg calls call (s.shared.send pg call plan).1 (rest (s.shared.send pg call plan).2)
          rcases send_cases pg s.shared call plan with same | ⟨begun, -⟩
          · rw [same]
            exact h.next _ (fun _ => rfl) rfl fun _ opened => opened
          · rw [begun]
            refine ⟨⟨todo, known.next _ rfl⟩, ?_⟩
            intro c opened
            rw [change_begin, if_pos rfl] at opened
            obtain rfl := Option.some.inj opened
            exact h.unreferenced (covered plan rfl)
  | commit call =>
      obtain rfl : call = i := allows
      cases choice with
      | some e =>
          refine h.next _ (fun _ => rfl) rfl ?_
          intro c opened
          rw [Store.exec, change_close, if_pos rfl] at opened
          cases opened
      | none => exact h.committed
  | rollback call =>
      obtain rfl : call = i := allows
      refine h.next _ (fun _ => rfl) rfl ?_
      intro c opened
      rw [Store.exec, change_close, if_pos rfl] at opened
      cases opened

/-! ### Steps of others -/

/-- The rows of the tables after a step were there before, or are written by it outside of what
the call has taken. -/
def Arises (pg : Postgres) (s : Deletes) (a : Step) (i : Nat) (tables : Tables) : Prop :=
  ∀ name, ∀ y ∈ tables.rows name, y ∈ s.shared.tables.rows name ∨
    Writes pg s name y.row a ∧ ∀ c, s.shared.change i = some c → ¬ c.Takes name y

theorem At.others {s : Deletes} {a : Step} (h : At pg calls i s.shared (s.programs i))
    (change : st'.change i = s.shared.change i) (arises : Arises pg s a i st'.tables)
    (avoids : ∀ name row, Writes pg s name row a → row "deleted_at" = .nil →
      Avoids pg calls s i name row) : At pg calls i st' (s.programs i) where
  known := by
    obtain ⟨todo, known⟩ := h.known
    refine ⟨todo, known.obeys, ?_⟩
    rintro ahead rfl sends probe hprobe passed y hy live sees
    rcases arises _ y hy with before | ⟨written, -⟩
    · exact known.unseen ahead rfl sends probe hprobe passed y before live sees
    · refine (avoids _ _ written live).probed probe hprobe ⟨sends, ?_⟩ rfl sees
      intro may
      obtain ⟨_, ⟨⟩, here⟩ := todo_of_mayCall_probe known.obeys may
      exact passed here
  pending c opened := by
    rw [change] at opened
    intro x hx removes guard hguard y hy kept refers
    rcases arises _ x hx with hx | ⟨-, away⟩
    · rcases arises _ y hy with hy | ⟨written, -⟩
      · exact h.pending c opened x hx removes guard hguard y hy kept refers
      · exact (avoids _ _ written refers.2.1).removed c opened x hx removes guard hguard rfl refers
    · exact away c opened ⟨rfl, removes.1⟩

theorem arises_of_commit {s : Deletes} {j : Nat} {d : Change} (locks : s.shared.Locks)
    (other : i ≠ j) (next : (s.programs j).next? = some (.commit j))
    (hd : s.shared.change j = some d) :
    Arises pg s (.step j none) i (d.apply pg.engine s.shared.tables) := by
  intro name y hy
  rcases of_mem_rows_apply hy with ⟨before, -⟩ | ⟨takes, x, hx, taken, left⟩
  · exact .inl before
  · refine .inr ⟨.call next hd hx taken left, ?_⟩
    intro c hc mine
    exact locks i j c d other hc hd (mine.1.symm.trans takes.1) _ mine.2 takes.2

theorem mem_rows_writes {writes : List Store.Write} {tables : Tables} {name : String} {y : Entry}
    (h : y ∈ (writes.foldl Store.Write.apply tables).rows name) :
    y ∈ tables.rows name ∨ ⟨name, y.place, some y.row⟩ ∈ writes := by
  induction writes generalizing tables with
  | nil => exact .inl h
  | cons w writes ih =>
      rcases ih h with there | later
      · unfold Tables.rows Store.Write.apply at there
        unfold Tables.rows
        by_cases same : name = w.table
        · rw [if_pos same] at there
          cases table : tables name with
          | none =>
              rw [table] at there
              exact .inl there
          | some t =>
              rw [table] at there
              rcases List.mem_append.mp there with kept | put
              · exact .inl (List.mem_of_mem_filter kept)
              · obtain ⟨row, hrow, rfl⟩ := Option.map_eq_some_iff.mp (Option.mem_toList.mp put)
                subst same
                rw [← hrow]
                exact .inr List.mem_cons_self
        · rw [if_neg same] at there
          exact .inl there
      · exact .inr (List.mem_cons_of_mem _ later)

theorem foreign_cases (writes : List Store.Write) (st : Store) :
    Store.foreign writes st = st ∨
      (Store.foreign writes st = { st with tables := writes.foldl Store.Write.apply st.tables } ∧
        ∀ w ∈ writes, st.locked none w.table w.place = false) := by
  unfold Store.foreign
  split
  · exact .inl rfl
  next free =>
    refine .inr ⟨rfl, ?_⟩
    intro w hw
    simpa using List.any_eq_false.mp (eq_false_of_ne_true free) w hw

variable (pg) in
theorem arises_of_foreign (writes : List Store.Write) (s : Deletes) :
    (Store.foreign writes s.shared).change i = s.shared.change i ∧
      Arises pg s (.outside writes) i (Store.foreign writes s.shared).tables := by
  rcases foreign_cases writes s.shared with same | ⟨put, free⟩
  · rw [same]
    exact ⟨rfl, fun _ _ hy => .inl hy⟩
  · rw [put]
    refine ⟨rfl, ?_⟩
    intro name y hy
    rcases mem_rows_writes hy with before | written
    · exact .inl before
    · refine .inr ⟨.foreign free written, ?_⟩
      rintro c hc ⟨rfl, here⟩
      exact not_mem_of_not_locked (free _ written) (Option.some_ne_none i) hc rfl here

/-- A call takes no row that another has taken. -/
theorem own_change {todo : Todo} {tenantID : Int} (allows : (callDiscipline i tenantID).Allows todo op)
    {c : Change} (opened : (Store.exec pg op choice st).1.change i = some c) :
    st.change i = some c ∨ ∀ place ∈ c.places, st.locked (some i) c.table place = false := by
  have closed (call : Nat) (same : call = i) (h : (st.close call).change i = some c) :
      st.change i = some c := by
    rw [change_close, if_pos same.symm] at h
    cases h
  cases op with
  | ask op | probe guard tenant id | sleep | started call | finished call =>
      cases choice <;> exact .inl opened
  | send call plan =>
      obtain ⟨rfl, -⟩ := allows
      cases choice with
      | some e => exact .inl opened
      | none =>
          replace opened : (st.send pg call plan).1.change call = some c := opened
          rcases send_cases pg st call plan with same | ⟨begun, free⟩
          · rw [same] at opened
            exact .inl opened
          · rw [begun, change_begin, if_pos rfl] at opened
            obtain rfl := Option.some.inj opened
            exact .inr free
  | commit call =>
      cases choice with
      | some e => exact .inl (closed call allows opened)
      | none =>
          replace opened : (st.commit pg call).change i = some c := opened
          obtain rfl : call = i := allows
          cases before : st.change call with
          | none =>
              rw [commit_none before, before] at opened
              cases opened
          | some d =>
              rw [(commit_some before).2, if_pos rfl] at opened
              cases opened
  | rollback call => exact .inl (closed call allows opened)

theorem Store.Locks.next (locks : st.Locks) {todo : Todo} {tenantID : Int}
    (allows : (callDiscipline i tenantID).Allows todo op) :
    (Store.exec pg op choice st).1.Locks := by
  obtain ⟨frame, -⟩ := exec_frame pg st choice allows
  intro a b c d other hc hd same place hplace hplace'
  by_cases ha : a = i
  · subst ha
    rw [frame b other.symm] at hd
    rcases own_change allows hc with before | free
    · exact locks a b c d other before hd same place hplace hplace'
    · exact not_mem_of_not_locked (free place hplace) (by simpa using other.symm) hd same.symm hplace'
  · rw [frame a ha] at hc
    by_cases hb : b = i
    · subst hb
      rcases own_change allows hd with before | free
      · exact locks a b c d other hc before same place hplace hplace'
      · exact not_mem_of_not_locked (free place hplace') (by simpa using other) hc same hplace
    · rw [frame b hb] at hd
      exact locks a b c d other hc hd same place hplace hplace'

/-! ### The run -/

/-- The invariant of a run. -/
def Inv (pg : Postgres) (calls : Nat → Call) (s : Deletes) : Prop :=
  s.shared.Locks ∧ ∀ i, At pg calls i s.shared (s.programs i)

theorem inv_step {s : Deletes} {a : Step} (inv : Inv pg calls s) (orderly : Orderly pg calls s a) :
    Inv pg calls (step pg s a).1 := by
  apply Threads.act_inv Store.Locks (fun i st p => At pg calls i st p) (Orderly pg calls)
    ?_ ?_ ?_ inv a orderly
  · intro s i choice op rest locks here program orderly
    obtain ⟨todo, known⟩ := here.known
    refine ⟨locks.next known.obeys.1, here.own ?_⟩
    rintro plan rfl
    apply orderly.covered i choice plan rfl
    rw [program]
    rfl
  · intro s i choice op rest j locks here program orderly other there
    obtain ⟨todo, known⟩ := here.known
    obtain ⟨frame, tables⟩ := exec_frame pg s.shared choice known.obeys.1
    apply there.others (a := .step i choice) (frame j other)
    · rcases tables with same | ⟨d, rfl, rfl, hd⟩
      · intro name y hy
        rw [same] at hy
        exact .inl hy
      · have applied : (Store.exec pg (.commit i) none s.shared).1.tables =
            d.apply pg.engine s.shared.tables := (commit_some hd).1
        rw [applied]
        apply arises_of_commit locks other ?_ hd
        rw [program]
        rfl
    · intro name row written live
      apply orderly.written name row written live j
      rintro choice' ⟨⟩
      exact other rfl
  · intro s writes locks orderly
    refine ⟨?_, ?_⟩
    · show (Store.foreign writes s.shared).Locks
      rcases foreign_cases writes s.shared with same | ⟨put, -⟩
      · rw [same]
        exact locks
      · rw [put]
        exact locks
    · intro j there
      obtain ⟨frame, arises⟩ := arises_of_foreign pg (i := j) writes s
      exact there.others frame arises fun name row written live =>
        orderly.written name row written live j nofun

theorem upheld_of_inv {s : Deletes} {a : Step} (inv : Inv pg calls s) : Upheld pg calls s a := by
  rintro i choice rfl x hx gone guard hguard y hy refers
  have here := inv.2 i
  cases program : s.programs i with
  | done r =>
      rw [step, Threads.act_done program] at gone
      exact not_gone_of_mem hx gone
  | call op rest =>
      rw [program] at here
      obtain ⟨todo, known⟩ := here.known
      have shared : (step pg s (.step i choice)).1.shared = (Store.exec pg op choice s.shared).1 := by
        rw [step, Threads.act_call program]
        rfl
      rw [shared] at gone hy
      rcases (exec_frame pg s.shared choice known.obeys.1).2 with
        same | ⟨c, rfl, rfl, hc⟩
      · rw [same] at gone
        exact not_gone_of_mem hx gone
      · have applied : (Store.exec pg (.commit i) none s.shared).1.tables =
            c.apply pg.engine s.shared.tables := (commit_some hc).1
        rw [applied] at gone hy
        obtain ⟨table, removes⟩ := removes_of_gone hx gone
        rw [table] at hx
        rcases of_mem_rows_apply hy with ⟨before, kept⟩ | ⟨-, x', -, -, left⟩
        · exact here.pending c hc x hx removes guard hguard y before kept refers
        · exact removes.dead left refers.2.1

theorem inv_of_start {s : Deletes} (start : Start hooks calls s) : Inv pg calls s := by
  have none' (i : Nat) : s.shared.change i = none := by
    unfold Store.change
    rw [start.opened]
    rfl
  refine ⟨?_, ?_⟩
  · intro i j c d _ hc
    rw [none'] at hc
    cases hc
  · intro i
    refine ⟨⟨some (calls i).probes, ?_, ?_⟩, ?_⟩
    · rw [start.programs]
      exact program_obeys hooks (calls i) i
    · rintro _ ⟨⟩ _ probe hprobe passed
      exact absurd hprobe passed
    · intro c hc
      rw [none'] at hc
      cases hc

/-- In a run whose steps are taken in order no call removes a row that is referred to. -/
theorem removals_along {s : Deletes} {acts : List Step} (start : Start hooks calls s)
    (along : Along (step pg) (Orderly pg calls) s acts) :
    Along (step pg) (Upheld pg calls) s acts := by
  apply along.strengthen (I := Inv pg calls) ?_ (inv_of_start start)
  intro s a inv orderly
  exact ⟨inv_step inv orderly, upheld_of_inv inv⟩

end Steps

/-! ### Steps in order -/

section Orderly

variable {pg : Postgres} {calls : Nat → Call} {s : Deletes} {i : Nat} {choice : Option TxError}

/-- The commit of a removal is in order, and so is everything but a commit and a statement. -/
theorem orderly_of_commit {op : Op} (next : (s.programs i).next? = some op)
    (quiet : ∀ plan, op ≠ .send i plan)
    (removal : op = .commit i → ∀ c, s.shared.change i = some c → ∃ x, c.Removes pg.engine x) :
    Orderly pg calls s (.step i choice) where
  covered := by
    rintro i' choice' plan ⟨⟩ sends
    rw [next] at sends
    exact absurd (Option.some.inj sends) (quiet plan)
  written := by
    rintro name row written live
    cases written with
    | call commits hc hx takes left =>
        rw [next] at commits
        obtain ⟨x, removes⟩ := removal (Option.some.inj commits) _ hc
        exact absurd live (removes.dead left)

theorem orderly_of_covered {plan : Plan} (next : (s.programs i).next? = some (.send i plan))
    (covered : Covered pg calls s i plan) : Orderly pg calls s (.step i choice) where
  covered := by
    rintro i' choice' plan' ⟨⟩ sends
    rw [next] at sends
    cases sends
    exact covered
  written := by
    rintro name row written
    cases written with
    | call commits =>
        rw [next] at commits
        cases commits

end Orderly

/-! ### The deletion of a category -/

def products : RestrictOnDelete := { relation := "product", fk := "category_id", softDelete := true }

def category : Ir.Resource :=
  { name := "Category", softDelete := true, restrictOnDelete := [products] }

/-- `deletes Category` by the id of its route. -/
def deleteCategory : Ir.Command where
  name := "DeleteCategory"
  effect := .deletes ⟨⟨none, "Category"⟩, []⟩
  triggers := []
  span := none
  route := [⟨"id", .builtin .id⟩]

def categoryResource : Runtime.Resource where
  name := ⟨"Category", by decide⟩
  softDelete := true

def deleteCategoryCommand : Runtime.Command where
  name := "delete_category"
  checks _ _ := .ok ()
  effect := some (.deletes ⟨categoryResource, .single idColumn (.input "ID")⟩)
  transitions := []
  lifecycleColumn := none
  emits := []
  emitsTrace := []
  audit := none
  invalidates := []
  outputType := .other
  zero _ := .nil
  scan row := .ok row

/-- The category 1 is deleted. -/
def deletion : Call where
  feature := { name := "catalog", resources := [category], commands := [deleteCategory] }
  command := deleteCategory
  resource := category
  value := deleteCategoryCommand
  ctx := member
  input := .direct (.struct (.cons "ID" "id" (.direct (.int 1)) .nil))

def postgres : Postgres where
  engine := ⟨⟨fun _ _ _ => [], fun _ _ => false⟩, fun _ => true, .time 0⟩
  meets _ _ := true

def record (cols : List (String × Value)) : Row := fun name => (cols.lookup name).getD .nil

/-- The category 1, and no product. -/
def shop : Tables
  | "category" => some ⟨["id", "deleted_at"], [⟨0, record [("id", .int 1)]⟩]⟩
  | "product" => some ⟨["id", "category_id", "deleted_at"], []⟩
  | _ => none

def opening : Deletes where
  shared := ⟨shop, []⟩
  programs i := deletion.program noHooks i

/-- A product of a category is inserted. -/
def addProduct (id : Int) : Step :=
  .outside [⟨"product", 0, some (record [("id", .int 7), ("category_id", .int id)])⟩]

/-- From the query of the deletion to its commit, and something in between. -/
def around (a : Step) : List Step :=
  [.step 0 none, a, .step 0 none, .step 0 none, .step 0 none, .step 0 none, .step 0 none]

theorem opening_start : Start noHooks (fun _ => deletion) opening where
  programs _ := rfl
  opened := rfl

/-- A product of the category that comes after the query stays behind. -/
theorem product_left_behind :
    Start noHooks (fun _ => deletion) opening ∧
      ¬ Along (step postgres) (Upheld postgres fun _ => deletion) opening
        (around (addProduct 1)) := by
  refine ⟨opening_start, ?_⟩
  rintro ⟨-, -, -, -, -, -, last, -⟩
  refine last 0 none rfl ⟨0, record [("id", .int 1)]⟩ (List.mem_singleton.mpr rfl) ?_ products
    (List.mem_singleton.mpr rfl) ⟨0, record [("id", .int 7), ("category_id", .int 1)]⟩
    (List.mem_singleton.mpr rfl) ⟨rfl, rfl, rfl⟩
  intro y hy _
  obtain rfl := List.mem_singleton.mp hy
  exact ⟨rfl, nofun⟩

/-- The product of another category does not. -/
theorem removals_along_other :
    Along (step postgres) (Upheld postgres fun _ => deletion) opening (around (addProduct 2)) := by
  apply removals_along opening_start
  refine ⟨?_, ?_, ?_, ?_, ?_, ?_, ?_, trivial⟩
  · exact orderly_of_commit rfl nofun nofun
  · refine ⟨nofun, ?_⟩
    rintro name row (⟨-, written⟩ | _) live i other
    cases List.mem_singleton.mp written
    refine ⟨?_, nofun⟩
    intro probe hprobe relies relation sees
    cases List.mem_singleton.mp hprobe
    cases sees
  · exact orderly_of_commit rfl nofun nofun
  · exact orderly_of_commit rfl nofun nofun
  · apply orderly_of_covered rfl
    intro x hx removes guard hguard y hy refers
    cases List.mem_singleton.mp hx
    cases List.mem_singleton.mp hguard
    cases List.mem_singleton.mp hy
    cases refers.1
  · exact orderly_of_commit rfl nofun nofun
  · apply orderly_of_commit rfl
    · rintro plan ⟨⟩
    · rintro - c ⟨⟩
      refine ⟨⟨0, record [("id", .int 1)]⟩, List.mem_singleton.mpr rfl, ?_⟩
      rintro row ⟨⟩
      exact ⟨rfl, nofun⟩

end Lazuli.Referential
