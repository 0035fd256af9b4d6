import Lazuli.Events.Outbox
import Lazuli.General.Backlog
import Mathlib.Order.Filter.AtTopBot.Basic
import Mathlib.Order.Filter.Finite

/-!
Rows whose dispatch always fails.

A pass takes the undispatched rows with the smallest ids. Rows that fail stay where they are, so
as many of them as a pass takes keep every later row from ever being dispatched.
-/

namespace Lazuli.Events

open Lazuli.General

/-! ### One pass -/

/-- Every statement goes through, and a dispatch of a row always returns the same. -/
def answered (returns : OutboxRow → Except String Unit) : Op → Answer
  | .dispatchReturns row => ⟨.done, returns row, 0⟩
  | _ => ⟨.done, .ok (), 0⟩

/-- The tables after one `PumpOnce` with nothing beside it. -/
def pumped (returns : OutboxRow → Except String Unit) (limit : Int) (db : Db) : Db :=
  ((pumpOnce limit).alone (fun op (_ : Unit) db => db.exec op (answered returns op))
    (fun _ => ()) db).1

/-- The limit of the statement. -/
def effective (limit : Int) : Nat := if limit ≤ 0 then 100 else limit.toNat

def fails (returns : OutboxRow → Except String Unit) (row : OutboxRow) : Bool :=
  match returns row with
  | .ok _ => false
  | .error _ => true

/-- `id` is the primary key of the table. -/
def Db.Keyed (db : Db) : Prop := ((db.outbox.map Stored.row).map OutboxRow.id).Nodup

/-- All undispatched rows, in the order of the statement. -/
def Db.pending (db : Db) : List OutboxRow :=
  ((db.outbox.filter fun stored => stored.dispatchedAt.isNone).map Stored.row).insertionSort
    fun a b => a.id ≤ b.id

/-- What is done with one row of the batch. -/
def handOne (returns : OutboxRow → Except String Unit) (db : Db) (row : OutboxRow) : Db :=
  let handed := { db with handed := row :: db.handed }
  if fails returns row then handed else handed.markDispatched row.id

section Pass

variable {returns : OutboxRow → Except String Unit} {limit : Int} {db : Db}

theorem pumpRows_alone (rows : List OutboxRow) (dispatched : Nat) (db : Db) :
    ((pumpRows rows dispatched).alone (fun op (_ : Unit) db => db.exec op (answered returns op))
      (fun _ => ()) db).1 = rows.foldl (handOne returns) db := by
  induction rows generalizing dispatched db with
  | nil => rfl
  | cons row rows ih =>
      rw [List.foldl_cons]
      cases h : returns row with
      | error message =>
          have one : handOne returns db row = { db with handed := row :: db.handed } := by
            simp only [handOne, fails, h, ↓reduceIte]
          rw [one, ← ih dispatched]
          simp only [pumpRows, dispatch, Program.bind_call, Program.bind_done, Program.alone_call,
            Db.exec, answered, h]
      | ok u =>
          have one : handOne returns db row =
              Db.markDispatched { db with handed := row :: db.handed } row.id := by
            simp only [handOne, fails, h, Bool.false_eq_true, ↓reduceIte]
          rw [one, ← ih (dispatched + 1)]
          simp only [pumpRows, dispatch, Program.bind_call, Program.bind_done, Program.alone_call,
            Db.exec, answered, h, Reply.perform_done]

theorem pumped_eq :
    pumped returns limit db = (db.pending.take (effective limit)).foldl (handOne returns) db :=
  pumpRows_alone (db.pending.take (effective limit)) 0 db

/-! ### What a pass leaves -/

theorem rows_markDispatched (db : Db) (id : Nat) :
    (db.markDispatched id).outbox.map Stored.row = db.outbox.map Stored.row := by
  rw [Db.markDispatched, List.map_map]
  refine List.map_congr_left fun stored _ => ?_
  simp only [Function.comp]
  split <;> rfl

theorem Db.Keyed.of_rows {db' : Db} (keyed : db.Keyed)
    (same : db'.outbox.map Stored.row = db.outbox.map Stored.row) : db'.Keyed := by
  rwa [Db.Keyed, same]

theorem Db.Keyed.undispatched (keyed : db.Keyed) :
    (((db.outbox.filter fun stored => stored.dispatchedAt.isNone).map Stored.row).map
      OutboxRow.id).Nodup :=
  keyed.sublist ((List.filter_sublist.map _).map _)

theorem Db.Keyed.pending (keyed : db.Keyed) : (db.pending.map OutboxRow.id).Nodup :=
  ((List.perm_insertionSort _ _).map OutboxRow.id).nodup_iff.mpr keyed.undispatched

/-- Rows with distinct ids are sorted in one way. -/
theorem insertionSort_filter {rows : List OutboxRow} (keyed : (rows.map OutboxRow.id).Nodup)
    (p : OutboxRow → Bool) :
    (rows.filter p).insertionSort (fun a b => a.id ≤ b.id) =
      (rows.insertionSort fun a b => a.id ≤ b.id).filter p := by
  have perm := List.perm_insertionSort (fun a b : OutboxRow => a.id ≤ b.id) rows
  have same : ((rows.filter p).insertionSort fun a b => a.id ≤ b.id).Perm
      ((rows.insertionSort fun a b => a.id ≤ b.id).filter p) :=
    (List.perm_insertionSort _ _).trans (perm.symm.filter p)
  refine same.eq_of_pairwise ?_ (List.pairwise_insertionSort _ _)
    ((List.pairwise_insertionSort _ _).filter p)
  intro a b memA memB le ge
  have inA : a ∈ rows := (List.mem_filter.mp ((List.mem_insertionSort _).mp memA)).1
  have inB : b ∈ rows := (List.mem_insertionSort _).mp (List.mem_filter.mp memB).1
  exact List.inj_on_of_nodup_map keyed inA inB (Nat.le_antisymm le ge)

theorem open_markDispatched (outbox : List Stored) (id : Nat) (clock : Int) :
    ((outbox.map fun stored =>
        if stored.row.id = id then { stored with dispatchedAt := some clock } else stored).filter
      fun stored => stored.dispatchedAt.isNone).map Stored.row =
    ((outbox.filter fun stored => stored.dispatchedAt.isNone).map Stored.row).filter
      fun row => row.id ≠ id := by
  induction outbox with
  | nil => rfl
  | cons stored outbox ih =>
      by_cases same : stored.row.id = id
      · by_cases undone : stored.dispatchedAt.isNone = true
        · simp only [List.map_cons, List.filter_cons, same, undone, Option.isNone_some, ih, ne_eq,
            not_true_eq_false, decide_false, Bool.false_eq_true, ↓reduceIte]
        · simp only [List.map_cons, List.filter_cons, same, undone, Option.isNone_some, ih,
            Bool.false_eq_true, ↓reduceIte]
      · by_cases undone : stored.dispatchedAt.isNone = true
        · simp only [List.map_cons, List.filter_cons, same, undone, ih, ne_eq, not_false_eq_true,
            decide_true, ↓reduceIte]
        · simp only [List.map_cons, List.filter_cons, same, undone, ih, Bool.false_eq_true,
            ↓reduceIte]

theorem pending_markDispatched (keyed : db.Keyed) (id : Nat) :
    (db.markDispatched id).pending = db.pending.filter fun row => row.id ≠ id := by
  rw [Db.pending, Db.pending, ← insertionSort_filter keyed.undispatched,
    ← open_markDispatched _ id db.clock]
  rfl

theorem rows_handOne (row : OutboxRow) :
    (handOne returns db row).outbox.map Stored.row = db.outbox.map Stored.row := by
  rw [handOne]
  split
  · rfl
  · exact rows_markDispatched _ row.id

theorem handed_handOne (row : OutboxRow) :
    (handOne returns db row).handed = row :: db.handed := by
  rw [handOne]
  split <;> rfl

theorem pending_handOne (keyed : db.Keyed) (row : OutboxRow) :
    (handOne returns db row).pending =
      db.pending.filter fun other => fails returns row || other.id ≠ row.id := by
  rw [handOne]
  split
  · next failed =>
      simp only [failed, Bool.true_or, List.filter_true]
      rfl
  · next ok =>
      simp only [Bool.eq_false_iff.mpr ok, Bool.false_or]
      exact pending_markDispatched keyed row.id

/-! ### The pass as a pass over a backlog -/

theorem rows_foldl (rows : List OutboxRow) (db : Db) :
    (rows.foldl (handOne returns) db).outbox.map Stored.row = db.outbox.map Stored.row := by
  induction rows generalizing db with
  | nil => rfl
  | cons row rows ih => rw [List.foldl_cons, ih, rows_handOne]

theorem handed_foldl (rows : List OutboxRow) (db : Db) :
    (rows.foldl (handOne returns) db).handed = rows.reverse ++ db.handed := by
  induction rows generalizing db with
  | nil => rfl
  | cons row rows ih =>
      rw [List.foldl_cons, ih, handed_handOne, List.reverse_cons, List.append_assoc,
        List.singleton_append]

theorem pending_foldl (rows : List OutboxRow) {db : Db} (keyed : db.Keyed) :
    (rows.foldl (handOne returns) db).pending = db.pending.filter fun other =>
      rows.all fun row => fails returns row || other.id ≠ row.id := by
  induction rows generalizing db with
  | nil => simp only [List.foldl_nil, List.all_nil, List.filter_true]
  | cons row rows ih =>
      rw [List.foldl_cons, ih (keyed.of_rows (rows_handOne row)), pending_handOne keyed,
        List.filter_filter]
      simp only [List.all_cons, Bool.and_comm]

/-- What is not among the rows of the batch that were dispatched. -/
theorem filter_batch {stays : OutboxRow → Bool} {q : List OutboxRow} {n : Nat}
    (keyed : (q.map OutboxRow.id).Nodup) :
    (q.filter fun other => (q.take n).all fun row => stays row || other.id ≠ row.id) =
      Backlog.pass stays n q := by
  have split : ((q.take n ++ q.drop n).map OutboxRow.id).Nodup := by rwa [List.take_append_drop]
  rw [List.map_append, List.nodup_append] at split
  obtain ⟨front, -, apart⟩ := split
  have keeps : (q.take n).filter (fun other =>
      (q.take n).all fun row => stays row || other.id ≠ row.id) = (q.take n).filter stays := by
    refine List.filter_congr fun other mem => ?_
    rw [Bool.eq_iff_iff, List.all_eq_true]
    constructor
    · intro all
      simpa using all other mem
    · intro stay row memRow
      by_cases same : row = other
      · rw [same, stay, Bool.true_or]
      · have differ : other.id ≠ row.id :=
          fun eq => same (List.inj_on_of_nodup_map front memRow mem eq.symm)
        simp only [differ, ne_eq, not_false_eq_true, decide_true, Bool.or_true]
  have rest : (q.drop n).filter (fun other =>
      (q.take n).all fun row => stays row || other.id ≠ row.id) = q.drop n := by
    refine List.filter_eq_self.mpr fun other mem => List.all_eq_true.mpr fun row memRow => ?_
    have differ : other.id ≠ row.id := fun eq =>
      apart _ (List.mem_map_of_mem memRow) _ (List.mem_map_of_mem mem) eq.symm
    simp only [differ, ne_eq, not_false_eq_true, decide_true, Bool.or_true]
  calc q.filter _ = (q.take n ++ q.drop n).filter _ := by rw [List.take_append_drop]
    _ = Backlog.pass stays n q := by rw [List.filter_append, keeps, rest, Backlog.pass]

theorem rows_pumped : (pumped returns limit db).outbox.map Stored.row =
    db.outbox.map Stored.row := by
  rw [pumped_eq, rows_foldl]

theorem pending_pumped (keyed : db.Keyed) : (pumped returns limit db).pending =
    Backlog.pass (fails returns) (effective limit) db.pending := by
  rw [pumped_eq, pending_foldl _ keyed, filter_batch keyed.pending]

theorem handed_pumped : (pumped returns limit db).handed =
    (db.pending.take (effective limit)).reverse ++ db.handed := by
  rw [pumped_eq, handed_foldl]

/-! ### Passes after each other -/

theorem rows_iterate (n : Nat) :
    ((pumped returns limit)^[n] db).outbox.map Stored.row = db.outbox.map Stored.row := by
  induction n with
  | zero => rfl
  | succ n ih => rw [Function.iterate_succ_apply', rows_pumped, ih]

theorem pending_iterate (keyed : db.Keyed) (n : Nat) :
    ((pumped returns limit)^[n] db).pending =
      (Backlog.pass (fails returns) (effective limit))^[n] db.pending := by
  induction n with
  | zero => rfl
  | succ n ih =>
      rw [Function.iterate_succ_apply', Function.iterate_succ_apply',
        pending_pumped (keyed.of_rows (rows_iterate n)), ih]

theorem count_handed_iterate (keyed : db.Keyed) (row : OutboxRow) (n : Nat) :
    ((pumped returns limit)^[n] db).handed.count row = db.handed.count row +
      (Backlog.taken (fails returns) (effective limit) n db.pending).count row := by
  induction n generalizing db with
  | zero => rfl
  | succ n ih =>
      rw [Function.iterate_succ_apply, ih (keyed.of_rows rows_pumped), handed_pumped,
        pending_pumped keyed, Backlog.taken, List.count_append, List.count_append,
        List.count_reverse]
      omega

/-! ### Rows -/

theorem mem_pending {row : OutboxRow} : row ∈ db.pending ↔
    ∃ stored ∈ db.outbox, stored.dispatchedAt = none ∧ stored.row = row := by
  rw [Db.pending, List.mem_insertionSort, List.mem_map]
  constructor
  · rintro ⟨stored, mem, rfl⟩
    obtain ⟨mem, undone⟩ := List.mem_filter.mp mem
    exact ⟨stored, mem, Option.isNone_iff_eq_none.mp undone, rfl⟩
  · rintro ⟨stored, mem, undone, rfl⟩
    exact ⟨stored, List.mem_filter.mpr ⟨mem, Option.isNone_iff_eq_none.mpr undone⟩, rfl⟩

/-- A row of the table is marked when it is no longer pending. -/
theorem marked_iff (keyed : db.Keyed) {row : OutboxRow} (mem : row ∈ db.outbox.map Stored.row) :
    (∃ stored ∈ db.outbox, stored.row = row ∧ stored.dispatchedAt ≠ none) ↔
      row ∉ db.pending := by
  have ids : (db.outbox.map (OutboxRow.id ∘ Stored.row)).Nodup := by
    rw [← List.map_map]
    exact keyed
  constructor
  · rintro ⟨stored, mem, same, done⟩ pending
    obtain ⟨other, memOther, undone, sameOther⟩ := mem_pending.mp pending
    have eq : stored = other := List.inj_on_of_nodup_map ids mem memOther
      (congrArg OutboxRow.id (same.trans sameOther.symm))
    exact done (eq ▸ undone)
  · intro settled
    obtain ⟨stored, mem, same⟩ := List.mem_map.mp mem
    exact ⟨stored, mem, same, fun undone => settled (mem_pending.mpr ⟨stored, mem, undone, same⟩)⟩

/-- The undispatched rows before a row that fail. -/
def ahead (returns : OutboxRow → Except String Unit) (db : Db) (row : OutboxRow) : Nat :=
  db.outbox.countP fun stored =>
    stored.dispatchedAt.isNone && fails returns stored.row && decide (stored.row.id < row.id)

/-- They are those that stay before it in the backlog. -/
theorem countP_before (keyed : db.Keyed) {before rest : List OutboxRow} {row : OutboxRow}
    (split : db.pending = before ++ row :: rest) :
    before.countP (fails returns) = ahead returns db row := by
  have sorted : (before ++ row :: rest).Pairwise fun a b => a.id ≤ b.id := by
    rw [← split]
    exact List.pairwise_insertionSort _ _
  have distinct : ((before ++ row :: rest).map OutboxRow.id).Nodup := by
    rw [← split]
    exact keyed.pending
  have smaller : before.countP (fun r => fails returns r && decide (r.id < row.id)) =
      before.countP (fails returns) := by
    refine List.countP_congr fun r mem => ?_
    have le : r.id ≤ row.id := (List.pairwise_append.mp sorted).2.2 r mem row List.mem_cons_self
    have ne : r.id ≠ row.id := by
      rw [List.map_append, List.nodup_append] at distinct
      exact distinct.2.2 _ (List.mem_map_of_mem mem) _ (by simp)
    simp only [decide_eq_true (Nat.lt_of_le_of_ne le ne), Bool.and_true]
  have larger : (row :: rest).countP (fun r => fails returns r && decide (r.id < row.id)) = 0 := by
    refine List.countP_eq_zero.mpr fun r mem => ?_
    have le : row.id ≤ r.id := by
      rcases List.mem_cons.mp mem with rfl | mem
      · exact Nat.le_refl r.id
      · exact List.rel_of_pairwise_cons (List.pairwise_append.mp sorted).2.1 mem
    simp only [decide_eq_false (Nat.not_lt.mpr le), Bool.and_false, Bool.false_eq_true,
      not_false_eq_true]
  calc before.countP (fails returns)
      = (before ++ row :: rest).countP fun r => fails returns r && decide (r.id < row.id) := by
        rw [List.countP_append, smaller, larger, Nat.add_zero]
    _ = ((db.outbox.filter fun stored => stored.dispatchedAt.isNone).map Stored.row).countP
          fun r => fails returns r && decide (r.id < row.id) := by
        rw [← split]
        exact (List.perm_insertionSort _ _).countP_eq _
    _ = ahead returns db row := by
        rw [List.countP_map, List.countP_filter, ahead]
        refine List.countP_congr fun stored _ => ?_
        simp only [Function.comp, Bool.and_eq_true]
        tauto

/-- The row is marked, and was handed over once if it was not marked before. -/
structure Delivered (before after : Db) (stored : Stored) : Prop where
  marked : ∃ now ∈ after.outbox, now.row = stored.row ∧ now.dispatchedAt ≠ none
  once : after.handed.count stored.row =
    before.handed.count stored.row + if stored.dispatchedAt = none then 1 else 0

theorem delivered_iterate_iff (keyed : db.Keyed) {stored : Stored} (mem : stored ∈ db.outbox)
    (n : Nat) :
    Delivered db ((pumped returns limit)^[n] db) stored ↔
      stored.row ∉ (Backlog.pass (fails returns) (effective limit))^[n] db.pending ∧
        (Backlog.taken (fails returns) (effective limit) n db.pending).count stored.row =
          if stored.dispatchedAt = none then 1 else 0 := by
  have there : stored.row ∈ ((pumped returns limit)^[n] db).outbox.map Stored.row := by
    rw [rows_iterate]
    exact List.mem_map_of_mem mem
  have marked := marked_iff (keyed.of_rows (rows_iterate n)) there
  rw [pending_iterate keyed] at marked
  have count : ((pumped returns limit)^[n] db).handed.count stored.row = _ :=
    count_handed_iterate keyed stored.row n
  constructor
  · rintro ⟨now, once⟩
    exact ⟨marked.mp now, by omega⟩
  · rintro ⟨gone, once⟩
    exact ⟨marked.mpr gone, by omega⟩

end Pass

/-! ### Poison rows -/

section Poison

variable {returns : OutboxRow → Except String Unit} {limit : Int} {db : Db}

theorem eventually_delivered_iff (keyed : db.Keyed) {stored : Stored} (mem : stored ∈ db.outbox)
    (ok : fails returns stored.row = false) :
    (∀ᶠ n in Filter.atTop, Delivered db ((pumped returns limit)^[n] db) stored) ↔
      (stored.dispatchedAt = none → ahead returns db stored.row < effective limit) := by
  simp only [delivered_iterate_iff keyed mem]
  by_cases undone : stored.dispatchedAt = none
  · have pending : stored.row ∈ db.pending := mem_pending.mpr ⟨stored, mem, undone, rfl⟩
    obtain ⟨before, rest, split⟩ := List.append_of_mem pending
    have distinct : (before ++ stored.row :: rest).Nodup := by
      rw [← split]
      exact .of_map OutboxRow.id keyed.pending
    have apart := List.nodup_middle.mp distinct
    rw [List.nodup_cons, List.mem_append, not_or] at apart
    rw [Filter.eventually_atTop, forall_prop_of_true undone, ← countP_before keyed split, split,
      if_pos undone]
    exact Backlog.taken_once_iff ok apart.1.1 apart.1.2
  · have settled : stored.row ∉ db.pending :=
      (marked_iff keyed (List.mem_map_of_mem mem)).mp ⟨stored, mem, rfl, undone⟩
    refine iff_of_true (.of_forall fun n => ⟨?_, ?_⟩) fun none => absurd none undone
    · exact fun left => settled ((Backlog.iterate_sublist n).subset left)
    · rw [if_neg undone]
      exact List.count_eq_zero.mpr fun taken => settled (Backlog.taken_subset n taken)

/-- After enough passes every row that can be dispatched has been, once, exactly when before none
of them there are as many failing rows as a pass takes. -/
theorem drained_iff (keyed : db.Keyed) :
    (∀ᶠ n in Filter.atTop, ∀ stored ∈ db.outbox, fails returns stored.row = false →
        Delivered db ((pumped returns limit)^[n] db) stored) ↔
      ∀ stored ∈ db.outbox, fails returns stored.row = false → stored.dispatchedAt = none →
        ahead returns db stored.row < effective limit := by
  have finite : {stored | stored ∈ db.outbox ∧ fails returns stored.row = false}.Finite :=
    (List.finite_toSet db.outbox).subset fun _ h => h.1
  have each := Filter.eventually_all_finite (l := Filter.atTop) finite
    (p := fun stored n => Delivered db ((pumped returns limit)^[n] db) stored)
  simp only [Set.mem_ofPred_eq, and_imp] at each
  rw [each]
  refine forall_congr' fun stored => forall₂_congr fun mem ok => ?_
  exact eventually_delivered_iff keyed mem ok

/-- One failing row of two, with a limit of one row. -/
def poisoned : Db where
  outbox := [⟨⟨1, "a", "e", [], 0⟩, none⟩, ⟨⟨2, "b", "e", [], 0⟩, none⟩]
  inbox := fun _ => none
  handed := []
  clock := 0

/-- The second row alone can be dispatched. -/
def returnsSecond (row : OutboxRow) : Except String Unit :=
  if row.id = 1 then .error "poison" else .ok ()

/-- With a limit of two rows the second one is dispatched. -/
theorem drained_iff_of_two : ∀ᶠ n in Filter.atTop, ∀ stored ∈ poisoned.outbox,
    fails returnsSecond stored.row = false →
      Delivered poisoned ((pumped returnsSecond 2)^[n] poisoned) stored :=
  (drained_iff (by unfold Db.Keyed; decide)).mpr (by decide)

/-- With a limit of one row it never is. -/
theorem poisoned_never : ¬∀ᶠ n in Filter.atTop, ∀ stored ∈ poisoned.outbox,
    fails returnsSecond stored.row = false →
      Delivered poisoned ((pumped returnsSecond 1)^[n] poisoned) stored := by
  intro drained
  have keyed : poisoned.Keyed := by
    unfold Db.Keyed
    decide
  have mem : ⟨⟨2, "b", "e", [], 0⟩, none⟩ ∈ poisoned.outbox := by decide
  have delivered := (eventually_delivered_iff keyed mem rfl).mp
    (drained.mono fun n each => each _ mem rfl)
  exact absurd (delivered rfl) (by decide)

end Poison

end Lazuli.Events
