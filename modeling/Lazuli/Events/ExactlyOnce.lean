import Lazuli.Events.Outbox

/-!
How often the handler of an envelope succeeds when pumps and receivers run beside each other.

Two pumps select the same rows, and a receiver asks whether an envelope was seen before its
handler runs and says so afterwards, in two statements. So two receivers can both find an
envelope unseen, and a mark that fails leaves a success that nobody knows of. Between runs that
keep receivers of an envelope apart (`Apart`) a handler succeeds once for an envelope. A row is
marked as dispatched only after its dispatch returned without an error, in any case.
-/

namespace Lazuli.Events

open Lazuli.General

/-! ### Pumps and receivers beside each other -/

inductive Role where
  | pump (limit : Int)
  | receiver
  deriving DecidableEq

def Role.program : Role → EventProgram Unit
  | .pump limit => (pumpOnce limit).map fun _ => ()
  | .receiver => receive.map fun _ => ()

abbrev Traffic := Recorded Db Nat Op.Res Unit

abbrev Step := Act Nat Answer Event

abbrev Past := List (Nat × Program.Answered Op.Res)

def Traffic.step (t : Traffic) (a : Step) : Traffic × Option (Nat × Unit) := t.act tables a

/-- The tables and the transport hold anything. -/
structure Start (roles : Nat → Role) (t : Traffic) : Prop where
  programs : ∀ i, t.threads.programs i = (roles i).program
  past : t.past = []

/-! ### The promise -/

def Succeeded (past : Past) (envelopeID : String) : Prop :=
  ∃ i row, (i, ⟨.handle row, .ok ()⟩) ∈ past ∧ row.envelopeID = envelopeID

/-- A dispatch of the row returned nil. -/
def Returned (past : Past) (id : Nat) : Prop :=
  ∃ i row, (i, ⟨.dispatchReturns row, .ok ()⟩) ∈ past ∧ row.id = id

def Once (past : Past) : Prop :=
  ∀ later i row earlier, past = later ++ (i, ⟨.handle row, .ok ()⟩) :: earlier →
    ¬ Succeeded earlier row.envelopeID

/-- `before` is the outbox that the run began with. -/
def DispatchedFirst (before outbox : List Stored) (past : Past) : Prop :=
  ∀ stored ∈ outbox, stored.dispatchedAt ≠ none →
    (∃ old ∈ before, old.row.id = stored.row.id ∧ old.dispatchedAt ≠ none) ∨
      Returned past stored.row.id

structure ExactlyOnce (before : List Stored) (t : Traffic) : Prop where
  once : Once t.past
  dispatched : DispatchedFirst before t.threads.shared.outbox t.past

/-! ### One program -/

/-- What a pump has just dispatched, or how far a receiver has come. -/
inductive Stage where
  | idle
  | delivered (id : Nat)
  | checked (envelopeID : String)
  | succeeded (envelopeID : String)
  | over
  deriving DecidableEq

/-- A pump marks what it has dispatched. A receiver handles what it has found unseen, and marks
it afterwards. -/
def programs : Program.Discipline Op.Res Stage where
  Allows k
    | .dispatchReturns _ => k = .idle ∨ ∃ id, k = .delivered id
    | .markDispatched id => k = .delivered id
    | .selectSeen _ => k = .idle
    | .handle row => k = .checked row.envelopeID
    | .insertSeen envelopeID _ => k = .succeeded envelopeID
    | _ => True
  learn k
    | .dispatchReturns row, .ok _ => .delivered row.id
    | .selectSeen envelopeID, .ok false => .checked envelopeID
    | .selectSeen _, _ => .over
    | .handle row, .ok _ => .succeeded row.envelopeID
    | .handle _, .error _ => .over
    | .insertSeen .., .ok _ => .over
    | _, _ => k

/-- When `AlreadySeen` answers no, nobody has succeeded without having marked it, and when a
handler succeeds, nobody else has just found the envelope unseen. -/
def Apart (t : Traffic) : Step → Prop
  | .outside _ => True
  | .step i a =>
      match t.threads.programs i with
      | .call (.selectSeen envelopeID) _ =>
          a.reply = .done → t.threads.shared.inbox envelopeID = none →
            ∀ j, programs.learned .idle j t.past ≠ .succeeded envelopeID
      | .call (.handle row) _ =>
          a.returned = .ok () →
            ∀ j, j ≠ i → programs.learned .idle j t.past ≠ .checked row.envelopeID
      | _ => True

section Obeys

theorem pumpRows_obeys (rows : List OutboxRow) (dispatched : Nat) {k : Stage}
    (pumping : k = .idle ∨ ∃ id, k = .delivered id) :
    (pumpRows rows dispatched).Obeys programs (fun _ _ => True) k := by
  induction rows generalizing k dispatched with
  | nil => exact trivial
  | cons row rows ih =>
      refine ⟨trivial, fun _ => ⟨pumping, ?_⟩⟩
      rintro (message | ⟨⟩)
      · exact ih dispatched pumping
      · refine ⟨rfl, ?_⟩
        rintro (message | ⟨⟩)
        · exact trivial
        · exact ih _ (.inr ⟨row.id, rfl⟩)

theorem pumpOnce_obeys (limit : Int) :
    (pumpOnce limit).Obeys programs (fun _ _ => True) .idle := by
  refine ⟨trivial, ?_⟩
  rintro (message | batch)
  · exact trivial
  · exact pumpRows_obeys batch 0 (.inl rfl)

theorem receiveRow_obeys (row : OutboxRow) :
    (receiveRow row).Obeys programs (fun _ _ => True) .idle := by
  refine ⟨rfl, ?_⟩
  rintro (message | seen | seen)
  · exact trivial
  · refine ⟨rfl, ?_⟩
    rintro (message | ⟨⟩)
    · exact trivial
    · exact ⟨rfl, fun _ => trivial⟩
  · exact trivial

theorem receive_obeys : receive.Obeys programs (fun _ _ => True) .idle := by
  refine ⟨trivial, ?_⟩
  rintro (_ | row)
  · exact trivial
  · exact receiveRow_obeys row

theorem Role.obeys (role : Role) : role.program.Obeys programs (fun _ _ => True) .idle := by
  cases role with
  | pump limit => exact .map (pumpOnce_obeys limit)
  | receiver => exact .map receive_obeys

end Obeys

/-! ### What has been done -/

section Past

variable {past : Past} {i : Nat} {op : Op} {r : op.Res} {envelopeID : String} {id : Nat}

abbrev stage (past : Past) (i : Nat) : Stage := programs.learned .idle i past

theorem stage_here (i : Nat) (op : Op) (r : op.Res) (past : Past) :
    stage ((i, ⟨op, r⟩) :: past) i = programs.learn (stage past i) op r :=
  Program.Discipline.learned_cons_self _

theorem stage_elsewhere {j : Nat} (ne : j ≠ i) (e : Program.Answered Op.Res) (past : Past) :
    stage ((i, e) :: past) j = stage past j :=
  Program.Discipline.learned_cons_of_ne (Ne.symm ne) e

/-- The operation is not a handler's success. -/
def Quiet (e : Program.Answered Op.Res) : Prop := ∀ row, e ≠ ⟨.handle row, .ok ()⟩

theorem succeeded_cons {e : Program.Answered Op.Res} (quiet : Quiet e) :
    Succeeded ((i, e) :: past) envelopeID ↔ Succeeded past envelopeID := by
  constructor
  · rintro ⟨j, row, mem, same⟩
    rcases List.mem_cons.mp mem with here | earlier
    · exact absurd (congrArg Prod.snd here).symm (quiet row)
    · exact ⟨j, row, earlier, same⟩
  · rintro ⟨j, row, mem, same⟩
    exact ⟨j, row, List.mem_cons_of_mem _ mem, same⟩

theorem succeeded_cons_handle {row : OutboxRow} :
    Succeeded ((i, ⟨.handle row, .ok ()⟩) :: past) envelopeID ↔
      row.envelopeID = envelopeID ∨ Succeeded past envelopeID := by
  constructor
  · rintro ⟨j, row', mem, same⟩
    rcases List.mem_cons.mp mem with here | earlier
    · cases here
      exact .inl same
    · exact .inr ⟨j, row', earlier, same⟩
  · rintro (same | ⟨j, row', mem, same⟩)
    · exact ⟨i, row, List.mem_cons_self, same⟩
    · exact ⟨j, row', List.mem_cons_of_mem _ mem, same⟩

theorem Returned.cons (e : Nat × Program.Answered Op.Res) (h : Returned past id) :
    Returned (e :: past) id := by
  obtain ⟨i, row, mem, same⟩ := h
  exact ⟨i, row, List.mem_cons_of_mem _ mem, same⟩

theorem Once.cons {e : Program.Answered Op.Res} (once : Once past)
    (first : ∀ row, e = ⟨.handle row, .ok ()⟩ → ¬ Succeeded past row.envelopeID) :
    Once ((i, e) :: past) := by
  intro later j row earlier split
  cases later with
  | nil =>
      obtain ⟨here, rfl⟩ := List.cons.inj split
      exact first row (congrArg Prod.snd here)
  | cons e' later =>
      obtain ⟨-, split⟩ := List.cons.inj split
      exact once later j row earlier split

/-- What a pump is about to mark, it has dispatched. -/
theorem returned_of_stage (inOrder : programs.InOrder .idle past)
    (known : stage past i = .delivered id) : Returned past id := by
  induction inOrder with
  | nil => cases known
  | @cons j e past before allowed ih =>
      obtain ⟨op, r⟩ := e
      by_cases same : j = i
      · subst same
        rw [stage_here] at known
        cases op with
        | dispatchReturns row =>
            rcases r with message | ⟨⟩
            · exact (ih known).cons _
            · exact ⟨j, row, List.mem_cons_self, Stage.delivered.inj known⟩
        | selectSeen => rcases r with message | (_ | _) <;> cases known
        | handle => rcases r with message | ⟨⟩ <;> cases known
        | insertSeen =>
            rcases r with message | ⟨⟩
            · exact (ih known).cons _
            · cases known
        | _ => exact (ih known).cons _
      · rw [stage_elsewhere (Ne.symm same)] at known
        exact (ih known).cons _

end Past

/-! ### The outbox -/

@[simp] theorem Db.outbox_insertSeen (db : Db) (envelopeID eventName : String) :
    (db.insertSeen envelopeID eventName).outbox = db.outbox := by
  unfold Db.insertSeen
  split <;> rfl

/-- Only a mark changes the outbox. -/
theorem Db.outbox_exec {op : Op} (a : Answer) {db : Db} {stored : Stored}
    (mem : stored ∈ (Db.exec op a db).1.outbox) :
    stored ∈ db.outbox ∨ ∃ id, op = .markDispatched id ∧ stored.row.id = id := by
  cases op with
  | markDispatched id =>
      rcases a.reply.perform_cases db (db.markDispatched id, ()) with same | ran
      · rw [Db.exec, same] at mem
        exact .inl mem
      · rw [Db.exec, ran, Db.markDispatched] at mem
        obtain ⟨old, there, rfl⟩ := List.mem_map.mp mem
        split
        case isTrue marked => exact .inr ⟨id, rfl, marked⟩
        case isFalse => exact .inl there
  | insertSeen envelopeID eventName =>
      rcases a.reply.perform_cases db (db.insertSeen envelopeID eventName, ()) with same | ran
      · rw [Db.exec, same] at mem
        exact .inl mem
      · rw [Db.exec, ran, Db.outbox_insertSeen] at mem
        exact .inl mem
  | _ => exact .inl (by simpa [Db.exec] using mem)

theorem Db.outbox_outside {event : Event} {db : Db} {stored : Stored}
    (mem : stored ∈ (Db.outside event db).outbox) :
    stored ∈ db.outbox ∨ stored.dispatchedAt = none := by
  cases event with
  | wait d => exact .inl mem
  | insert row =>
      simp only [Db.outside] at mem
      split at mem
      · exact .inl mem
      · rcases List.mem_append.mp mem with old | new
        · exact .inl old
        · obtain rfl := List.mem_singleton.mp new
          exact .inr rfl

/-! ### The inbox -/

theorem Db.inbox_outside (event : Event) (db : Db) : (Db.outside event db).inbox = db.inbox := by
  cases event with
  | wait d => rfl
  | insert row =>
      simp only [Db.outside]
      split <;> rfl

/-- What was marked stays marked. -/
theorem Db.inbox_exec (op : Op) (a : Answer) {db : Db} {envelopeID : String}
    (marked : (db.inbox envelopeID).isSome) :
    ((Db.exec op a db).1.inbox envelopeID).isSome := by
  cases op with
  | insertSeen other eventName =>
      rcases a.reply.perform_cases db (db.insertSeen other eventName, ()) with same | ran
      · rw [Db.exec, same]
        exact marked
      · rw [Db.exec, ran, Db.insertSeen]
        split
        · exact marked
        · by_cases same : envelopeID = other <;> simp [same, marked]
  | markDispatched id =>
      rcases a.reply.perform_cases db (db.markDispatched id, ()) with same | ran
      · rw [Db.exec, same]
        exact marked
      · rw [Db.exec, ran]
        exact marked
  | _ => simpa [Db.exec] using marked

theorem Db.inbox_insertSeen (db : Db) (envelopeID eventName : String) :
    ((db.insertSeen envelopeID eventName).inbox envelopeID).isSome := by
  cases known : db.inbox envelopeID <;> simp [Db.insertSeen, known]

/-! ### Receivers kept apart -/

/-- Nobody has found an envelope unseen that was handled with success, and such an envelope is
marked or about to be. -/
structure Apartness (past : Past) (db : Db) : Prop where
  safe : ∀ envelopeID, Succeeded past envelopeID → ∀ i, stage past i ≠ .checked envelopeID
  marked : ∀ envelopeID, Succeeded past envelopeID →
    (db.inbox envelopeID).isSome ∨ ∃ i, stage past i = .succeeded envelopeID
  once : Once past

section Apartness

variable {past : Past} {db db' : Db} {i : Nat} {e : Program.Answered Op.Res}

/-- A quiet operation must not find unseen what was handled, nor lose a success that is not
marked. -/
theorem Apartness.quiet (apart : Apartness past db) (quiet : Quiet e)
    (kept : ∀ envelopeID, (db.inbox envelopeID).isSome → (db'.inbox envelopeID).isSome)
    (checks : ∀ envelopeID, stage ((i, e) :: past) i = .checked envelopeID →
      stage past i ≠ .checked envelopeID → ¬ Succeeded past envelopeID)
    (keeps : ∀ envelopeID, stage past i = .succeeded envelopeID →
      (db'.inbox envelopeID).isSome ∨ stage ((i, e) :: past) i = .succeeded envelopeID) :
    Apartness ((i, e) :: past) db' := by
  refine ⟨?_, ?_, apart.once.cons fun row here => absurd here (quiet row)⟩
  · intro envelopeID succeeded j
    rw [succeeded_cons quiet] at succeeded
    by_cases same : j = i
    · subst same
      intro checked
      exact checks envelopeID checked (apart.safe envelopeID succeeded j) succeeded
    · rw [stage_elsewhere same]
      exact apart.safe envelopeID succeeded j
  · intro envelopeID succeeded
    rw [succeeded_cons quiet] at succeeded
    rcases apart.marked envelopeID succeeded with marked | ⟨j, known⟩
    · exact .inl (kept envelopeID marked)
    · by_cases same : j = i
      · subst same
        exact (keeps envelopeID known).imp_right fun known => ⟨j, known⟩
      · exact .inr ⟨j, by rw [stage_elsewhere same, known]⟩

/-- A handler's success, when nobody else has found the envelope unseen. -/
theorem Apartness.handle {row : OutboxRow} (apart : Apartness past db)
    (own : stage past i = .checked row.envelopeID)
    (others : ∀ j, j ≠ i → stage past j ≠ .checked row.envelopeID) :
    Apartness ((i, ⟨.handle row, .ok ()⟩) :: past) db := by
  have first : ¬ Succeeded past row.envelopeID := fun succeeded => apart.safe _ succeeded i own
  have now : stage ((i, ⟨.handle row, .ok ()⟩) :: past) i = .succeeded row.envelopeID :=
    stage_here i _ _ past
  refine ⟨?_, ?_, apart.once.cons fun row' here => ?_⟩
  · intro envelopeID succeeded j
    rw [succeeded_cons_handle] at succeeded
    by_cases same : j = i
    · rw [same, now]
      nofun
    · rw [stage_elsewhere same]
      rcases succeeded with rfl | earlier
      · exact others j same
      · exact apart.safe envelopeID earlier j
  · intro envelopeID succeeded
    rw [succeeded_cons_handle] at succeeded
    rcases succeeded with rfl | earlier
    · exact .inr ⟨i, now⟩
    · refine (apart.marked envelopeID earlier).imp_right ?_
      rintro ⟨j, known⟩
      have ne : j ≠ i := by
        rintro rfl
        cases own.symm.trans known
      exact ⟨j, by rw [stage_elsewhere ne, known]⟩
  · cases here
    exact first

theorem Apartness.selectSeen {envelopeID : String} {a : Answer} (apart : Apartness past db)
    (own : stage past i = .idle)
    (guard : a.reply = .done → db.inbox envelopeID = none → ∀ j,
      stage past j ≠ .succeeded envelopeID) :
    Apartness ((i, ⟨.selectSeen envelopeID, (Db.exec (.selectSeen envelopeID) a db).2⟩) :: past)
      (Db.exec (.selectSeen envelopeID) a db).1 := by
  apply apart.quiet
  · nofun
  · exact fun _ => Db.inbox_exec _ a
  · intro other checked _ succeeded
    rw [stage_here, own] at checked
    cases reply : a.reply with
    | done =>
        simp only [Db.exec, reply, Reply.perform_done] at checked
        cases unseen : db.inbox envelopeID with
        | some eventName =>
            rw [unseen] at checked
            cases checked
        | none =>
            rw [unseen] at checked
            obtain rfl := Stage.checked.inj checked
            rcases apart.marked envelopeID succeeded with marked | ⟨j, known⟩
            · rw [unseen] at marked
              cases marked
            · exact guard reply unseen j known
    | failed message =>
        simp only [Db.exec, reply] at checked
        cases checked
    | lost message =>
        simp only [Db.exec, reply] at checked
        cases checked
  · intro other known
    cases own.symm.trans known

theorem Apartness.insertSeen {envelopeID eventName : String} {a : Answer}
    (apart : Apartness past db) (own : stage past i = .succeeded envelopeID) :
    Apartness ((i, ⟨.insertSeen envelopeID eventName,
        (Db.exec (.insertSeen envelopeID eventName) a db).2⟩) :: past)
      (Db.exec (.insertSeen envelopeID eventName) a db).1 := by
  have marks := Db.inbox_insertSeen db envelopeID eventName
  apply apart.quiet
  · nofun
  · exact fun _ => Db.inbox_exec _ a
  · intro other checked
    rw [stage_here, own] at checked
    cases reply : a.reply <;> simp only [Db.exec, reply] at checked <;> cases checked
  · intro other known
    obtain rfl := Stage.succeeded.inj (own.symm.trans known)
    rw [stage_here, own]
    cases reply : a.reply with
    | done => exact .inl (by simp only [Db.exec, reply]; exact marks)
    | failed message => exact .inr (by simp only [Db.exec, reply]; rfl)
    | lost message => exact .inl (by simp only [Db.exec, reply]; exact marks)

theorem Apartness.exec {op : Op} {a : Answer} (apart : Apartness past db)
    (allowed : programs.Allows (stage past i) op)
    (selects : ∀ envelopeID, op = .selectSeen envelopeID → a.reply = .done →
      db.inbox envelopeID = none → ∀ j, stage past j ≠ .succeeded envelopeID)
    (handles : ∀ row, op = .handle row → a.returned = .ok () →
      ∀ j, j ≠ i → stage past j ≠ .checked row.envelopeID) :
    Apartness ((i, ⟨op, (Db.exec op a db).2⟩) :: past) (Db.exec op a db).1 := by
  cases op with
  | selectSeen envelopeID => exact apart.selectSeen allowed (selects envelopeID rfl)
  | insertSeen envelopeID eventName => exact apart.insertSeen allowed
  | handle row =>
      cases returned : a.returned with
      | ok =>
          simp only [Db.exec, returned]
          exact apart.handle allowed (handles row rfl returned)
      | error message =>
          simp only [Db.exec, returned]
          apply apart.quiet
          · nofun
          · exact fun _ marked => marked
          · intro other checked
            rw [stage_here] at checked
            cases checked
          · intro other known
            cases allowed.symm.trans known
  | dispatchReturns row =>
      apply apart.quiet
      · nofun
      · exact fun _ marked => marked
      · intro other checked
        rw [stage_here] at checked
        cases returned : a.returned with
        | ok => simp only [Db.exec, returned] at checked; cases checked
        | error message =>
            simp only [Db.exec, returned] at checked
            exact fun unchecked => absurd checked unchecked
      · intro other known
        rcases allowed with idle | ⟨id, delivered⟩
        · cases idle.symm.trans known
        · cases delivered.symm.trans known
  | _ =>
      apply apart.quiet
      · nofun
      · exact fun _ => Db.inbox_exec _ a
      · intro other checked
        rw [stage_here] at checked
        exact fun unchecked => absurd checked unchecked
      · intro other known
        rw [stage_here]
        exact .inr known

end Apartness

/-! ### Runs -/

section Runs

variable {roles : Nat → Role} {before : List Stored} {t : Traffic}

structure Inv (before : List Stored) (t : Traffic) : Prop where
  disciplined : t.Disciplined programs (fun _ _ => True) .idle
  dispatched : DispatchedFirst before t.threads.shared.outbox t.past

theorem Start.inv (start : Start roles t) : Inv t.threads.shared.outbox t where
  disciplined := by
    refine ⟨?_, start.past ▸ .nil⟩
    intro i
    rw [start.programs i, start.past]
    exact (roles i).obeys
  dispatched := fun stored mem marked => .inl ⟨stored, mem, rfl, marked⟩

theorem Start.apart (start : Start roles t) : Apartness t.past t.threads.shared where
  safe := by simp [start.past, Succeeded]
  marked := by simp [start.past, Succeeded]
  once := by simp [start.past, Once]

theorem Inv.step (inv : Inv before t) (a : Step) : Inv before (t.step a).1 := by
  refine ⟨inv.disciplined.act (M := tables) a, ?_⟩
  cases a with
  | outside event =>
      intro stored mem marked
      rcases Db.outbox_outside mem with old | new
      · exact inv.dispatched stored old marked
      · exact absurd new marked
  | step i a =>
      cases hp : t.threads.programs i with
      | done result =>
          have still : t.step (.step i a) = (t, none) := Recorded.act_done hp
          rw [still]
          exact inv.dispatched
      | call op rest =>
          have own := inv.disciplined.programs i
          rw [hp] at own
          have ran : (t.step (.step i a)).1 = _ := Recorded.act_call hp
          rw [ran]
          intro stored mem marked
          rcases Db.outbox_exec a mem with old | ⟨id, rfl, rfl⟩
          · exact (inv.dispatched stored old marked).imp_right fun returned => returned.cons _
          · exact .inr ((returned_of_stage inv.disciplined.past own.1).cons _)

theorem Inv.apart (inv : Inv before t) (apart : Apartness t.past t.threads.shared) {a : Step}
    (guard : Apart t a) : Apartness (t.step a).1.past (t.step a).1.threads.shared := by
  cases a with
  | outside event =>
      refine ⟨apart.safe, ?_, apart.once⟩
      intro envelopeID succeeded
      rw [show (t.step (.outside event)).1.threads.shared.inbox = t.threads.shared.inbox from
        Db.inbox_outside event _]
      exact apart.marked envelopeID succeeded
  | step i a =>
      cases hp : t.threads.programs i with
      | done result =>
          have still : t.step (.step i a) = (t, none) := Recorded.act_done hp
          rw [still]
          exact apart
      | call op rest =>
          have own := inv.disciplined.programs i
          rw [hp] at own
          have ran : (t.step (.step i a)).1 = _ := Recorded.act_call hp
          simp only [Apart, hp] at guard
          rw [ran]
          apply apart.exec own.1
          · rintro envelopeID rfl
            exact guard
          · rintro row rfl
            exact guard

/-- **Exactly once**, in a run that keeps the receivers of an envelope apart. -/
theorem exactly_once (roles : Nat → Role) (t : Traffic) (start : Start roles t) (as : List Step)
    (apart : Along Traffic.step Apart t as) :
    ExactlyOnce t.threads.shared.outbox (runState Traffic.step t as) := by
  have kept := apart.inv (fun t a (inv : Inv _ t ∧ Apartness t.past t.threads.shared) guard =>
    ⟨inv.1.step a, inv.1.apart inv.2 guard⟩) ⟨start.inv, start.apart⟩
  exact ⟨kept.2.once, kept.1.dispatched⟩

end Runs

/-! ### One row -/

def charged : OutboxRow := ⟨1, "env-1", "payment_charged", [], 0⟩

/-- Two pumps and receivers. -/
def billingRoles : Nat → Role
  | 0 | 1 => .pump 10
  | _ => .receiver

def oneCharge : Traffic :=
  { threads :=
      { shared := { outbox := [⟨charged, none⟩], inbox := fun _ => none, handed := [], clock := 0 }
        programs := fun i => (billingRoles i).program }
    past := [] }

def succeeds (delivery : Nat) : Answer := ⟨.done, .ok (), delivery⟩

/-- A pump and a receiver, then another receiver. -/
def onePump : List Step :=
  List.replicate 4 (.step 0 (succeeds 0)) ++ List.replicate 4 (.step 2 (succeeds 0)) ++
    List.replicate 2 (.step 3 (succeeds 0))

theorem exactly_once_charged :
    ExactlyOnce oneCharge.threads.shared.outbox (runState Traffic.step oneCharge onePump) ∧
      billingRoles 0 = .pump 10 := by
  refine ⟨exactly_once billingRoles oneCharge ⟨fun _ => rfl, rfl⟩ onePump ⟨trivial, trivial, trivial,
    trivial, trivial, ?_, ?_, trivial, trivial, ?_, trivial⟩, rfl⟩
  · rintro - - (_ | _ | _ | _ | j) <;> nofun
  · rintro - (_ | _ | _ | _ | j) ne <;> first | exact absurd rfl ne | nofun
  · rintro - - (_ | _ | _ | _ | j) <;> nofun

/-- Both pumps select the row, and two receivers find the envelope unseen. -/
def twoPumps : List Step :=
  [.step 0 (succeeds 0), .step 1 (succeeds 0)] ++ List.replicate 2 (.step 0 (succeeds 0)) ++
    List.replicate 2 (.step 1 (succeeds 0)) ++ List.replicate 2 (.step 2 (succeeds 0)) ++
    List.replicate 2 (.step 3 (succeeds 1)) ++ [.step 2 (succeeds 0), .step 3 (succeeds 0)]

theorem two_pumps_handle_twice :
    ¬ ∀ (roles : Nat → Role) (t : Traffic), Start roles t →
      ∀ as, ExactlyOnce t.threads.shared.outbox (runState Traffic.step t as) := by
  intro promise
  have once := (promise billingRoles oneCharge ⟨fun _ => rfl, rfl⟩ twoPumps).once
  exact once [] 3 charged _ rfl ⟨2, charged, .head _, rfl⟩

end Lazuli.Events
