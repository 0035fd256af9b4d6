import Lazuli.Poller.Table

/-!
Who publishes the terminal events of a row.

A terminal commit asks for the attempts counter but does not change it, and `ResolveOne`
publishes whatever number of rows its commit affected. So two calls that have loaded the row
with the same counter can both resolve it, and a call that came too late publishes all the
same. In a run in which every terminal commit finds the row unresolved and with the counter
that its call has loaded (`Clean`), one call at most publishes.
-/

namespace Lazuli.Poller

open Lazuli.General

variable {V Row R : Type}

/-! ### The promise -/

abbrev Race (V Row R : Type) :=
  Recorded (Db V) Nat (Op.Res : Op V Row R → Type) (Except PollError Unit)

abbrev Step (R : Type) := Act Nat (Answer R) Nat

abbrev Past (V Row R : Type) := List (Nat × Program.Answered (Op.Res : Op V Row R → Type))

def Race.step (columns : Columns V R) (r : Race V Row R) (a : Step R) :
    Race V Row R × Option (Nat × Except PollError Unit) :=
  r.act (dbMachine Row columns) a

/-- Any number of calls on one row, and a database in any state. -/
structure Start (columns : Columns V R) (h : Handle V Row R) (bus : Bool) (id : String)
    (r : Race V Row R) : Prop where
  programs : ∀ i, r.threads.programs i = resolveOne columns h bus id
  past : r.past = []

def isPublish : Op V Row R → Bool
  | .publish .. => true
  | _ => false

/-- The number of rows that a commit reports. -/
def commitRows : Program.Answered (Op.Res : Op V Row R → Type) → Option Nat
  | ⟨.commitTerminal .., .ok rows⟩ => some rows
  | ⟨.commitPending .., .ok rows⟩ => some rows
  | _ => none

def Publishes (past : Past V Row R) (i : Nat) : Prop :=
  ∃ e, (i, e) ∈ past ∧ isPublish e.op = true

structure ResolvedOnce (past : Past V Row R) : Prop where
  once : ∀ i j, Publishes past i → Publishes past j → i = j
  unaffected : ∀ i e, (i, e) ∈ past → commitRows e = some 0 → ¬ Publishes past i

/-- A terminal commit that will be followed by events finds the row as its call has loaded
it. -/
def Clean (h : Handle V Row R) (bus : Bool) (r : Race V Row R) : Step R → Prop
  | .outside _ => True
  | .step i choice =>
      match r.threads.programs i with
      | .call (.commitTerminal table _ id attempts ..) _ =>
          bus = true → h.spec.emits ≠ [] → choice.reply = .done →
            ∃ raw, r.threads.shared.rows table id = some raw ∧ raw.resolvedAt = none ∧
              raw.attempts = attempts
      | _ => True

/-! ### One call -/

/-- How far a call has come: it may still commit, its terminal commit has reported a number of
rows, or nothing is left to do. -/
inductive Progress where
  | running
  | terminal (rows : Nat)
  | over
  deriving DecidableEq

/-- A call commits once, on its own row, and publishes after a terminal commit. -/
def discipline (h : Handle V Row R) (bus : Bool) (id : String) :
    Program.Discipline (Op.Res : Op V Row R → Type) Progress where
  Allows k
    | .publish event .. => bus = true ∧ event ∈ h.spec.emits ∧ ∃ rows, k = .terminal rows
    | .commitTerminal table _ row .. => k = .running ∧ table = h.spec.source ∧ row = id
    | .commitPending .. => k = .running
    | _ => True
  learn k
    | .commitTerminal .., .ok rows => .terminal rows
    | .commitTerminal .., .error _ => .over
    | .commitPending .., _ => .over
    | _, _ => k

section Obeys

variable {columns : Columns V R} {h : Handle V Row R} {bus : Bool} {id : String}

theorem publishAll_obeys {status : String} {rows : Nat} (on : bus = true) {events : List String}
    (declared : events ⊆ h.spec.emits) :
    (publishAll id status events : PollProgram V Row R _).Obeys (discipline h bus id)
      (fun _ _ => True) (.terminal rows) := by
  induction events with
  | nil => exact trivial
  | cons event events ih =>
      have rest := ih fun e he => declared (List.mem_cons_of_mem event he)
      exact ⟨⟨on, declared List.mem_cons_self, rows, rfl⟩, fun _ => rest⟩

theorem commitTerminal_obeys (attempts : Nat) (terminal : TerminalResult R) :
    (commitTerminal h bus id attempts terminal).Obeys (discipline h bus id)
      (fun _ _ => True) .running := by
  refine ⟨⟨rfl, rfl, rfl⟩, ?_⟩
  rintro (message | rows)
  · exact trivial
  · cases hbus : bus with
    | true => exact publishAll_obeys rfl (List.Subset.refl _)
    | false => exact trivial

theorem commitPending_obeys (attempts : Nat) (delay : Int)
    (answer : Except PollError Unit → Except PollError Unit) :
    ((commitPending h id attempts delay).map answer).Obeys (discipline h bus id)
      (fun _ _ => True) .running := by
  refine ⟨rfl, ?_⟩
  rintro (message | rows) <;> exact trivial

theorem settle_obeys (attempts : Nat) (res : Except String (ResolveResult R)) :
    (settle h bus id attempts res).Obeys (discipline h bus id) (fun _ _ => True) .running := by
  have pending (delay : Int) : (commitPending h id attempts delay).Obeys (discipline h bus id)
      (fun _ _ => True) .running := by
    refine ⟨rfl, ?_⟩
    rintro (message | rows) <;> exact trivial
  match res with
  | .error message => exact commitPending_obeys attempts _ _
  | .ok ⟨some terminal, _⟩ => exact commitTerminal_obeys attempts terminal
  | .ok ⟨none, some ⟨_, none, _⟩⟩ => exact pending _
  | .ok ⟨none, some ⟨_, some nextCheckAt, _⟩⟩ => exact ⟨trivial, fun now => pending _⟩
  | .ok ⟨none, none⟩ => exact trivial

theorem resolveRow_obeys (raw : Raw V) :
    (resolveRow h bus id raw).Obeys (discipline h bus id) (fun _ _ => True) .running := by
  unfold resolveRow
  split
  · exact trivial
  · exact ⟨trivial, fun res => settle_obeys _ res⟩

theorem applyQuirks_obeys (quirks : List GenderFlipOnce) (raw : Raw V) :
    (applyQuirks columns h id quirks raw).Obeys (discipline h bus id) (fun k _ => k = .running)
      .running := by
  induction quirks generalizing raw with
  | nil => exact rfl
  | cons quirk quirks ih =>
      unfold applyQuirks
      split
      · refine ⟨trivial, fun _ => ⟨trivial, ?_⟩⟩
        rintro (message | fresh)
        · exact ih raw
        · exact ih fresh
      · exact ih raw

theorem resolveOne_obeys :
    (resolveOne columns h bus id).Obeys (discipline h bus id) (fun _ _ => True) .running := by
  refine ⟨trivial, ?_⟩
  rintro (message | raw)
  · exact trivial
  · apply (applyQuirks_obeys h.spec.retryQuirks raw).bind
    rintro _ raw rfl
    exact resolveRow_obeys raw

/-! ### What the answers tell -/

variable {past : Past V Row R} {i : Nat} {e : Program.Answered (Op.Res : Op V Row R → Type)}

abbrev progress (h : Handle V Row R) (bus : Bool) (id : String) (past : Past V Row R) (i : Nat) :
    Progress := (discipline h bus id).learned .running i past

/-- What was known of a call before it published or committed. -/
structure Told (h : Handle V Row R) (bus : Bool) (id : String) (past : Past V Row R) (i : Nat)
    (e : Program.Answered (Op.Res : Op V Row R → Type)) : Prop where
  published : isPublish e.op = true → bus = true ∧ h.spec.emits ≠ [] ∧
    ∃ rows, progress h bus id past i = .terminal rows
  committed : ∀ rows, commitRows e = some rows → progress h bus id past i = .over ∨
    progress h bus id past i = .terminal rows

theorem Told.here (allowed : (discipline h bus id).Allows (progress h bus id past i) e.op) :
    Told h bus id ((i, e) :: past) i e := by
  obtain ⟨op, r⟩ := e
  constructor
  · intro publish
    rw [progress, Program.Discipline.learned_cons_self]
    cases op with
    | publish event row status =>
        obtain ⟨on, mem, rows, known⟩ := allowed
        exact ⟨on, List.ne_nil_of_mem mem, rows, known⟩
    | _ => cases publish
  · intro rows reported
    rw [progress, Program.Discipline.learned_cons_self]
    cases op with
    | commitTerminal =>
        cases r with
        | error message => cases reported
        | ok n =>
            obtain rfl := Option.some.inj reported
            exact .inr rfl
    | commitPending => exact .inl rfl
    | _ => cases reported

/-- A later operation of the call does not take it back. -/
theorem Told.later {op : Op V Row R} {r : op.Res} {j : Nat} (told : Told h bus id past i e)
    (allowed : (discipline h bus id).Allows (progress h bus id past j) op)
    (settled : isPublish e.op = true ∨ (commitRows e).isSome) :
    Told h bus id ((j, ⟨op, r⟩) :: past) i e := by
  by_cases same : j = i
  · subst same
    have ended : progress h bus id past j ≠ .running := by
      rcases settled with publish | commit
      · obtain ⟨-, -, rows, known⟩ := told.published publish
        rw [known]
        nofun
      · obtain ⟨rows, reported⟩ := Option.isSome_iff_exists.mp commit
        rcases told.committed rows reported with known | known <;> rw [known] <;> nofun
    have kept : progress h bus id ((j, ⟨op, r⟩) :: past) j = progress h bus id past j := by
      rw [progress, Program.Discipline.learned_cons_self]
      cases op with
      | commitTerminal => exact absurd allowed.1 ended
      | commitPending => exact absurd allowed ended
      | _ => rfl
    exact ⟨fun publish => kept ▸ told.published publish, fun rows reported =>
      kept ▸ told.committed rows reported⟩
  · have kept : progress h bus id ((j, ⟨op, r⟩) :: past) i = progress h bus id past i :=
      Program.Discipline.learned_cons_of_ne same _
    exact ⟨fun publish => kept ▸ told.published publish, fun rows reported =>
      kept ▸ told.committed rows reported⟩

theorem told_of_inOrder (inOrder : (discipline h bus id).InOrder .running past)
    (mem : (i, e) ∈ past) (settled : isPublish e.op = true ∨ (commitRows e).isSome) :
    Told h bus id past i e := by
  induction inOrder with
  | nil => cases mem
  | cons before allowed ih =>
      rcases List.mem_cons.mp mem with here | earlier
      · cases here
        exact .here allowed
      · exact (ih earlier).later allowed settled

end Obeys

/-! ### Runs -/

section Runs

variable {columns : Columns V R} {h : Handle V Row R} {bus : Bool} {id : String}
  {r : Race V Row R}

/-- One call at most has a terminal commit behind it; it affected the row, which is resolved. -/
structure Settled (h : Handle V Row R) (bus : Bool) (id : String) (r : Race V Row R) : Prop where
  resolved : ∀ i rows, progress h bus id r.past i = .terminal rows → rows = 1 ∧
    ∃ raw, r.threads.shared.rows h.spec.source id = some raw ∧ raw.resolvedAt ≠ none
  unique : ∀ i j n m, progress h bus id r.past i = .terminal n →
    progress h bus id r.past j = .terminal m → i = j

/-- Whatever is done, a resolved row stays resolved. -/
theorem resolved_exec {db : Db V} {table row : String} (op : Op V Row R) (a : Answer R)
    (h : ∃ raw, db.rows table row = some raw ∧ raw.resolvedAt ≠ none) :
    ∃ raw, (Db.exec columns op a db).1.rows table row = some raw ∧ raw.resolvedAt ≠ none := by
  obtain ⟨raw, found, resolved⟩ := h
  obtain ⟨raw', found', later⟩ := Db.later_exec op a found
  exact ⟨raw', found', later.resolved resolved⟩

/-- A terminal commit that is answered has affected the row with the counter asked for. -/
theorem terminal_exec {db : Db V} {table row statusField resultField : String} {cursor : Cursor}
    {attempts rows : Nat} {terminal : TerminalResult R} {a : Answer R} {raw : Raw V}
    (found : db.rows table row = some raw) (same : raw.attempts = attempts)
    (answered : (Db.exec columns (.commitTerminal table cursor row attempts statusField
      resultField terminal : Op V Row R) a db).2 = .ok rows) :
    rows = 1 ∧ ∃ raw, (Db.exec columns (.commitTerminal table cursor row attempts statusField
      resultField terminal : Op V Row R) a db).1.rows table row = some raw ∧
        raw.resolvedAt ≠ none := by
  rw [Db.exec_commitTerminal] at answered ⊢
  obtain ⟨-, ran⟩ := Reply.perform_ok answered
  rw [ran] at answered ⊢
  simp only [Db.update, found, Option.bind_some, Db.terminalUpdate, same, if_true] at answered ⊢
  exact ⟨(Except.ok.inj answered).symm, _, Db.setRow_self .., Option.some_ne_none _⟩

/-- What another operation than an answered terminal commit lets one know is no commit. -/
theorem learn_terminal {k : Progress} {op : Op V Row R} {r : op.Res} {n : Nat}
    (learnt : (discipline h bus id).learn k op r = .terminal n) :
    k = .terminal n ∨ ∃ table cursor row attempts statusField resultField terminal,
      (⟨op, r⟩ : Program.Answered _) =
        ⟨.commitTerminal table cursor row attempts statusField resultField terminal, .ok n⟩ := by
  cases op with
  | commitTerminal table cursor row attempts statusField resultField terminal =>
      cases r with
      | error message => cases learnt
      | ok rows =>
          cases learnt
          exact .inr ⟨_, _, _, _, _, _, _, rfl⟩
  | commitPending => cases learnt
  | _ => exact .inl learnt

theorem Settled.step (settled : Settled h bus id r) (on : bus = true) (events : h.spec.emits ≠ [])
    (disciplined : r.Disciplined (discipline h bus id) (fun _ _ => True) .running) (a : Step R)
    (clean : Clean h bus r a) : Settled h bus id (r.step columns a).1 := by
  cases a with
  | outside event => exact ⟨settled.resolved, settled.unique⟩
  | step i choice =>
      cases hp : r.threads.programs i with
      | done a =>
          have still : r.step columns (.step i choice) = (r, none) := Recorded.act_done hp
          rw [still]
          exact settled
      | call op rest =>
          have ran : (r.step columns (.step i choice)).1 = _ :=
            Recorded.act_call (M := dbMachine Row columns) hp
          have own := disciplined.programs i
          rw [hp] at own
          have known {j : Nat} {n : Nat}
              (now : progress h bus id (r.step columns (.step i choice)).1.past j =
                .terminal n) : progress h bus id r.past j = .terminal n ∨ j = i ∧ n = 1 ∧
              (∀ k m, progress h bus id r.past k ≠ .terminal m) ∧
              ∃ raw, (r.step columns (.step i choice)).1.threads.shared.rows h.spec.source id =
                some raw ∧ raw.resolvedAt ≠ none := by
            rw [ran] at now ⊢
            by_cases same : i = j
            · subst same
              rw [progress, Program.Discipline.learned_cons_self] at now
              rcases learn_terminal now with before | ⟨_, _, _, _, _, _, _, commit⟩
              · exact .inl before
              · obtain ⟨rfl, answered⟩ := Program.Answered.mk.inj commit
                obtain ⟨-, rfl, rfl⟩ := own.1
                have answered := eq_of_heq answered
                have replied : choice.reply = .done := (Reply.perform_ok answered).1
                simp only [Clean, hp] at clean
                obtain ⟨raw, found, unresolved, counter⟩ := clean on events replied
                obtain ⟨rfl, resolved⟩ := terminal_exec found counter answered
                refine .inr ⟨rfl, rfl, ?_, resolved⟩
                -- a commit that came before would have resolved the row
                intro k m before
                obtain ⟨-, raw', found', resolved'⟩ := settled.resolved k m before
                obtain rfl := Option.some.inj (found.symm.trans found')
                exact resolved' unresolved
            · rw [progress, Program.Discipline.learned_cons_of_ne same] at now
              exact .inl now
          constructor
          · intro j rows now
            rcases known now with before | ⟨-, one, -, resolved⟩
            · obtain ⟨one, resolved⟩ := settled.resolved j rows before
              refine ⟨one, ?_⟩
              rw [ran]
              exact resolved_exec op choice resolved
            · exact ⟨one, resolved⟩
          · intro j k n m hj hk
            rcases known hj with before | ⟨rfl, -, first, -⟩
            · rcases known hk with before' | ⟨rfl, -, first, -⟩
              · exact settled.unique j k n m before before'
              · exact absurd before (first j n)
            · rcases known hk with before' | ⟨rfl, -, -, -⟩
              · exact absurd before' (first k m)
              · rfl

/-- Calls keep to the discipline, and while there is something to publish they are settled. -/
structure Inv (h : Handle V Row R) (bus : Bool) (id : String) (r : Race V Row R) : Prop where
  disciplined : r.Disciplined (discipline h bus id) (fun _ _ => True) .running
  settled : bus = true → h.spec.emits ≠ [] → Settled h bus id r

theorem Start.inv (start : Start columns h bus id r) : Inv h bus id r := by
  have running (i : Nat) : progress h bus id r.past i = .running := by
    rw [progress, start.past]
    rfl
  refine ⟨⟨?_, ?_⟩, fun _ _ => ⟨?_, ?_⟩⟩
  · intro i
    show (r.threads.programs i).Obeys _ _ (progress h bus id r.past i)
    rw [start.programs i, running i]
    exact resolveOne_obeys
  · rw [start.past]
    exact .nil
  · intro i rows known
    rw [running i] at known
    cases known
  · intro i j n m known
    rw [running i] at known
    cases known

theorem Inv.resolvedOnce (inv : Inv h bus id r) : ResolvedOnce r.past := by
  have published {i : Nat} (publishes : Publishes r.past i) :
      bus = true ∧ h.spec.emits ≠ [] ∧ ∃ rows, progress h bus id r.past i = .terminal rows := by
    obtain ⟨e, mem, publish⟩ := publishes
    exact (told_of_inOrder inv.disciplined.past mem (.inl publish)).published publish
  constructor
  · intro i j hi hj
    obtain ⟨on, events, n, known⟩ := published hi
    obtain ⟨-, -, m, known'⟩ := published hj
    exact (inv.settled on events).unique i j n m known known'
  · intro i e mem zero publishes
    obtain ⟨on, events, n, known⟩ := published publishes
    obtain ⟨one, -⟩ := (inv.settled on events).resolved i n known
    rcases (told_of_inOrder inv.disciplined.past mem (.inr (by rw [zero]; rfl))).committed 0 zero
      with other | other
    · rw [known] at other
      cases other
    · rw [known, one] at other
      cases other

/-- **One call resolves a row.** In a run in which every terminal commit finds the row as its
call has loaded it, one call at most publishes, and none whose commit affected no row. -/
theorem resolved_once (columns : Columns V R) (h : Handle V Row R) (bus : Bool) (id : String)
    (r : Race V Row R) (start : Start columns h bus id r) (as : List (Step R))
    (clean : Along (Race.step columns) (Clean h bus) r as) :
    ResolvedOnce (runState (Race.step columns) r as).past := by
  apply Inv.resolvedOnce
  apply clean.inv _ start.inv
  intro r a inv clean
  exact ⟨inv.disciplined.act a, fun on events =>
    (inv.settled on events).step on events inv.disciplined a clean⟩

end Runs

/-! ### Two schedulers on one row -/

def twoSchedulers : Race String (Raw String) String :=
  { threads :=
      { shared := { rows := fun _ _ => some consult, clock := 0 }
        programs := fun _ => resolveOne textColumns v8Handle true "c1" }
    past := [] }

def completed : Answer String := ⟨.done, .ok ⟨some ⟨"completed", "1200"⟩, none⟩⟩

def queued : Answer String := ⟨.done, .ok ⟨none, some ⟨"queued", none, none⟩⟩⟩

/-- Both load the row; the one that resolves it comes first. -/
def oneResolves : List (Step String) :=
  [.step 0 completed, .step 1 queued, .step 0 completed, .step 1 queued, .step 0 completed,
    .step 1 queued, .step 0 completed]

theorem resolved_once_consult :
    ResolvedOnce (runState (Race.step textColumns) twoSchedulers oneResolves).past ∧
      v8Handle.spec.emits ≠ [] :=
  ⟨resolved_once textColumns v8Handle true "c1" twoSchedulers ⟨fun _ => rfl, rfl⟩ oneResolves
    ⟨trivial, trivial, trivial, trivial, fun _ _ _ => ⟨consult, rfl, rfl, rfl⟩, trivial, trivial,
      trivial⟩, by decide⟩

/-- Both handlers find the consult completed. -/
def bothResolve : List (Step String) :=
  [.step 0 completed, .step 1 completed, .step 0 completed, .step 1 completed, .step 0 completed,
    .step 1 completed, .step 0 completed, .step 1 completed]

theorem both_schedulers_publish :
    ¬ ∀ (columns : Columns String String) (h : Handle String (Raw String) String) (bus : Bool)
      (id : String) (r : Race String (Raw String) String), Start columns h bus id r →
        ∀ as, ResolvedOnce (runState (Race.step columns) r as).past := by
  intro promise
  have once := (promise textColumns v8Handle true "c1" twoSchedulers ⟨fun _ => rfl, rfl⟩
    bothResolve).once
  have published (i : Nat) (two : i < 2) :
      Publishes (runState (Race.step textColumns) twoSchedulers bothResolve).past i := by
    refine ⟨⟨.publish "consult_resolved" "c1" "completed", .ok ()⟩, ?_, rfl⟩
    match i, two with
    | 0, _ => exact .tail _ (.head _)
    | 1, _ => exact .head _
  exact absurd (once 0 1 (published 0 (by decide)) (published 1 (by decide))) (by decide)

end Lazuli.Poller
