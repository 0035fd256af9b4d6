import Lazuli.Poller.Table
import Mathlib.Data.List.Dedup

/-!
How often a scheduler invokes the handler on a row (`Scheduler.runOne` in
`runtime/go/lazuli/poller/dispatcher.go`).

One scheduler runs by itself and no statement fails, so a `ResolveOne` is one step. It counts
every way a handler can end except an empty result, and nobody asks for `MaxAttempts`. Without
empty results, and while no row is resolved whose counter has come to `MaxAttempts`
(`Counted`), every invocation counts and `MaxAttempts` bounds them.
-/

namespace Lazuli.Poller

open Lazuli.General

variable {V Row R : Type}

/-! ### The scheduler -/

/-- What the handler returns, and the time that goes by before each operation. -/
structure Turn (R : Type) where
  handled : Except String (ResolveResult R)
  delays : Nat → Nat

def Turn.choices (turn : Turn R) (n : Nat) : Nat × Except String (ResolveResult R) :=
  (turn.delays n, turn.handled)

/-- No statement fails. -/
def calmExec (columns : Columns V R) (op : Op V Row R)
    (choice : Nat × Except String (ResolveResult R)) (db : Db V) : Db V × op.Res :=
  Db.exec columns op ⟨.done, choice.2⟩ (db.outside choice.1)

/-- A finished `ResolveOne`: the row before and after it, and what it has done. -/
structure Resolution (V Row R : Type) where
  id : String
  before : Option (Raw V)
  after : Option (Raw V)
  trace : List (Program.Answered (Op.Res : Op V Row R → Type))

/-- The queue holds the rest of the batch that is worked on. -/
structure Scheduler (V Row R : Type) where
  db : Db V
  queue : List String
  log : List (Resolution V Row R)

inductive Event (R : Type) where
  | wait (d : Nat)
  | tick (picked : List String)
  | resolve (turn : Turn R)

def Db.eligible (db : Db V) (table id : String) : Bool :=
  match db.rows table id with
  | some raw => raw.resolvedAt.isNone && decide (raw.nextAt ≤ db.clock)
  | none => false

/-- Which of the eligible rows come first is up to the database. -/
def Db.selectEligibleIDs (db : Db V) (table : String) (batch : Nat) (picked : List String) :
    List String :=
  ((picked.filter (db.eligible table)).dedup).take batch

def Tick.batchSize (tick : Tick) : Nat := if tick.batch = 0 then 100 else tick.batch

section Scheduler

variable (columns : Columns V R) (h : Handle V Row R) (bus : Bool)

def resolveAlone (id : String) (turn : Turn R) (db : Db V) :
    Db V × List (Program.Answered (Op.Res : Op V Row R → Type)) × Except PollError Unit :=
  (resolveOne columns h bus id).alone (calmExec columns) turn.choices db

/-- Ticks are not taken while a batch is worked on. -/
def Scheduler.step (s : Scheduler V Row R) : Event R → Scheduler V Row R × Unit
  | .wait d => ({ s with db := s.db.outside d }, ())
  | .tick picked =>
      match s.queue with
      | [] =>
          let ids := s.db.selectEligibleIDs h.spec.source h.spec.tick.batchSize picked
          ({ s with queue := ids }, ())
      | _ :: _ => (s, ())
  | .resolve turn =>
      match s.queue with
      | [] => (s, ())
      | id :: queue =>
          let ran := resolveAlone columns h bus id turn s.db
          let before := s.db.rows h.spec.source id
          let after := ran.1.rows h.spec.source id
          ({ db := ran.1, queue := queue, log := ⟨id, before, after, ran.2.1⟩ :: s.log }, ())

end Scheduler

/-! ### The promise -/

def isResolve : Op V Row R → Bool
  | .resolve _ => true
  | _ => false

def Resolution.invocations (e : Resolution V Row R) : Nat :=
  e.trace.countP fun answered => isResolve answered.op

/-- How often the handler was invoked on a row. -/
def invocations (id : String) (log : List (Resolution V Row R)) : Nat :=
  ((log.filter fun e => e.id = id).flatMap Resolution.trace).countP fun answered =>
    isResolve answered.op

def Resolution.Advances (e : Resolution V Row R) : Prop :=
  ∃ before after, e.before = some before ∧ e.after = some after ∧
    (before.resolvedAt = none ∧ after.resolvedAt ≠ none ∨ after.attempts = before.attempts + 1)

structure Bounded (retry : Retry) (log : List (Resolution V Row R)) : Prop where
  advances : ∀ e ∈ log, 0 < e.invocations → e.Advances
  bounded : 0 < retry.maxAttempts → ∀ id, invocations id log ≤ retry.maxAttempts

/-- The handler returns no empty result, and the row has attempts left. -/
def Counted (h : Handle V Row R) (s : Scheduler V Row R) : Event R → Prop
  | .resolve turn =>
      turn.handled ≠ .ok ⟨none, none⟩ ∧
        ∀ id raw, s.queue.head? = some id → s.db.rows h.spec.source id = some raw →
          0 < h.spec.retry.maxAttempts → raw.attempts < h.spec.retry.maxAttempts
  | _ => True

/-! ### A call alone -/

section Alone

variable {columns : Columns V R} {h : Handle V Row R} {bus : Bool} {id table : String}
  {choices : Nat → Nat × Except String (ResolveResult R)} {db : Db V} {raw : Raw V}

/-- The row is now `raw`, the other rows of the table are as they were, and the handler was
invoked `n` times. -/
structure Leaves (table id : String) (db : Db V) (raw : Raw V) (n : Nat) {α : Type}
    (ran : Db V × List (Program.Answered (Op.Res : Op V Row R → Type)) × α) : Prop where
  row : ran.1.rows table id = some raw
  others : ∀ other, other ≠ id → ran.1.rows table other = db.rows table other
  invoked : ran.2.1.countP (fun answered => isResolve answered.op) = n

theorem calm_loadRow {d : Nat} {handled : Except String (ResolveResult R)}
    (found : (db.outside d).rows table id = some raw) :
    calmExec columns (.loadRow table id : Op V Row R) (d, handled) db =
      (db.outside d, .ok raw) := by
  simp only [calmExec, Db.exec, Db.load, found, Option.elim_some]

theorem Leaves.done {α : Type} (found : db.rows table id = some raw) (a : α) :
    Leaves table id db raw 0 ((.done a : PollProgram V Row R α).alone (calmExec columns) choices db)
    where
  row := found
  others := fun _ _ => rfl
  invoked := rfl

theorem Leaves.call {α : Type} {op : Op V Row R} {rest : op.Res → PollProgram V Row R α}
    {db' : Db V} {r : op.Res} {n m : Nat} (ran : calmExec columns op (choices 0) db = (db', r))
    (here : ∀ other, other ≠ id → db'.rows table other = db.rows table other)
    (later : Leaves table id db' raw n
      ((rest r).alone (calmExec columns) (fun n => choices (n + 1)) db'))
    (count : m = n + if isResolve op then 1 else 0) :
    Leaves table id db raw m ((Program.call op rest).alone (calmExec columns) choices db) where
  row := by rw [Program.alone_call_of_exec _ _ _ ran, later.row]
  others := by
    intro other ne
    rw [Program.alone_call_of_exec _ _ _ ran, later.others other ne, here other ne]
  invoked := by
    rw [Program.alone_call_of_exec _ _ _ ran, List.countP_cons, later.invoked, count]

theorem leaves_publishAll (found : db.rows table id = some raw) (status : String)
    (events : List String) :
    Leaves table id db raw 0 ((publishAll id status events :
      PollProgram V Row R _).alone (calmExec columns) choices db) := by
  induction events generalizing db choices with
  | nil => exact .done found _
  | cons event events ih =>
      rw [publishAll]
      exact .call rfl (fun _ _ => rfl) (ih found) rfl

theorem leaves_commitPending (found : db.rows h.spec.source id = some raw) (delay : Int) :
    ∃ raw', raw'.attempts = raw.attempts + 1 ∧ Leaves h.spec.source id db raw' 0
      ((commitPending h id raw.attempts delay).alone (calmExec columns) choices db) := by
  let later := db.outside (choices 0).1
  have found' : later.rows h.spec.source id = some raw := found
  let update : Raw V → Option (Raw V) := Db.pendingUpdate raw.attempts delay later.clock
  obtain ⟨raw', updates, counted⟩ : ∃ raw', update raw = some raw' ∧
      raw'.attempts = raw.attempts + 1 := ⟨_, if_pos rfl, rfl⟩
  have updated := Db.rows_update_self found' update
  rw [updates, Option.getD_some] at updated
  refine ⟨raw', counted, ?_⟩
  rw [commitPending]
  exact .call rfl (fun other ne => Db.rows_update_of_ne later _ ne) (.done updated _) rfl

theorem leaves_commitTerminal (bus : Bool) (found : db.rows h.spec.source id = some raw)
    (terminal : TerminalResult R) :
    ∃ raw', raw'.resolvedAt ≠ none ∧ Leaves h.spec.source id db raw' 0
      ((commitTerminal h bus id raw.attempts terminal).alone (calmExec columns) choices db) := by
  let later := db.outside (choices 0).1
  have found' : later.rows h.spec.source id = some raw := found
  let update := Db.terminalUpdate columns h.spec.terminalStatusField h.spec.terminalResultField
    terminal raw.attempts later.clock
  obtain ⟨raw', updates, resolved⟩ : ∃ raw', update raw = some raw' ∧ raw'.resolvedAt ≠ none :=
    ⟨_, if_pos rfl, Option.some_ne_none later.clock⟩
  have updated := Db.rows_update_self found' update
  rw [updates, Option.getD_some] at updated
  refine ⟨raw', resolved, ?_⟩
  rw [commitTerminal]
  refine .call rfl (fun other ne => Db.rows_update_of_ne later _ ne) ?_ rfl
  cases bus with
  | true => exact leaves_publishAll updated _ _
  | false => exact .done updated _

/-- A handler's result that is not empty resolves the row or counts. -/
theorem leaves_settle (columns : Columns V R) (bus : Bool)
    (choices : Nat → Nat × Except String (ResolveResult R))
    (found : db.rows h.spec.source id = some raw)
    {handled : Except String (ResolveResult R)} (nonempty : handled ≠ .ok ⟨none, none⟩) :
    ∃ raw', (raw'.resolvedAt ≠ none ∨ raw'.attempts = raw.attempts + 1) ∧
      Leaves h.spec.source id db raw' 0
        ((settle h bus id raw.attempts handled).alone (calmExec columns) choices db) := by
  match handled with
  | .error message =>
      let delay := backoffDelay h raw.attempts
      obtain ⟨raw', counted, leaves⟩ : ∃ raw', raw'.attempts = raw.attempts + 1 ∧
          Leaves h.spec.source id db raw' 0
            ((commitPending h id raw.attempts delay).alone (calmExec columns) choices db) :=
        leaves_commitPending found delay
      refine ⟨raw', .inr counted, ?_⟩
      rw [settle, Program.alone_map]
      exact ⟨leaves.row, leaves.others, leaves.invoked⟩
  | .ok ⟨some terminal, _⟩ =>
      obtain ⟨raw', resolved, leaves⟩ := leaves_commitTerminal bus found terminal
      exact ⟨raw', .inl resolved, leaves⟩
  | .ok ⟨none, some ⟨_, none, _⟩⟩ =>
      obtain ⟨raw', counted, leaves⟩ := leaves_commitPending found _
      exact ⟨raw', .inr counted, leaves⟩
  | .ok ⟨none, some ⟨_, some nextCheckAt, _⟩⟩ =>
      let later := db.outside (choices 0).1
      have found' : later.rows h.spec.source id = some raw := found
      obtain ⟨raw', counted, leaves⟩ := leaves_commitPending found' _
      refine ⟨raw', .inr counted, ?_⟩
      rw [settle]
      exact .call rfl (fun _ _ => rfl) leaves rfl
  | .ok ⟨none, none⟩ => exact absurd rfl nonempty

/-- A quirk that is applied changes other columns, and the row is loaded again. -/
theorem leaves_applyQuirks (choices : Nat → Nat × Except String (ResolveResult R))
    (found : db.rows h.spec.source id = some raw)
    (quirks : List GenderFlipOnce) :
    ∃ raw', raw'.attempts = raw.attempts ∧
      ((applyQuirks columns h id quirks raw).alone (calmExec columns) choices db).2.2 = raw' ∧
      Leaves h.spec.source id db raw' 0
        ((applyQuirks columns h id quirks raw).alone (calmExec columns) choices db) := by
  induction quirks generalizing db raw choices with
  | nil => exact ⟨raw, rfl, rfl, .done found raw⟩
  | cons quirk quirks ih =>
      rw [applyQuirks]
      split
      · let first := db.outside (choices 0).1
        let updated := first.update h.spec.source id (Db.quirkUpdate columns quirk)
        let loading := updated.1.outside (choices 1).1
        obtain ⟨fresh, kept, there⟩ : ∃ fresh, fresh.attempts = raw.attempts ∧
            loading.rows h.spec.source id = some fresh := by
          have found' : first.rows h.spec.source id = some raw := found
          refine ⟨_, ?_, Db.rows_update_self found' _⟩
          cases updates : Db.quirkUpdate columns quirk raw with
          | none => rfl
          | some fresh =>
              obtain ⟨flipped, -, rfl⟩ := Option.map_eq_some_iff.mp updates
              rfl
        have applied : calmExec columns (.applyQuirk h.spec.source id quirk : Op V Row R) (choices 0)
            db = (updated.1, .ok updated.2) := rfl
        have loaded : calmExec columns (.loadRow h.spec.source id : Op V Row R) (choices 1)
            updated.1 = (loading, .ok fresh) := calm_loadRow there
        obtain ⟨raw', kept', ended, leaves⟩ := ih (fun n => choices (n + 2)) there
        refine ⟨raw', kept'.trans kept, ?_,
          .call applied ?_ (.call loaded (fun _ _ => rfl) leaves rfl) rfl⟩
        · rw [Program.alone_call_of_exec _ _ _ applied, Program.alone_call_of_exec _ _ _ loaded]
          exact ended
        · intro other ne
          exact Db.rows_update_of_ne first _ ne
      · exact ih choices found

theorem Leaves.trans {α β : Type} {p : PollProgram V Row R α} {f : α → PollProgram V Row R β}
    {raw' : Raw V} {n m : Nat} (first : Leaves table id db raw n (p.alone (calmExec columns) choices db))
    (second : Leaves table id (p.alone (calmExec columns) choices db).1 raw' m
      ((f (p.alone (calmExec columns) choices db).2.2).alone (calmExec columns)
        (fun k => choices ((p.alone (calmExec columns) choices db).2.1.length + k))
        (p.alone (calmExec columns) choices db).1)) :
    Leaves table id db raw' (n + m) ((p.bind f).alone (calmExec columns) choices db) := by
  rw [Program.alone_bind]
  refine ⟨second.row, fun other ne => (second.others other ne).trans (first.others other ne), ?_⟩
  rw [List.countP_append, first.invoked, second.invoked]

/-- A call invokes the handler once at most, and when it does, the row is resolved or counted. -/
theorem leaves_resolveOne (columns : Columns V R) (bus : Bool)
    (found : db.rows h.spec.source id = some raw) {turn : Turn R}
    (nonempty : turn.handled ≠ .ok ⟨none, none⟩) :
    ∃ raw' n, (n = 0 ∧ raw'.attempts = raw.attempts ∨
        n = 1 ∧ (raw'.resolvedAt ≠ none ∨ raw'.attempts = raw.attempts + 1)) ∧
      Leaves h.spec.source id db raw' n (resolveAlone columns h bus id turn db) := by
  let loading := db.outside (turn.choices 0).1
  have loaded : calmExec columns (.loadRow h.spec.source id : Op V Row R) (turn.choices 0) db =
      (loading, .ok raw) := calm_loadRow found
  let first := (applyQuirks columns h id h.spec.retryQuirks raw).alone (calmExec columns)
    (fun n => turn.choices (n + 1)) loading
  have found' : loading.rows h.spec.source id = some raw := found
  obtain ⟨fresh, kept, ended, quirked⟩ : ∃ fresh, fresh.attempts = raw.attempts ∧
      first.2.2 = fresh ∧ Leaves h.spec.source id loading fresh 0 first :=
    leaves_applyQuirks _ found' h.spec.retryQuirks
  cases decoded : h.decode fresh with
  | error message =>
      refine ⟨fresh, 0, .inl ⟨rfl, kept⟩,
        .call loaded (fun _ _ => rfl) (.trans (m := 0) quirked ?_) rfl⟩
      rw [ended, resolveRow, decoded]
      exact .done quirked.row _
  | ok row =>
      let taken := first.2.1.length
      let handling := first.1.outside (turn.delays (taken + 1))
      have there : handling.rows h.spec.source id = some fresh := quirked.row
      let rest (k : Nat) := turn.choices (taken + (k + 1) + 1)
      obtain ⟨raw', ways, settled⟩ := leaves_settle columns bus rest there nonempty
      refine ⟨raw', 1, .inr ⟨rfl, kept ▸ ways⟩,
        .call loaded (fun _ _ => rfl) (.trans (m := 1) quirked ?_) rfl⟩
      rw [ended, resolveRow, decoded]
      have ran : calmExec columns (.resolve row : Op V Row R) (turn.choices (taken + 0 + 1))
          first.1 = (handling, turn.handled) := rfl
      refine .call ran (fun _ _ => rfl) ?_ rfl
      rw [h.reports fresh row decoded]
      exact settled

end Alone

/-! ### Runs -/

section Runs

variable {columns : Columns V R} {h : Handle V Row R} {bus : Bool} {s : Scheduler V Row R}

theorem invocations_cons (id : String) (e : Resolution V Row R) (log : List (Resolution V Row R)) :
    invocations id (e :: log) = (if e.id = id then e.invocations else 0) + invocations id log := by
  by_cases same : e.id = id <;> simp [invocations, Resolution.invocations, same]

/-- Rows of the batch are unresolved, and an unresolved row has counted its invocations. -/
structure Scheduler.Inv (h : Handle V Row R) (s : Scheduler V Row R) : Prop where
  nodup : s.queue.Nodup
  queued : ∀ id ∈ s.queue, ∃ raw, s.db.rows h.spec.source id = some raw ∧ raw.resolvedAt = none
  counted : ∀ id raw, s.db.rows h.spec.source id = some raw → raw.resolvedAt = none →
    invocations id s.log ≤ raw.attempts
  bounded : Bounded h.spec.retry s.log

theorem Scheduler.Inv.start (queue : s.queue = []) (log : s.log = []) : s.Inv h where
  nodup := by simp [queue]
  queued := by simp [queue]
  counted := by simp [log, invocations]
  bounded := by
    constructor <;> simp [log, invocations]

theorem Db.selectEligibleIDs_unresolved {db : Db V} {table id : String} {batch : Nat}
    {picked : List String} (mem : id ∈ db.selectEligibleIDs table batch picked) :
    ∃ raw, db.rows table id = some raw ∧ raw.resolvedAt = none := by
  have eligible : db.eligible table id = true := by
    have kept := List.mem_dedup.mp (List.mem_of_mem_take mem)
    exact (List.mem_filter.mp kept).2
  unfold Db.eligible at eligible
  split at eligible
  case h_1 raw found =>
    refine ⟨raw, found, ?_⟩
    simp only [Bool.and_eq_true, Option.isNone_iff_eq_none] at eligible
    exact eligible.1
  case h_2 => cases eligible

section Resolved

variable {α : Type} {db : Db V} {queue : List String} {log : List (Resolution V Row R)}
  {id : String} {raw raw' : Raw V} {n : Nat}
  {ran : Db V × List (Program.Answered (Op.Res : Op V Row R → Type)) × α}

/-- A call that counts or resolves its row when it invokes the handler keeps the invariant. -/
theorem Scheduler.Inv.resolved (inv : (⟨db, id :: queue, log⟩ : Scheduler V Row R).Inv h)
    (found : db.rows h.spec.source id = some raw) (unresolved : raw.resolvedAt = none)
    (ways : n = 0 ∧ raw'.attempts = raw.attempts ∨
      n = 1 ∧ (raw'.resolvedAt ≠ none ∨ raw'.attempts = raw.attempts + 1))
    (leaves : Leaves h.spec.source id db raw' n ran)
    (left : 0 < h.spec.retry.maxAttempts → raw.attempts < h.spec.retry.maxAttempts) :
    (⟨ran.1, queue, ⟨id, some raw, some raw', ran.2.1⟩ :: log⟩ : Scheduler V Row R).Inv h := by
  obtain ⟨fresh, rest⟩ := List.nodup_cons.mp inv.nodup
  let e : Resolution V Row R := ⟨id, some raw, some raw', ran.2.1⟩
  have counts (other : String) : invocations other (e :: log) =
      (if id = other then n else 0) + invocations other log := by
    rw [invocations_cons, Resolution.invocations, leaves.invoked]
  have own : invocations id log ≤ raw.attempts := inv.counted id raw found unresolved
  refine ⟨rest, ?_, ?_, ?_, ?_⟩
  · intro other mem
    have ne : other ≠ id := fun same => fresh (same ▸ mem)
    rw [leaves.others other ne]
    exact inv.queued other (List.mem_cons_of_mem _ mem)
  · intro other final there unresolved'
    rw [counts]
    by_cases same : id = other
    · subst same
      obtain rfl := Option.some.inj (leaves.row.symm.trans there)
      rw [if_pos rfl]
      rcases ways with ⟨rfl, kept⟩ | ⟨rfl, resolved | counted⟩
      · omega
      · exact absurd unresolved' resolved
      · omega
    · rw [if_neg same, Nat.zero_add]
      exact inv.counted other final (leaves.others other (Ne.symm same) ▸ there) unresolved'
  · intro e' mem invoked
    rcases List.mem_cons.mp mem with rfl | earlier
    · refine ⟨raw, raw', rfl, rfl, ?_⟩
      rw [Resolution.invocations, leaves.invoked] at invoked
      rcases ways with ⟨rfl, -⟩ | ⟨-, resolved | counted⟩
      · cases invoked
      · exact .inl ⟨unresolved, resolved⟩
      · exact .inr counted
    · exact inv.bounded.advances e' earlier invoked
  · intro positive other
    have before := inv.bounded.bounded positive other
    have left := left positive
    rw [counts]
    by_cases same : id = other
    · subst same
      rw [if_pos rfl]
      omega
    · rwa [if_neg same, Nat.zero_add]

end Resolved

theorem Scheduler.Inv.step (inv : s.Inv h) (e : Event R) (counted : Counted h s e) :
    (s.step columns h bus e).1.Inv h := by
  cases e with
  | wait d => exact ⟨inv.nodup, inv.queued, inv.counted, inv.bounded⟩
  | tick picked =>
      obtain ⟨db, queue, log⟩ := s
      cases queue with
      | nil =>
          refine ⟨?_, fun id mem => Db.selectEligibleIDs_unresolved mem, inv.counted, inv.bounded⟩
          exact (List.nodup_dedup _).sublist (List.take_sublist _ _)
      | cons id queue => exact inv
  | resolve turn =>
      obtain ⟨db, queue, log⟩ := s
      cases queue with
      | nil => exact inv
      | cons id queue =>
          obtain ⟨nonempty, left⟩ := counted
          obtain ⟨raw, (found : db.rows h.spec.source id = some raw), unresolved⟩ :=
            inv.queued id List.mem_cons_self
          obtain ⟨raw', n, ways, leaves⟩ := leaves_resolveOne columns bus found nonempty
          let ran := resolveAlone columns h bus id turn db
          have logged : ((⟨db, id :: queue, log⟩ : Scheduler V Row R).step columns h bus
              (.resolve turn)).1 = ⟨ran.1, queue, ⟨id, some raw, some raw', ran.2.1⟩ :: log⟩ := by
            simp only [Scheduler.step, found, leaves.row, ran]
          rw [logged]
          exact inv.resolved found unresolved ways leaves (left id raw rfl found)

/-- **Attempts are bounded and advance.** -/
theorem attempts_bounded (columns : Columns V R) (h : Handle V Row R) (bus : Bool)
    (s : Scheduler V Row R) (queue : s.queue = []) (log : s.log = []) (es : List (Event R))
    (counted : Along (Scheduler.step columns h bus) (Counted h) s es) :
    Bounded h.spec.retry (runState (Scheduler.step columns h bus) s es).log := by
  apply Scheduler.Inv.bounded
  exact counted.inv (fun _ e inv counted => inv.step e counted) (.start queue log)

end Runs

/-! ### A consult -/

def oneConsult : Scheduler String (Raw String) String :=
  { db := { rows := fun _ _ => some consult, clock := 0 }, queue := [], log := [] }

def turn (handled : Except String (ResolveResult String)) : Turn String := ⟨handled, fun _ => 0⟩

/-- It is queued, and completed at the second try. -/
def secondTry : List (Event String) :=
  [.tick ["c1"], .resolve (turn (.ok ⟨none, some ⟨"queued", none, none⟩⟩)), .wait 30000000000,
    .tick ["c1"], .resolve (turn (.ok ⟨some ⟨"completed", "1200"⟩, none⟩))]

theorem attempts_bounded_consult :
    Bounded v8Spec.retry
        (runState (Scheduler.step textColumns v8Handle true) oneConsult secondTry).log ∧
      0 < v8Spec.retry.maxAttempts := by
  refine ⟨attempts_bounded textColumns v8Handle true oneConsult rfl rfl secondTry
    ⟨trivial, ⟨nofun, ?_⟩, trivial, trivial, ⟨nofun, ?_⟩, trivial⟩, by decide⟩
  · rintro id raw head found -
    obtain rfl : consult = raw := Option.some.inj found
    decide
  · rintro id raw head found -
    obtain rfl : "c1" = id := Option.some.inj head
    obtain rfl : { consult with attempts := 1, nextAt := 30000000000 } = raw := Option.some.inj found
    decide

theorem empty_result_not_counted :
    ¬ ∀ (columns : Columns String String) (h : Handle String (Raw String) String) (bus : Bool)
      (s : Scheduler String (Raw String) String), s.queue = [] → s.log = [] →
        ∀ es, Bounded h.spec.retry (runState (Scheduler.step columns h bus) s es).log := by
  intro promise
  obtain ⟨before, after, was, is, ⟨-, resolved⟩ | counted⟩ :=
    (promise textColumns v8Handle true oneConsult rfl rfl
      [.tick ["c1"], .resolve (turn (.ok ⟨none, none⟩))]).advances _ (.head _) (by decide)
  · obtain rfl : consult = after := Option.some.inj is
    exact resolved rfl
  · obtain rfl : consult = before := Option.some.inj was
    obtain rfl : consult = after := Option.some.inj is
    revert counted
    decide

end Lazuli.Poller
