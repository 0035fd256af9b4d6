import Lazuli.Runtime.Lifecycle
import Mathlib.Logic.Function.Basic
import Lazuli.Runtime.Command

/-!
The `Emits` of a generated command (`emitter/command/tier4.rs`).

Every emit is written without a source for its payload; only the outbox mode of the event is
looked up, in the event groups and events of the command's own feature.
-/

namespace Lazuli.Codegen

open Lazuli.Runtime

structure EventGroup where
  pattern : String
  events : List String
  eventsOutbox : List OutboxMode

structure EventDecl where
  name : String
  outbox : OutboxMode

abbrev OutboxIndex := String → Option OutboxMode

def OutboxIndex.insert (index : OutboxIndex) (name : String) (mode : OutboxMode) : OutboxIndex :=
  Function.update index name (some mode)

/-- The pattern without its star. -/
def groupPrefix (group : EventGroup) : String :=
  match group.pattern.toList.reverse with
  | '*' :: rest => String.ofList rest.reverse
  | _ => group.pattern

/-- A name of a group is found as it was written and with the prefix of the group. -/
def indexShortName (lead : String) (index : OutboxIndex) (entry : String × OutboxMode) :
    OutboxIndex :=
  if entry.2 = .none then index
  else
    let qualified :=
      if lead.toList.isPrefixOf entry.1.toList then entry.1 else lead ++ entry.1
    (index.insert entry.1 entry.2).insert qualified entry.2

/-- Names beyond the list of modes have none. -/
def groupEntries (group : EventGroup) : List (String × OutboxMode) :=
  group.events.zipIdx.map fun e => (e.1, (group.eventsOutbox[e.2]?).getD .none)

def buildOutboxIndex (groups : List EventGroup) (events : List EventDecl) : OutboxIndex :=
  let fromGroups := groups.foldl
    (fun index group => (groupEntries group).foldl (indexShortName (groupPrefix group)) index)
    fun _ => none
  events.foldl
    (fun index event =>
      if event.outbox = .guaranteed then index.insert event.name event.outbox else index)
    fromGroups

def emitEmit (index : OutboxIndex) (name : String) : EventEmit where
  name := name
  origin := .explicit
  bind := []
  outbox := (index name).getD .none

def emitEmits (emits : List String) (index : OutboxIndex) : List EventEmit :=
  emits.map (emitEmit index)

/-- A command as it is generated, with the names it declares in `emits`. -/
def generated (c : Command) (emits : List String) (index : OutboxIndex) : Command :=
  { c with emits := emitEmits emits index, emitsTrace := [] }

end Lazuli.Codegen

/-!
Events and audit rows of a generated command.

A call that returns an error leaves no trace. A call that succeeds writes one outbox row or
publishes one event for each emit, and one record for each audit sink, but with two
exceptions: the emits of a generated command have no payload, and a `returns` command has no
transaction in which outbox and audit rows could be written (`delivered_iff`).
-/

namespace Lazuli.Codegen

open Lazuli.Runtime

/-! ### What is promised -/

section Promise

variable (c : Command) (emits : List String) (index : OutboxIndex)

def guaranteedEmits : List String := emits.filter fun n => (index n).getD .none = .guaranteed

def bestEffortEmits : List String := emits.filter fun n => (index n).getD .none ≠ .guaranteed

def auditSinks : List String :=
  match c.audit with
  | none => []
  | some spec => if spec.materializeTable ≠ "" then [auditLog, spec.materializeTable] else [auditLog]

/-- Every emit is delivered once, with the row that was produced, and every sink has one
record of the call. -/
structure Delivered (db : Db) (out : Output) (res : Result) : Prop where
  outbox : res.db.outbox = db.outbox ++
    (guaranteedEmits emits index).map fun n => ⟨n, rowToMap c.outputType out⟩
  published : (res.published.filter fun e => !e.trace).map (fun e => (e.name, e.payload)) =
    (bestEffortEmits emits index).map fun n => (n, rowToMap c.outputType out)
  audit : ∃ record, ∀ table, res.db.audit table =
    db.audit table ++ List.replicate ((auditSinks c).count table) record

/-- No effect, outbox or audit row, no event, no invalidation. -/
structure Untouched (db : Db) (res : Result) : Prop where
  db : res.db = db
  published : res.published = []
  invalidated : res.invalidated = []

/-- There is no payload to miss, and no transaction. -/
structure Deliverable : Prop where
  payloads : emits = [] ∨ c.outputType.shown = []
  returns : ∀ eff, c.effect = some (.returns eff) → guaranteedEmits emits index = [] ∧ c.audit = none

end Promise

/-! ### Parts of the transaction that write no outbox or audit row -/

structure Quiet {α : Type} (x : Tx α) : Prop where
  keeps : ∀ s a t, x s = .ok (a, t) → t.db.outbox = s.db.outbox ∧ t.db.audit = s.db.audit

section Quiet

variable {α β : Type}

theorem Quiet.pure (a : α) : Quiet (Pure.pure a : Tx α) := by
  constructor
  intro s a' t h
  obtain ⟨-, rfl⟩ := Tx.pure_eq_ok.mp h
  exact ⟨rfl, rfl⟩

theorem Quiet.lift (x : Except Failure α) : Quiet (Tx.lift x) := by
  constructor
  intro s a t h
  obtain ⟨-, rfl⟩ := Tx.lift_eq_ok.mp h
  exact ⟨rfl, rfl⟩

theorem Quiet.bind {x : Tx α} {f : α → Tx β} (hx : Quiet x) (hf : ∀ a, Quiet (f a)) :
    Quiet (x >>= f) := by
  constructor
  intro s b t h
  obtain ⟨a, u, hu, ht⟩ := Tx.bind_eq_ok.mp h
  obtain ⟨outbox, audit⟩ := hx.keeps s a u hu
  obtain ⟨outbox', audit'⟩ := (hf a).keeps u b t ht
  exact ⟨outbox'.trans outbox, audit'.trans audit⟩

theorem Quiet.statement {faults : Faults} {f : Db → Except Failure (α × Db)}
    (hf : ∀ db a db', f db = .ok (a, db') → db'.outbox = db.outbox ∧ db'.audit = db.audit) :
    Quiet (Tx.statement faults f) := by
  constructor
  intro s a t h
  obtain ⟨-, hdb, -⟩ := Tx.statement_eq_ok.mp h
  exact hf s.db a t.db hdb

variable (env : Env) (c : Command) (input : Slot) (faults : Faults) (ctx : Ctx)

theorem quiet_control : Quiet (Tx.control faults) := by
  apply Quiet.statement
  intro db a db' h
  cases h
  exact ⟨rfl, rfl⟩

theorem quiet_runPlan (p : Plan) : Quiet (runPlan env faults p) := by
  apply Quiet.statement
  intro db a db' h
  obtain ⟨after, -, hres⟩ := bind_eq_ok.mp h
  rw [← (Prod.mk.inj (Except.ok.inj hres)).2]
  exact ⟨Db.outbox_setTable .., Db.audit_setTable ..⟩

theorem quiet_insert (table : Ident) (cols : List (Ident × Value)) :
    Quiet (Tx.statement faults (Db.insert env table cols)) := by
  apply Quiet.statement
  intro db a db' h
  unfold Db.insert at h
  dsimp only at h
  split at h
  · rw [← (Prod.mk.inj (Except.ok.inj h)).2]
    exact ⟨Db.outbox_setTable .., Db.audit_setTable ..⟩
  · cases h

theorem quiet_applyCreates (eff : CreatesEffect) :
    Quiet (applyCreates env c input faults eff ctx) := by
  apply Quiet.bind (.lift _)
  intro cols
  apply Quiet.bind (.lift _)
  intro ctx
  apply Quiet.bind (.lift _)
  intro admitted
  split
  · exact .bind (quiet_insert ..) fun _ => .bind (.lift _) fun _ => .pure _
  · exact .bind (quiet_control faults) fun _ => .lift _

theorem quiet_applyEffect : Quiet (applyEffect env c input faults ctx) := by
  unfold applyEffect
  split
  · exact .lift _
  · exact quiet_applyCreates ..
  · exact .bind (.lift _) fun _ => .bind (quiet_runPlan ..) fun _ => .bind (.lift _) fun _ => .pure _
  · exact .bind (.lift _) fun _ => .bind (quiet_runPlan ..) fun _ => .bind (.lift _) fun _ => .pure _
  · exact .bind (.lift _) fun _ => .pure _
  · apply Quiet.bind (.lift _)
    intro plan
    split
    · exact .pure _
    · exact .bind (quiet_runPlan ..) fun _ => .pure _

theorem quiet_lockTransitions : Quiet (lockTransitions env c input faults ctx) := by
  unfold lockTransitions
  split
  · exact .pure _
  · exact .bind (.lift _) fun _ => .bind (.lift _) fun _ => .bind (quiet_runPlan ..) fun _ =>
      .bind (.lift _) fun _ => .pure _

theorem quiet_advanceTransitions (target : Option LifecycleTarget) :
    Quiet (advanceTransitions env c faults ctx target) := by
  unfold advanceTransitions
  split
  · exact .pure _
  · exact .bind (.lift _) fun _ => .bind (quiet_runPlan ..) fun _ => .pure _

end Quiet

/-! ### The parts that do -/

section Written

variable {env : Env} {c : Command} {input : Slot} {faults : Faults} {ctx : Ctx} {s t : TxState}
  {u : Unit} {index : OutboxIndex}

/-- One row without a payload for each guaranteed emit. -/
theorem writeOutbox_rows {out : Output} {emits : List String}
    (h : writeGuaranteedOutboxRows env c input faults ctx out (emitEmits emits index) s =
      .ok (u, t)) :
    t.db.outbox = s.db.outbox ++ (guaranteedEmits emits index).map (fun n => ⟨n, []⟩) ∧
      t.db.audit = s.db.audit := by
  induction emits generalizing s with
  | nil =>
      obtain ⟨-, rfl⟩ := Tx.pure_eq_ok.mp h
      exact ⟨(List.append_nil _).symm, rfl⟩
  | cons n rest ih =>
      unfold emitEmits at h ih
      rw [List.map_cons] at h
      unfold writeGuaranteedOutboxRows at h
      split at h
      next other =>
        obtain ⟨houtbox, haudit⟩ := ih h
        have skip : guaranteedEmits (n :: rest) index = guaranteedEmits rest index :=
          List.filter_cons_of_neg (by simpa [emitEmit] using other)
        rw [skip]
        exact ⟨houtbox, haudit⟩
      next guaranteed =>
        obtain ⟨payload, s₁, hpayload, h₁⟩ := Tx.bind_eq_ok.mp h
        obtain ⟨hpayload, hs₁⟩ := Tx.lift_eq_ok.mp hpayload
        obtain rfl : [] = payload := Except.ok.inj hpayload
        split at h₁
        · obtain ⟨_, s₂, hrow, h₂⟩ := Tx.bind_eq_ok.mp h₁
          obtain ⟨-, hdb, -⟩ := Tx.statement_eq_ok.mp hrow
          have hs₂ := (Prod.mk.inj (Except.ok.inj hdb)).2
          obtain ⟨houtbox, haudit⟩ := ih h₂
          have keep : guaranteedEmits (n :: rest) index = n :: guaranteedEmits rest index :=
            List.filter_cons_of_pos (by simpa [emitEmit] using guaranteed)
          rw [keep, houtbox, haudit, ← hs₂, hs₁]
          simp [emitEmit]
        · obtain ⟨refuse, -⟩ := Tx.lift_eq_ok.mp h₁
          cases refuse

theorem writeAuditRow_rows {table : String} {record : AuditRecord}
    (h : writeAuditRow faults table record s = .ok (u, t)) :
    t.db.outbox = s.db.outbox ∧ ∀ other, t.db.audit other =
      s.db.audit other ++ List.replicate ([table].count other) record := by
  obtain ⟨-, hdb, -⟩ := Tx.statement_eq_ok.mp h
  rw [← (Prod.mk.inj (Except.ok.inj hdb)).2]
  refine ⟨rfl, ?_⟩
  intro other
  by_cases hother : other = table
  · subst hother
    simp
  · simp [Function.update_of_ne hother, Ne.symm hother]

/-- One record for each sink. -/
theorem writeAudit_rows (h : writeAudit c faults ctx s = .ok (u, t)) :
    t.db.outbox = s.db.outbox ∧ ∀ table, t.db.audit table = s.db.audit table ++
      List.replicate ((auditSinks c).count table) (assembleAuditRecord ctx c.name) := by
  unfold writeAudit at h
  unfold auditSinks
  cases haudit : c.audit with
  | none =>
      rw [haudit] at h
      obtain ⟨-, rfl⟩ := Tx.pure_eq_ok.mp h
      exact ⟨rfl, fun table => (List.append_nil _).symm⟩
  | some spec =>
      rw [haudit] at h
      obtain ⟨_, s₁, hlog, hrest⟩ := Tx.bind_eq_ok.mp h
      obtain ⟨houtbox, hrows⟩ := writeAuditRow_rows hlog
      split at hrest
      next table =>
        obtain ⟨houtbox', hrows'⟩ := writeAuditRow_rows hrest
        refine ⟨houtbox'.trans houtbox, ?_⟩
        intro other
        have count : [auditLog, spec.materializeTable].count other =
            [auditLog].count other + [spec.materializeTable].count other := by
          show ([auditLog] ++ [spec.materializeTable]).count other = _
          exact List.count_append
        dsimp only
        rw [if_pos table, hrows', hrows, List.append_assoc, ← List.replicate_add, count]
      next table =>
        obtain ⟨-, rfl⟩ := Tx.pure_eq_ok.mp hrest
        dsimp only
        rw [if_neg table]
        exact ⟨houtbox, hrows⟩

/-- One event without a payload for each other emit. -/
theorem publishEmits_generated (emits : List String) (out : Output) :
    publishEmits env (generated c emits index) ctx input out =
      (bestEffortEmits emits index).map fun n => eventFromCtx ctx n false [] := by
  unfold publishEmits generated bestEffortEmits
  dsimp only [List.filterMap_nil]
  rw [List.append_nil]
  induction emits with
  | nil => rfl
  | cons n rest ih =>
      unfold emitEmits at ih ⊢
      by_cases guaranteed : (index n).getD .none = .guaranteed
      · rw [List.map_cons, List.filterMap_cons_none (by simp [emitEmit, guaranteed]), ih,
          List.filter_cons_of_neg (by simpa using guaranteed)]
      · rw [List.map_cons, List.filterMap_cons_some (by
            simp only [emitEmit, if_neg guaranteed, buildEmitPayload, if_true]
            rfl), ih, List.filter_cons_of_pos (by simpa using guaranteed), List.map_cons]

end Written

/-! ### Delivery -/

section Deliver

variable {c : Command} {emits : List String} {index : OutboxIndex} {db : Db} {out : Output}

theorem map_payload_eq_iff {γ : Type} {F : String → Payload → γ} (names : List String)
    (inj : ∀ n a b, F n a = F n b → a = b) (a b : Payload) :
    (names.map fun n => F n a) = (names.map fun n => F n b) ↔ names = [] ∨ a = b := by
  constructor
  · intro h
    cases names with
    | nil => exact .inl rfl
    | cons n rest => exact .inr (inj n a b (List.cons.inj h).1)
  · rintro (rfl | rfl) <;> rfl

theorem nil_eq_rowToMap (type : OutputType) (out : Output) :
    [] = rowToMap type out ↔ type.shown = [] := by
  rw [eq_comm]
  exact List.map_eq_nil_iff

theorem emits_eq_nil_iff (emits : List String) (index : OutboxIndex) :
    emits = [] ↔ guaranteedEmits emits index = [] ∧ bestEffortEmits emits index = [] := by
  constructor
  · rintro rfl
    exact ⟨rfl, rfl⟩
  · rintro ⟨none, none'⟩
    cases emits with
    | nil => rfl
    | cons n rest =>
        exfalso
        by_cases guaranteed : (index n).getD .none = .guaranteed
        · rw [guaranteedEmits, List.filter_cons_of_pos (by simpa using guaranteed)] at none
          cases none
        · rw [bestEffortEmits, List.filter_cons_of_pos (by simpa using guaranteed)] at none'
          cases none'

theorem auditSinks_eq_nil_iff (c : Command) : auditSinks c = [] ↔ c.audit = none := by
  unfold auditSinks
  cases c.audit with
  | none => simp
  | some spec =>
      dsimp only
      split <;> simp

/-- What has been published without a payload is what was to be published. -/
theorem published_iff (env : Env) (ctx : Ctx) (input : Slot) :
    ((publishEmits env (generated c emits index) ctx input out).filter fun e => !e.trace).map
        (fun e => (e.name, e.payload)) =
      ((bestEffortEmits emits index).map fun n => (n, rowToMap c.outputType out)) ↔
    bestEffortEmits emits index = [] ∨ c.outputType.shown = [] := by
  rw [publishEmits_generated]
  have all : ((bestEffortEmits emits index).map fun n => eventFromCtx ctx n false []).filter
      (fun e => !e.trace) = (bestEffortEmits emits index).map fun n => eventFromCtx ctx n false [] := by
    rw [List.filter_eq_self]
    intro e he
    obtain ⟨n, -, rfl⟩ := List.mem_map.mp he
    rfl
  rw [all, List.map_map, ← nil_eq_rowToMap c.outputType out]
  exact map_payload_eq_iff _ (fun n a b h => (Prod.mk.inj h).2) [] (rowToMap c.outputType out)

/-- A `returns` command delivers when it has nothing to write. -/
theorem delivered_returned_iff (env : Env) (ctx : Ctx) (input : Slot) {eff : ReturnsEffect}
    (heff : c.effect = some (.returns eff)) :
    Delivered c emits index db out (finished env (generated c emits index) ctx input out db) ↔
      Deliverable c emits index := by
  constructor
  · intro delivered
    have noRows : guaranteedEmits emits index = [] :=
      List.map_eq_nil_iff.mp (List.append_right_eq_self.mp delivered.outbox.symm)
    have noSinks : auditSinks c = [] := by
      obtain ⟨record, records⟩ := delivered.audit
      rw [List.eq_nil_iff_forall_not_mem]
      intro table mem
      have none := List.append_right_eq_self.mp (records table).symm
      rw [List.replicate_eq_nil_iff] at none
      exact absurd (List.count_pos_iff.mpr mem) (by omega)
    refine ⟨?_, fun _ _ => ⟨noRows, (auditSinks_eq_nil_iff c).mp noSinks⟩⟩
    rw [emits_eq_nil_iff emits index, and_iff_right noRows]
    exact (published_iff env ctx input).mp delivered.published
  · intro deliverable
    obtain ⟨noRows, noAudit⟩ := deliverable.returns eff heff
    refine ⟨?_, ?_, ⟨assembleAuditRecord ctx c.name, ?_⟩⟩
    · rw [noRows]
      exact (List.append_nil _).symm
    · apply (published_iff env ctx input).mpr
      rw [← and_iff_right (b := bestEffortEmits emits index = []) noRows, ← emits_eq_nil_iff]
      exact deliverable.payloads
    · intro table
      rw [(auditSinks_eq_nil_iff c).mpr noAudit]
      exact (List.append_nil _).symm

theorem commandTx_rows {env : Env} {input : Slot} {f : Faults} {ctx ctx' : Ctx} {s t : TxState}
    (h : commandTx env (generated c emits index) input f ctx s = .ok ((out, ctx'), t)) :
    t.db.outbox = s.db.outbox ++ (guaranteedEmits emits index).map (fun n => ⟨n, []⟩) ∧
      ∀ table, t.db.audit table = s.db.audit table ++
        List.replicate ((auditSinks c).count table) (assembleAuditRecord ctx' c.name) := by
  obtain ⟨locked, s₁, hlock, h₁⟩ := Tx.bind_eq_ok.mp h
  obtain ⟨res, s₂, heffect, h₂⟩ := Tx.bind_eq_ok.mp h₁
  obtain ⟨_, s₃, hadvance, h₃⟩ := Tx.bind_eq_ok.mp h₂
  obtain ⟨_, s₄, houtbox, h₄⟩ := Tx.bind_eq_ok.mp h₃
  obtain ⟨_, s₅, haudit, h₅⟩ := Tx.bind_eq_ok.mp h₄
  obtain ⟨hres, ht⟩ := Tx.pure_eq_ok.mp h₅
  obtain rfl : ctx' = res.2 := by rw [hres]
  have locking := (quiet_lockTransitions ..).keeps _ _ _ hlock
  have effect := (quiet_applyEffect ..).keeps _ _ _ heffect
  have advancing := (quiet_advanceTransitions ..).keeps _ _ _ hadvance
  obtain ⟨rows, outboxAudit⟩ := writeOutbox_rows houtbox
  obtain ⟨auditOutbox, records⟩ := writeAudit_rows haudit
  constructor
  · rw [← ht, auditOutbox, rows, advancing.1, effect.1, locking.1]
  · intro table
    rw [← ht, records, outboxAudit, advancing.2, effect.2, locking.2]
    rfl

/-- A committed command delivers when no payload was to be carried. -/
theorem delivered_committed_iff (env : Env) (input : Slot) {f : Faults} {ctx ctx' : Ctx}
    {s : TxState} (noReturns : ∀ eff, c.effect ≠ some (.returns eff))
    (h : commandTx env (generated c emits index) input f ctx ⟨db, 1⟩ = .ok ((out, ctx'), s)) :
    Delivered c emits index db out (finished env (generated c emits index) ctx' input out s.db) ↔
      Deliverable c emits index := by
  obtain ⟨rows, records⟩ := commandTx_rows h
  have outbox : s.db.outbox = db.outbox ++
      ((guaranteedEmits emits index).map fun n => ⟨n, rowToMap c.outputType out⟩) ↔
      guaranteedEmits emits index = [] ∨ c.outputType.shown = [] := by
    rw [rows, List.append_cancel_left_eq, ← nil_eq_rowToMap c.outputType out]
    exact map_payload_eq_iff _ (fun n a b h => (OutboxRow.mk.inj h).2) [] _
  have published : ((publishEmits env (generated c emits index) ctx' input out).filter
      fun e => !e.trace).map (fun e => (e.name, e.payload)) =
        ((bestEffortEmits emits index).map fun n => (n, rowToMap c.outputType out)) ↔
      bestEffortEmits emits index = [] ∨ c.outputType.shown = [] := published_iff env ctx' input
  constructor
  · intro delivered
    refine ⟨?_, fun eff heff => absurd heff (noReturns eff)⟩
    rw [emits_eq_nil_iff emits index, and_or_right]
    exact ⟨outbox.mp delivered.outbox, published.mp delivered.published⟩
  · intro deliverable
    have payloads := deliverable.payloads
    rw [emits_eq_nil_iff emits index, and_or_right] at payloads
    exact ⟨outbox.mpr payloads.1, published.mpr payloads.2, _, records⟩

end Deliver

/-- A generated command that fails leaves no trace, and one that succeeds delivers its events
and audit records exactly when it has no payload to carry and, if it `returns`, no outbox or
audit row to write. -/
theorem delivered_iff (env : Env) (c : Command) (emits : List String) (index : OutboxIndex)
    (faults : Nat → Faults) (cancelled : Nat → Option Failure) (ctx : Ctx) (input : Slot)
    (db : Db) :
    let res := handle env (generated c emits index) faults cancelled ctx input db
    (∀ e, res.output = .error e → Untouched db res) ∧
      ∀ out, res.output = .ok out →
        (Delivered c emits index db out res ↔ Deliverable c emits index) := by
  have done := handled env (generated c emits index) faults cancelled ctx input db
  intro res
  change Handled _ _ _ _ _ res at done
  clear_value res
  cases done with
  | refused e =>
      refine ⟨fun _ _ => ⟨rfl, rfl, rfl⟩, ?_⟩
      intro out h
      cases h
  | returned heff _ _ =>
      constructor
      · intro e h
        cases h
      · intro out h
        obtain rfl := Except.ok.inj h
        exact delivered_returned_iff env ctx input heff
  | committed noReturns hbody =>
      constructor
      · intro e h
        cases h
      · intro out h
        obtain rfl := Except.ok.inj h
        exact delivered_committed_iff env input noReturns hbody

/-! ### A signup -/

def idField : OutputField := ⟨"ID", true, "id", "id"⟩

/-- Creates a customer, or answers from a handler, with an audit trail. -/
def signup (effect : Effect) : Command where
  name := "customer.signup"
  checks _ _ := .ok ()
  effect := some effect
  transitions := []
  lifecycleColumn := none
  emits := []
  emitsTrace := []
  audit := some ⟨""⟩
  invalidates := []
  outputType := .struct [idField]
  zero _ := .nil
  scan _ := .ok fun _ => .int 7

def createCustomer : Effect :=
  .creates ⟨⟨⟨"Customer", by decide⟩, .none, false, false, false, fun _ => none, fun _ => none,
    fun _ => none⟩, ⟨[], by simp⟩, none⟩

def answerSeven : Effect := .returns ⟨some fun _ _ => .ok fun _ => .int 7⟩

/-- Every event is guaranteed. -/
def allGuaranteed : OutboxIndex := fun _ => some .guaranteed

def emptyDb : Db := ⟨fun _ => [], [], fun _ => []⟩

theorem delivered_iff_signup :
    let res := handle plainEnv (generated (signup createCustomer) [] allGuaranteed) noFaults
      (fun _ => none) member (.direct .nil) emptyDb
    (∀ e, res.output = .error e → Untouched emptyDb res) ∧
      ∀ out, res.output = .ok out →
        (Delivered (signup createCustomer) [] allGuaranteed emptyDb out res ↔
          Deliverable (signup createCustomer) [] allGuaranteed) :=
  delivered_iff plainEnv (signup createCustomer) [] allGuaranteed noFaults (fun _ => none) member
    (.direct .nil) emptyDb

/-- The created customer's event has no payload; the event and the audit record of the
handler are lost. -/
theorem signup_event_lost :
    let created := handle plainEnv (generated (signup createCustomer) ["signed_up"] allGuaranteed)
      noFaults (fun _ => none) member (.direct .nil) emptyDb
    let answered := handle plainEnv (generated (signup answerSeven) ["signed_up"] allGuaranteed)
      noFaults (fun _ => none) member (.direct .nil) emptyDb
    (created.output = .ok (fun _ => .int 7) ∧ created.db.outbox = [⟨"signed_up", []⟩] ∧
        ¬ Delivered (signup createCustomer) ["signed_up"] allGuaranteed emptyDb (fun _ => .int 7)
          created) ∧
      answered.output = .ok (fun _ => .int 7) ∧ answered.db.outbox = [] ∧
        answered.published = [] ∧ answered.db.audit auditLog = [] ∧
        ¬ Delivered (signup answerSeven) ["signed_up"] allGuaranteed emptyDb (fun _ => .int 7)
          answered := by
  refine ⟨⟨rfl, rfl, ?_⟩, rfl, rfl, rfl, rfl, ?_⟩
  · intro delivered
    have payload := congrArg (List.map OutboxRow.payload) delivered.outbox
    revert payload
    decide +kernel
  · intro delivered
    have row := congrArg List.length delivered.outbox
    revert row
    decide +kernel

end Lazuli.Codegen
