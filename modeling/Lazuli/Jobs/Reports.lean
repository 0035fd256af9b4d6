import Lazuli.General.Program
import Lazuli.Jobs.Retry

/-!
Running a job inline (`DispatchJob`, `runJobPrelude` and `runJobIncrement` of
`runtime/go/lazuli/jobs/dispatch.go`).

`dispatchJob` is a program: the runners that the billing package installs, the context, the
timer and the handler answer its operations. The attempts are counted with 32 bits.
-/

namespace Lazuli.Jobs

open Lazuli.General

structure GateRef where
  kind : String
  name : String
  deriving DecidableEq

/-- A timeout of zero or less is none. -/
structure JobContract where
  retry : Option RetryPolicy
  timeout : Int
  gates : List GateRef
  deriving DecidableEq

/-- The runners that are installed. -/
structure Runners where
  prelude : Bool
  increment : Bool
  deriving DecidableEq

/-- The context of the caller, with the timeout that was put on it. -/
structure Context where
  timeout : Option Int
  deriving DecidableEq

/-- The error of a context that is done. -/
inductive ContextError where
  | deadlineExceeded
  | other (message : String)
  deriving DecidableEq

inductive JobError where
  | handlerNil
  | gate (message : String)
  | timeout
  | context (message : String)
  | maxRetries (lastErr : String)
  | handler (message : String)
  deriving DecidableEq

def ContextError.classify : ContextError → JobError
  | .deadlineExceeded => .timeout
  | .other message => .context message

/-! ### Operations -/

/-- `poll` looks whether the context is done, and `sleep` waits for the timer or for that. -/
inductive JobOp (Envelope : Type) where
  | gate (ctx : Context) (gates : List GateRef)
  | poll (ctx : Context)
  | sleep (ctx : Context) (delay : Int)
  | handle (ctx : Context) (envelope : Envelope)
  | increment (ctx : Context) (gates : List GateRef)

@[reducible] def JobOp.Res {Envelope : Type} : JobOp Envelope → Type
  | .gate .. => Except String Unit
  | .poll _ => Option ContextError
  | .sleep .. => Option ContextError
  | .handle .. => Except String Unit
  | .increment .. => Except String Unit

abbrev Job (Envelope α : Type) := Program (@JobOp.Res Envelope) α

/-! ### Dispatch -/

section Dispatch

variable {Envelope : Type} (runners : Runners) (huge : Nat → Int) (contract : JobContract)
  (ctx : Context) (envelope : Envelope)

/-- Without gates or without a runner nothing is evaluated. -/
def runJobPrelude : Job Envelope (Except String Unit) :=
  if contract.gates = [] ∨ runners.prelude = false then .done (.ok ())
  else .call (.gate ctx contract.gates) fun r => .done r

/-- Whether the counters could be advanced is not looked at. -/
def runJobIncrement (rest : Job Envelope (Except JobError Unit)) :
    Job Envelope (Except JobError Unit) :=
  if contract.gates = [] ∨ runners.increment = false then rest
  else .call (.increment ctx contract.gates) fun _ => rest

/-- The pause before a retry, when it is longer than nothing. -/
def pause (attempt : Nat) : Job Envelope (Option ContextError) :=
  match contract.retry with
  | none => .done none
  | some policy =>
      if 0 < attempt ∧ 0 < nextDelay huge policy attempt then
        .call (.sleep ctx (nextDelay huge policy attempt)) fun r => .done r
      else .done none

/-- How the job ends once its attempts are used up. -/
def exhausted (lastErr : Option String) : Except JobError Unit :=
  match lastErr with
  | none => .ok ()
  | some err => .error (if contract.retry.isSome then .maxRetries err else .handler err)

/-- The attempts from one on, of which `left` are left. -/
def attemptFrom (attempt : Nat) (lastErr : Option String) :
    Nat → Job Envelope (Except JobError Unit)
  | 0 => .done (exhausted contract lastErr)
  | left + 1 =>
      .call (.poll ctx) fun
        | some err => .done (.error err.classify)
        | none =>
            (pause huge contract ctx attempt).bind fun
              | some err => .done (.error err.classify)
              | none =>
                  .call (.handle ctx envelope) fun
                    | .ok () => runJobIncrement runners contract ctx (.done (.ok ()))
                    | .error err => attemptFrom (attempt + 1) (some err) left

/-- The count of a 32-bit policy, and one more. -/
def attempts : Nat :=
  match contract.retry with
  | none => 1
  | some policy => (policy.count + 1).toNat

def timed : Context := ⟨if 0 < contract.timeout then some contract.timeout else none⟩

/-- `handler` tells whether there is one. -/
def dispatchJob (handler : Bool) : Job Envelope (Except JobError Unit) :=
  if handler = false then .done (.error .handlerNil)
  else
    (runJobPrelude runners contract (timed contract)).bind fun
      | .error err => .done (.error (.gate err))
      | .ok () =>
          attemptFrom runners huge contract (timed contract) envelope 0 none (attempts contract)

end Dispatch

end Lazuli.Jobs

/-!
What a dispatched job reports.

`Attempts` is what the loop of `DispatchJob` can go through, and everything about its runs is by
induction on it. The loop is not entered when the number of attempts has wrapped to zero, and
then the job has succeeded without its handler.
-/

namespace Lazuli.Jobs

open Lazuli.General Program

section Runs

variable {Envelope : Type} {runners : Runners} {huge : Nat → Int} {contract : JobContract}
  {ctx : Context} {envelope : Envelope}

/-! ### The runs of the loop -/

/-- A pause that was not cut short. -/
def slept (huge : Nat → Int) (contract : JobContract) (ctx : Context) (attempt : Nat) :
    List (Answered (@JobOp.Res Envelope)) :=
  match contract.retry with
  | none => []
  | some policy =>
      if 0 < attempt ∧ 0 < nextDelay huge policy attempt then
        [⟨.sleep ctx (nextDelay huge policy attempt), none⟩]
      else []

/-- The runs of the attempts from one on, with the last error and the attempts that are left. -/
inductive Attempts (runners : Runners) (huge : Nat → Int) (contract : JobContract)
    (ctx : Context) (envelope : Envelope) : Nat → Option String → Nat →
      List (Answered (@JobOp.Res Envelope)) → Except JobError Unit → Prop where
  | exhausted (n : Nat) (lastErr : Option String) :
      Attempts runners huge contract ctx envelope n lastErr 0 [] (exhausted contract lastErr)
  | expired (n : Nat) (lastErr : Option String) (left : Nat) (err : ContextError) :
      Attempts runners huge contract ctx envelope n lastErr (left + 1) [⟨.poll ctx, some err⟩]
        (.error err.classify)
  | interrupted (n : Nat) (lastErr : Option String) (left : Nat) (delay : Int)
      (err : ContextError) :
      Attempts runners huge contract ctx envelope n lastErr (left + 1)
        [⟨.poll ctx, none⟩, ⟨.sleep ctx delay, some err⟩] (.error err.classify)
  | succeeded (n : Nat) (lastErr : Option String) (left : Nat)
      (last : List (Answered (@JobOp.Res Envelope)))
      (increment : (runJobIncrement runners contract ctx (.done (.ok ()))).Runs last (.ok ())) :
      Attempts runners huge contract ctx envelope n lastErr (left + 1)
        (⟨.poll ctx, none⟩ ::
          (slept huge contract ctx n ++ ⟨.handle ctx envelope, .ok ()⟩ :: last)) (.ok ())
  | failed (n : Nat) (lastErr : Option String) (left : Nat) (err : String)
      {later : List (Answered (@JobOp.Res Envelope))} {result : Except JobError Unit} :
      Attempts runners huge contract ctx envelope (n + 1) (some err) left later result →
      Attempts runners huge contract ctx envelope n lastErr (left + 1)
        (⟨.poll ctx, none⟩ ::
          (slept huge contract ctx n ++ ⟨.handle ctx envelope, .error err⟩ :: later)) result

theorem pause_runs {n : Nat} {trace : List (Answered (@JobOp.Res Envelope))}
    {r : Option ContextError} (run : (pause huge contract ctx n).Runs trace r) :
    trace = slept huge contract ctx n ∧ r = none ∨
      ∃ delay err, trace = [⟨.sleep ctx delay, some err⟩] ∧ r = some err := by
  cases retry : contract.retry with
  | none =>
      rw [pause, retry] at run
      rw [slept, retry]
      obtain ⟨rfl, rfl⟩ := runs_done.mp run
      exact .inl ⟨rfl, rfl⟩
  | some policy =>
      rw [pause, retry] at run
      rw [slept, retry]
      by_cases waits : 0 < n ∧ 0 < nextDelay huge policy n
      · simp only [if_pos waits] at run ⊢
        obtain ⟨answer, later, rfl, rest⟩ := runs_call.mp run
        obtain ⟨rfl, rfl⟩ := runs_done.mp rest
        cases r with
        | none => exact .inl ⟨rfl, rfl⟩
        | some err => exact .inr ⟨_, err, rfl, rfl⟩
      · simp only [if_neg waits] at run ⊢
        obtain ⟨rfl, rfl⟩ := runs_done.mp run
        exact .inl ⟨rfl, rfl⟩

theorem increment_result {last : List (Answered (@JobOp.Res Envelope))}
    {result : Except JobError Unit}
    (run : (runJobIncrement runners contract ctx (.done (.ok ()))).Runs last result) :
    result = .ok () := by
  unfold runJobIncrement at run
  split at run
  · exact (runs_done.mp run).2
  · obtain ⟨answer, later, rfl, rest⟩ := runs_call.mp run
    exact (runs_done.mp rest).2

theorem attempts_of_runs {left : Nat} {n : Nat} {lastErr : Option String}
    {trace : List (Answered (@JobOp.Res Envelope))} {result : Except JobError Unit}
    (run : (attemptFrom runners huge contract ctx envelope n lastErr left).Runs trace result) :
    Attempts runners huge contract ctx envelope n lastErr left trace result := by
  induction left generalizing n lastErr trace with
  | zero =>
      obtain ⟨rfl, rfl⟩ := runs_done.mp run
      exact .exhausted n lastErr
  | succ left ih =>
      obtain ⟨polled, afterPoll, rfl, alive⟩ := runs_call.mp run
      cases polled with
      | some err =>
          obtain ⟨rfl, rfl⟩ := runs_done.mp alive
          exact .expired n lastErr left err
      | none =>
          obtain ⟨first, r, second, rfl, paused, rested⟩ := runs_bind.mp alive
          rcases pause_runs paused with ⟨rfl, rfl⟩ | ⟨delay, err, rfl, rfl⟩
          · obtain ⟨handled, later, rfl, rest⟩ := runs_call.mp rested
            cases handled with
            | ok u =>
                cases increment_result rest
                exact .succeeded n lastErr left later rest
            | error err => exact .failed n lastErr left err (ih rest)
          · obtain ⟨rfl, rfl⟩ := runs_done.mp rested
            exact .interrupted n lastErr left delay err

/-! ### What is counted -/

/-- The handler is invoked. -/
def invokes (e : Answered (@JobOp.Res Envelope)) : Bool :=
  match e.op with
  | .handle .. => true
  | _ => false

/-- The quota counters are advanced. -/
def increments (e : Answered (@JobOp.Res Envelope)) : Bool :=
  match e.op with
  | .increment .. => true
  | _ => false

/-- An invocation returns nil. -/
def Succeeds (e : Answered (@JobOp.Res Envelope)) : Prop :=
  ∃ ctx envelope, e = ⟨.handle ctx envelope, .ok ()⟩

/-- The gates refuse the job. -/
def Refuses (e : Answered (@JobOp.Res Envelope)) : Prop :=
  ∃ ctx gates err, e = ⟨.gate ctx gates, .error err⟩

/-- The context was not done yet. -/
def Alive (e : Answered (@JobOp.Res Envelope)) : Prop := ∃ ctx, e = ⟨.poll ctx, none⟩

/-- How often the counters are advanced for one success: not without gates or a runner. -/
def quota (runners : Runners) (contract : JobContract) : Nat :=
  if contract.gates = [] ∨ runners.increment = false then 0 else 1

/-- Pauses and increments are no invocations. -/
structure Silent (l : List (Answered (@JobOp.Res Envelope))) : Prop where
  invokes : l.countP invokes = 0
  succeeds : ∀ e ∈ l, ¬Succeeds e
  refuses : ∀ e ∈ l, ¬Refuses e

theorem slept_silent (n : Nat) :
    Silent (slept huge contract ctx n : List (Answered (@JobOp.Res Envelope))) := by
  unfold slept
  split
  · exact ⟨rfl, by simp, by simp⟩
  · split
    · exact ⟨rfl, by simp [Succeeds], by simp [Refuses]⟩
    · exact ⟨rfl, by simp, by simp⟩

theorem increments_slept (n : Nat) :
    (slept huge contract ctx n : List (Answered (@JobOp.Res Envelope))).countP increments = 0 := by
  unfold slept
  split
  · rfl
  · split <;> rfl

theorem increment_silent {last : List (Answered (@JobOp.Res Envelope))}
    (run : (runJobIncrement runners contract ctx (.done (.ok ()))).Runs last (.ok ())) :
    Silent last ∧ last.countP increments = quota runners contract := by
  unfold runJobIncrement at run
  split at run
  · next none =>
      obtain ⟨rfl, -⟩ := runs_done.mp run
      rw [quota, if_pos none]
      exact ⟨⟨rfl, by simp, by simp⟩, rfl⟩
  · next counted =>
      obtain ⟨answer, later, rfl, rest⟩ := runs_call.mp run
      obtain ⟨rfl, -⟩ := runs_done.mp rest
      rw [quota, if_neg counted]
      exact ⟨⟨rfl, by simp [Succeeds], by simp [Refuses]⟩, rfl⟩

/-! ### The loop -/

/-- What holds of the attempts that are left. Without any, the last error decides. -/
structure Looped (runners : Runners) (contract : JobContract) (lastErr : Option String)
    (left : Nat) (trace : List (Answered (@JobOp.Res Envelope)))
    (result : Except JobError Unit) : Prop where
  ok_iff : result = .ok () ↔ (∃ e ∈ trace, Succeeds e) ∨ left = 0 ∧ lastErr = none
  invokes_le : trace.countP invokes ≤ left
  refuses : ∀ e ∈ trace, ¬Refuses e
  expired : (∀ e ∈ trace, ¬Alive e) → trace.countP invokes = 0
  success : (∃ e ∈ trace, Succeeds e) → trace.countP increments = quota runners contract
  failure : (¬∃ e ∈ trace, Succeeds e) → trace.countP increments = 0

theorem exhausted_ok_iff {lastErr : Option String} :
    exhausted contract lastErr = .ok () ↔ lastErr = none := by
  cases lastErr with
  | none => exact iff_of_true rfl rfl
  | some err => exact iff_of_false nofun nofun

theorem not_succeeds_poll (r : Option ContextError) :
    ¬Succeeds (⟨.poll ctx, r⟩ : Answered (@JobOp.Res Envelope)) := by
  rintro ⟨_, _, eq⟩
  cases eq

theorem not_refuses_poll (r : Option ContextError) :
    ¬Refuses (⟨.poll ctx, r⟩ : Answered (@JobOp.Res Envelope)) := by
  rintro ⟨_, _, _, eq⟩
  cases eq

theorem not_refuses_handle (r : Except String Unit) :
    ¬Refuses (⟨.handle ctx envelope, r⟩ : Answered (@JobOp.Res Envelope)) := by
  rintro ⟨_, _, _, eq⟩
  cases eq

/-- What an attempt adds that came to the handler. -/
structure Invoked (r : Except String Unit) (later trace : List (Answered (@JobOp.Res Envelope))) :
    Prop where
  invokes : trace.countP invokes = later.countP invokes + 1
  increments : trace.countP increments = later.countP increments
  succeeds : (∃ e ∈ trace, Succeeds e) ↔ r = .ok () ∨ ∃ e ∈ later, Succeeds e
  refuses : (∀ e ∈ trace, ¬Refuses e) ↔ ∀ e ∈ later, ¬Refuses e
  alive : ¬∀ e ∈ trace, ¬Alive e

theorem invoked_attempt (n : Nat) (r : Except String Unit)
    (later : List (Answered (@JobOp.Res Envelope))) :
    Invoked r later (⟨.poll ctx, none⟩ ::
      (slept huge contract ctx n ++ ⟨.handle ctx envelope, r⟩ :: later)) := by
  have silent : Silent (slept huge contract ctx n : List (Answered (@JobOp.Res Envelope))) :=
    slept_silent n
  have uncounted : (slept huge contract ctx n :
      List (Answered (@JobOp.Res Envelope))).countP Jobs.increments = 0 := increments_slept n
  constructor
  case invokes => simp [List.countP_cons, List.countP_append, silent.invokes, Jobs.invokes]
  case increments => simp [List.countP_append, uncounted, Jobs.increments]
  case succeeds =>
    constructor
    · rintro ⟨e, mem, succeeds⟩
      rcases List.mem_cons.mp mem with rfl | mem
      · exact absurd succeeds (not_succeeds_poll none)
      rcases List.mem_append.mp mem with mem | mem
      · exact absurd succeeds (silent.succeeds e mem)
      rcases List.mem_cons.mp mem with rfl | mem
      · obtain ⟨_, _, eq⟩ := succeeds
        cases eq
        exact .inl rfl
      · exact .inr ⟨e, mem, succeeds⟩
    · rintro (rfl | ⟨e, mem, succeeds⟩)
      · exact ⟨_, by simp, ctx, envelope, rfl⟩
      · exact ⟨e, by simp [mem], succeeds⟩
  case refuses =>
    constructor
    · exact fun never e mem => never e (by simp [mem])
    · intro never e mem
      rcases List.mem_cons.mp mem with rfl | mem
      · exact not_refuses_poll none
      rcases List.mem_append.mp mem with mem | mem
      · exact silent.refuses e mem
      rcases List.mem_cons.mp mem with rfl | mem
      · exact not_refuses_handle r
      · exact never e mem
  case alive => exact fun dead => dead _ List.mem_cons_self ⟨ctx, rfl⟩

theorem looped {n left : Nat} {lastErr : Option String}
    {trace : List (Answered (@JobOp.Res Envelope))} {result : Except JobError Unit}
    (run : Attempts runners huge contract ctx envelope n lastErr left trace result) :
    Looped runners contract lastErr left trace result := by
  induction run with
  | exhausted n lastErr =>
      exact ⟨by simp [exhausted_ok_iff], le_rfl, by simp, fun _ => rfl, by simp, fun _ => rfl⟩
  | expired n lastErr left err =>
      exact ⟨by simp [not_succeeds_poll], Nat.zero_le _, by simp [not_refuses_poll], fun _ => rfl,
        by simp [not_succeeds_poll], fun _ => rfl⟩
  | interrupted n lastErr left delay err =>
      exact ⟨by simp [Succeeds], Nat.zero_le _, by simp [Refuses], fun _ => rfl,
        by simp [Succeeds], fun _ => rfl⟩
  | succeeded n lastErr left last increment =>
      have invoked : Invoked (.ok ()) last (⟨.poll ctx, none⟩ ::
          (slept huge contract ctx n ++ ⟨.handle ctx envelope, .ok ()⟩ :: last)) :=
        invoked_attempt n _ last
      obtain ⟨silent, counted⟩ := increment_silent increment
      have success := invoked.succeeds.mpr (.inl rfl)
      constructor
      case ok_iff => exact iff_of_true rfl (.inl success)
      case invokes_le =>
        rw [invoked.invokes, silent.invokes]
        omega
      case refuses => exact invoked.refuses.mpr silent.refuses
      case expired => exact fun dead => absurd dead invoked.alive
      case success => exact fun _ => invoked.increments.trans counted
      case failure => exact fun none => absurd success none
  | @failed n lastErr left err later result _ ih =>
      have invoked : Invoked (.error err) later (⟨.poll ctx, none⟩ ::
          (slept huge contract ctx n ++ ⟨.handle ctx envelope, .error err⟩ :: later)) :=
        invoked_attempt n _ later
      have succeeds := invoked.succeeds.trans (or_iff_right nofun)
      constructor
      case ok_iff =>
        rw [ih.ok_iff, succeeds, or_iff_left nofun, or_iff_left]
        rintro ⟨zero, -⟩
        cases zero
      case invokes_le =>
        rw [invoked.invokes]
        exact Nat.succ_le_succ ih.invokes_le
      case refuses => exact invoked.refuses.mpr ih.refuses
      case expired => exact fun dead => absurd dead invoked.alive
      case success => exact fun some => invoked.increments.trans (ih.success (succeeds.mp some))
      case failure =>
        exact fun none => invoked.increments.trans (ih.failure fun some => none (succeeds.mpr some))

/-! ### Reports -/

/-- The retries a contract asks for. -/
def retries (contract : JobContract) : Nat :=
  match contract.retry with
  | none => 0
  | some policy => policy.count.toNat

/-- A job reports what its handler did. -/
structure Reports (runners : Runners) (contract : JobContract)
    (trace : List (Answered (@JobOp.Res Envelope))) (result : Except JobError Unit) : Prop where
  ok_iff : result = .ok () ↔ ∃ e ∈ trace, Succeeds e
  invokes_le : trace.countP invokes ≤ retries contract + 1
  refused : (∃ e ∈ trace, Refuses e) → trace.countP invokes = 0
  expired : (∀ e ∈ trace, ¬Alive e) → trace.countP invokes = 0
  success : result = .ok () → trace.countP increments = quota runners contract
  failure : result ≠ .ok () → trace.countP increments = 0

/-- One more than the count does not fit into 32 bits. -/
def Overflows (contract : JobContract) : Prop := retries contract + 1 = 2 ^ 32

theorem attempts_eq : attempts contract = (retries contract + 1) % 2 ^ 32 := by
  unfold attempts retries
  cases contract.retry with
  | none => rfl
  | some policy => exact UInt32.toNat_add policy.count 1

theorem attempts_le : attempts contract ≤ retries contract + 1 := by
  rw [attempts_eq]
  exact Nat.mod_le _ _

theorem retries_lt : retries contract < 2 ^ 32 := by
  unfold retries
  cases contract.retry with
  | none => exact Nat.two_pow_pos 32
  | some policy => exact policy.count.toNat_lt

theorem attempts_eq_zero_iff : attempts contract = 0 ↔ Overflows contract := by
  have room : retries contract < 2 ^ 32 := retries_lt
  rw [attempts_eq, Overflows]
  omega

/-- Gates that refuse end the job. -/
theorem prelude_runs {first : List (Answered (@JobOp.Res Envelope))} {r : Except String Unit}
    (run : (runJobPrelude runners contract ctx).Runs first r) :
    first.countP invokes = 0 ∧ first.countP increments = 0 ∧ (∀ e ∈ first, ¬Succeeds e) ∧
      ((∃ e ∈ first, Refuses e) ↔ r ≠ .ok ()) := by
  unfold runJobPrelude at run
  split at run
  · obtain ⟨rfl, rfl⟩ := runs_done.mp run
    exact ⟨rfl, rfl, by simp, by simp⟩
  · obtain ⟨answer, later, rfl, rest⟩ := runs_call.mp run
    obtain ⟨rfl, rfl⟩ := runs_done.mp rest
    refine ⟨rfl, rfl, by simp [Succeeds], ?_⟩
    cases r with
    | ok u => simp [Refuses]
    | error err => simp [Refuses]

end Runs

section Dispatched

variable {Envelope : Type} {runners : Runners} {huge : Nat → Int} {contract : JobContract}
  {envelope : Envelope} {handler : Bool} {trace : List (Answered (@JobOp.Res Envelope))}
  {result : Except JobError Unit}

/-- A job succeeds without its handler when its attempts have wrapped to none. -/
theorem reports_iff
    (run : (dispatchJob runners huge contract envelope handler).Runs trace result) :
    Reports runners contract trace result ↔
      ¬(Overflows contract ∧ handler = true ∧ ¬∃ e ∈ trace, Refuses e) := by
  cases handler with
  | false =>
      obtain ⟨rfl, rfl⟩ := runs_done.mp run
      refine iff_of_true ?_ fun h => Bool.false_ne_true h.2.1
      exact ⟨by simp, Nat.zero_le _, fun _ => rfl, fun _ => rfl, nofun, fun _ => rfl⟩
  | true =>
      obtain ⟨first, r, second, rfl, gates, rest⟩ := runs_bind.mp run
      obtain ⟨quiet, uncounted, unsuccessful, refuses⟩ := prelude_runs gates
      cases r with
      | error err =>
          obtain ⟨rfl, rfl⟩ := runs_done.mp rest
          rw [List.append_nil]
          refine iff_of_true ?_ fun h => h.2.2 (refuses.mpr nofun)
          exact ⟨by simpa using unsuccessful, by omega, fun _ => quiet, fun _ => quiet, nofun,
            fun _ => uncounted⟩
      | ok u =>
          have loop := looped (attempts_of_runs rest)
          have unrefused : ¬∃ e ∈ first ++ second, Refuses e := by
            rintro ⟨e, mem, refused⟩
            rcases List.mem_append.mp mem with mem | mem
            · exact refuses.mp ⟨e, mem, refused⟩ rfl
            · exact loop.refuses e mem refused
          have succeeds : (∃ e ∈ first ++ second, Succeeds e) ↔ ∃ e ∈ second, Succeeds e := by
            constructor
            · rintro ⟨e, mem, success⟩
              rcases List.mem_append.mp mem with mem | mem
              · exact absurd success (unsuccessful e mem)
              · exact ⟨e, mem, success⟩
            · rintro ⟨e, mem, success⟩
              exact ⟨e, List.mem_append_right _ mem, success⟩
          have invoked : (first ++ second).countP invokes = second.countP invokes := by
            rw [List.countP_append, quiet, Nat.zero_add]
          have incremented : (first ++ second).countP increments = second.countP increments := by
            rw [List.countP_append, uncounted, Nat.zero_add]
          rw [← attempts_eq_zero_iff]
          constructor
          · -- Without attempts there is no success to report.
            rintro reports ⟨zero, -, -⟩
            have ok : result = .ok () := loop.ok_iff.mpr (.inr ⟨zero, rfl⟩)
            obtain ⟨e, mem, success⟩ := succeeds.mp (reports.ok_iff.mp ok)
            have none_invoked : second.countP invokes = 0 := by
              have := loop.invokes_le
              omega
            obtain ⟨ctx, env, rfl⟩ := success
            exact List.countP_eq_zero.mp none_invoked _ mem rfl
          · intro usable
            have some_left : ¬(attempts contract = 0 ∧ (none : Option String) = none) :=
              fun h => usable ⟨h.1, rfl, unrefused⟩
            have ok_iff := loop.ok_iff.trans (or_iff_left some_left)
            constructor
            case ok_iff => exact ok_iff.trans succeeds.symm
            case invokes_le => exact invoked.trans_le (loop.invokes_le.trans attempts_le)
            case refused => exact fun refused => absurd refused unrefused
            case expired =>
              intro dead
              exact invoked.trans (loop.expired fun e mem => dead e (List.mem_append_right _ mem))
            case success => exact fun ok => incremented.trans (loop.success (ok_iff.mp ok))
            case failure =>
              exact fun failed => incremented.trans (loop.failure (mt ok_iff.mpr failed))

end Dispatched

/-- A job without retries whose handler returns nil. -/
theorem reports_iff_of_once :
    let trace : List (Answered (@JobOp.Res Unit)) :=
      [⟨.poll ⟨none⟩, none⟩, ⟨.handle ⟨none⟩ (), .ok ()⟩]
    Reports ⟨true, true⟩ ⟨none, 0, []⟩ trace (.ok ()) ↔
      ¬(Overflows ⟨none, 0, []⟩ ∧ true = true ∧ ¬∃ e ∈ trace, Refuses e) := by
  intro trace
  have run : (dispatchJob ⟨true, true⟩ (fun _ => 0) ⟨none, 0, []⟩ () true).Runs trace
      (.ok ()) := by
    refine runs_bind.mpr ⟨[], .ok (), trace, rfl, ?_, ?_⟩
    · simp [runJobPrelude]
    · refine runs_call.mpr ⟨none, _, rfl, ?_⟩
      refine runs_call.mpr ⟨.ok (), [], rfl, ?_⟩
      simp [runJobIncrement]
  exact reports_iff run

/-- With the largest count the handler is not invoked and the job succeeds. -/
theorem unrun_succeeds :
    let contract : JobContract := ⟨some ⟨4294967295, BackoffFixed⟩, 0, []⟩
    let trace : List (Answered (@JobOp.Res Unit)) := []
    (dispatchJob ⟨false, false⟩ (fun _ => 0) contract () true).Runs trace (.ok ()) ∧
      ¬Reports ⟨false, false⟩ contract trace (.ok ()) := by
  intro contract trace
  constructor
  · refine runs_bind.mpr ⟨[], .ok (), [], rfl, ?_, ?_⟩
    · simp [runJobPrelude]
    · exact runs_done.mpr ⟨rfl, rfl⟩
  · intro reports
    obtain ⟨e, mem, -⟩ := reports.ok_iff.mp rfl
    exact List.not_mem_nil mem

end Lazuli.Jobs
