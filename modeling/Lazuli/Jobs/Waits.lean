import Lazuli.Jobs.Reports
import Lazuli.Notifications.Send

/-!
Waiting before retries (`DispatchJob` of `runtime/go/lazuli/jobs/dispatch.go` and
`dispatchWithRetry` of `runtime/go/lazuli/notifications/dispatch.go`).

Both loops skip a delay that is not positive. `Spaced` numbers the tries of a run and says before
which of them it has waited.
-/

namespace Lazuli.Jobs

open Lazuli.General Program

/-! ### Tries and waits -/

section Spaced

variable {α : Type} (isTry isWait : α → Bool) (P : Nat → Prop)

/-- Before each try but the first, numbered from `n`, there is a wait exactly where `P` holds.
`waited` tells of the entry before. -/
def Spaced : Nat → Bool → List α → Prop
  | _, _, [] => True
  | n, waited, e :: trace =>
      (isTry e = true → 0 < n → (waited = true ↔ P n)) ∧
        Spaced (if isTry e then n + 1 else n) (isWait e) trace

variable {isTry isWait P} {n : Nat} {waited : Bool}

theorem spaced_of_quiet {trace : List α} (quiet : trace.countP isTry = 0) :
    Spaced isTry isWait P n waited trace := by
  induction trace generalizing waited with
  | nil => trivial
  | cons e trace ih =>
      have none : ¬isTry e = true := List.countP_eq_zero.mp quiet e List.mem_cons_self
      rw [List.countP_cons_of_neg none] at quiet
      refine ⟨fun isTry => absurd isTry none, ?_⟩
      rw [if_neg none]
      exact ih quiet

theorem spaced_cons_of_not {e : α} {trace : List α} (h : isTry e = false)
    (rest : Spaced isTry isWait P n (isWait e) trace) :
    Spaced isTry isWait P n waited (e :: trace) := by
  refine ⟨fun isTry => ?_, ?_⟩
  · rw [h] at isTry
    cases isTry
  · rwa [h]

theorem spaced_cons_of_try {e : α} {trace : List α} (h : isTry e = true)
    (before : 0 < n → (waited = true ↔ P n))
    (rest : Spaced isTry isWait P (n + 1) (isWait e) trace) :
    Spaced isTry isWait P n waited (e :: trace) := by
  refine ⟨fun _ => before, ?_⟩
  rwa [h]

end Spaced

/-- Where a policy makes the code wait. -/
def Paused (huge : Nat → Int) (policy : RetryPolicy) (n : Nat) : Prop :=
  policy.backoff ≠ BackoffExponential ∨ Waits huge n

/-! ### Jobs -/

section Jobs

variable {Envelope : Type} {runners : Runners} {huge : Nat → Int} {contract : JobContract}
  {policy : RetryPolicy} {ctx : Context} {envelope : Envelope}

/-- The timer has fired. -/
def sleeps (e : Answered (@JobOp.Res Envelope)) : Bool :=
  match e with
  | ⟨.sleep _ delay, none⟩ => 0 < delay
  | _ => false

/-- A try, with the pause there was before it. -/
theorem spaced_slept (retry : contract.retry = some policy) {n : Nat} {waited : Bool}
    {r : Except String Unit} {later : List (Answered (@JobOp.Res Envelope))}
    (first : waited = false)
    (rest : Spaced invokes sleeps (Paused huge policy) (n + 1) false later) :
    Spaced invokes sleeps (Paused huge policy) n waited
      (slept huge contract ctx n ++ ⟨.handle ctx envelope, r⟩ :: later) := by
  subst first
  rw [slept, retry]
  by_cases pauses : 0 < n ∧ 0 < nextDelay huge policy n
  · simp only [if_pos pauses]
    refine spaced_cons_of_not rfl (spaced_cons_of_try rfl (fun pos => ?_) rest)
    have waits : Paused huge policy n := (nextDelay_pos_iff huge pos).mp pauses.2
    exact iff_of_true (decide_eq_true pauses.2) waits
  · simp only [if_neg pauses]
    refine spaced_cons_of_try rfl (fun pos => ?_) rest
    refine iff_of_false Bool.false_ne_true fun waits => pauses ⟨pos, ?_⟩
    exact (nextDelay_pos_iff huge pos).mpr waits

theorem spaced_attempts (retry : contract.retry = some policy) {n left : Nat}
    {lastErr : Option String} {trace : List (Answered (@JobOp.Res Envelope))}
    {result : Except JobError Unit}
    (run : Attempts runners huge contract ctx envelope n lastErr left trace result)
    {waited : Bool} : Spaced invokes sleeps (Paused huge policy) n waited trace := by
  induction run generalizing waited with
  | exhausted n lastErr => trivial
  | expired n lastErr left err => exact spaced_of_quiet rfl
  | interrupted n lastErr left delay err => exact spaced_of_quiet rfl
  | succeeded n lastErr left last increment =>
      have silent := (increment_silent increment).1
      exact spaced_cons_of_not rfl (spaced_slept retry rfl (spaced_of_quiet silent.invokes))
  | failed n lastErr left err _ ih =>
      exact spaced_cons_of_not rfl (spaced_slept retry rfl ih)

theorem spaced_append_of_quiet {first second : List (Answered (@JobOp.Res Envelope))} {n : Nat}
    {waited : Bool} (quiet : first.countP invokes = 0)
    (rest : ∀ waited, Spaced invokes sleeps (Paused huge policy) n waited second) :
    Spaced invokes sleeps (Paused huge policy) n waited (first ++ second) := by
  induction first generalizing waited with
  | nil => exact rest waited
  | cons e first ih =>
      have none : ¬invokes e = true := List.countP_eq_zero.mp quiet e List.mem_cons_self
      rw [List.countP_cons_of_neg none] at quiet
      exact spaced_cons_of_not (Bool.eq_false_iff.mpr none) (ih quiet)

theorem spaced_dispatchJob (retry : contract.retry = some policy) {handler : Bool}
    {trace : List (Answered (@JobOp.Res Envelope))} {result : Except JobError Unit}
    (run : (dispatchJob runners huge contract envelope handler).Runs trace result) :
    Spaced invokes sleeps (Paused huge policy) 0 false trace := by
  cases handler with
  | false =>
      obtain ⟨rfl, -⟩ := runs_done.mp run
      trivial
  | true =>
      obtain ⟨first, r, second, rfl, gates, rest⟩ := runs_bind.mp run
      refine spaced_append_of_quiet (prelude_runs gates).1 fun waited => ?_
      cases r with
      | error err =>
          obtain ⟨rfl, -⟩ := runs_done.mp rest
          trivial
      | ok u => exact spaced_attempts retry (attempts_of_runs rest)

end Jobs

/-! ### Notifications -/

section Notifications

open Notifications

variable {Payload : Type} {huge : Nat → Int} {env : Notifications.Envelope Payload}

/-- `jobs.RetryPolicy{...}`, which the loop builds from its own. -/
def ofNotification (retry : Notifications.RetryPolicy) : RetryPolicy :=
  ⟨retry.count, retry.backoff⟩

def dispatches (e : Answered (@SendOp.Res Payload)) : Bool :=
  match e.op with
  | .dispatch _ => true
  | _ => false

/-- A pause of a positive delay that was not cut short. -/
def rests (huge : Nat → Int) (e : Answered (@SendOp.Res Payload)) : Bool :=
  match e with
  | ⟨.wait retry attempt, .ok ()⟩ => 0 < nextDelay huge (ofNotification retry) attempt
  | _ => false

theorem notification_pause_runs {retry : Notifications.RetryPolicy} {n : Nat}
    {trace : List (Answered (@SendOp.Res Payload))} {r : Except String Unit}
    (run : (Notifications.pause (some retry) n).Runs trace r) :
    n = 0 ∧ trace = [] ∧ r = .ok () ∨ 0 < n ∧ trace = [⟨.wait retry n, r⟩] := by
  rcases Nat.eq_zero_or_pos n with rfl | pos
  · obtain ⟨rfl, rfl⟩ := runs_done.mp run
    exact .inl ⟨rfl, rfl, rfl⟩
  · rw [Notifications.pause, if_pos pos] at run
    obtain ⟨answer, later, rfl, rest⟩ := runs_call.mp run
    obtain ⟨rfl, rfl⟩ := runs_done.mp rest
    exact .inr ⟨pos, rfl⟩

theorem spaced_dispatchFrom {retry : Notifications.RetryPolicy} {n left : Nat}
    {last result : Except String Unit} {trace : List (Answered (@SendOp.Res Payload))}
    (run : (dispatchFrom env (some retry) n last left).Runs trace result) {waited : Bool} :
    Spaced dispatches (rests huge) (Paused huge (ofNotification retry)) n waited trace := by
  induction left generalizing n last trace waited with
  | zero =>
      obtain ⟨rfl, -⟩ := runs_done.mp run
      trivial
  | succ left ih =>
      obtain ⟨first, r, second, rfl, paused, rest⟩ := runs_bind.mp run
      have spaced {waited : Bool} (before : 0 < n → (waited = true ↔
          Paused huge (ofNotification retry) n)) (go : r = .ok ()) :
          Spaced dispatches (rests huge) (Paused huge (ofNotification retry)) n waited second := by
        subst go
        obtain ⟨dispatched, later, rfl, after⟩ := runs_call.mp rest
        refine spaced_cons_of_try rfl before ?_
        cases dispatched with
        | ok u =>
            obtain ⟨rfl, -⟩ := runs_done.mp after
            trivial
        | error err => exact ih after
      rcases notification_pause_runs paused with ⟨rfl, rfl, go⟩ | ⟨pos, rfl⟩
      · exact spaced (fun pos => absurd pos (Nat.lt_irrefl 0)) go
      · refine spaced_cons_of_not rfl ?_
        cases r with
        | error err =>
            obtain ⟨rfl, -⟩ := runs_done.mp rest
            trivial
        | ok u =>
            exact spaced (fun pos => decide_eq_true_iff.trans (nextDelay_pos_iff huge pos)) rfl

theorem spaced_dispatchWithRetry {retry : Notifications.RetryPolicy}
    {result : Except String Unit} {trace : List (Answered (@SendOp.Res Payload))}
    (run : (dispatchWithRetry env (some retry)).Runs trace result) :
    Spaced dispatches (rests huge) (Paused huge (ofNotification retry)) 0 false trace :=
  spaced_dispatchFrom run

end Notifications

/-! ### Retry delays -/

/-- Where an exponential delay is the exact one, and which tries of a run have a wait before
them. -/
theorem retryDelays_iff (huge : Nat → Int) (policy : RetryPolicy) :
    (policy.backoff = BackoffExponential → ∀ n, 0 < n →
      (nextDelay huge policy n = exactDelay n ↔ Kept huge n)) ∧
    (∀ {Envelope : Type} (runners : Runners) (contract : JobContract) (envelope : Envelope)
      (handler : Bool) (trace : List (Answered (@JobOp.Res Envelope)))
      (result : Except JobError Unit), contract.retry = some policy →
      (dispatchJob runners huge contract envelope handler).Runs trace result →
      Spaced invokes sleeps (Paused huge policy) 0 false trace) ∧
    ∀ {Payload : Type} (env : Notifications.Envelope Payload) (retry : Notifications.RetryPolicy)
      (trace : List (Answered (@Notifications.SendOp.Res Payload))) (result : Except String Unit),
      ofNotification retry = policy →
      (Notifications.dispatchWithRetry env (some retry)).Runs trace result →
      Spaced dispatches (rests huge) (Paused huge policy) 0 false trace := by
  refine ⟨fun exponential n pos => nextDelay_exact_iff huge exponential pos, ?_, ?_⟩
  · intro Envelope runners contract envelope handler trace result retry run
    exact spaced_dispatchJob retry run
  · rintro Payload env retry trace result rfl run
    exact spaced_dispatchWithRetry run

/-- The fourth retry waits for forty seconds. -/
theorem retryDelays_iff_of_four :
    nextDelay (fun _ => minDuration) ⟨5, BackoffExponential⟩ 4 = exactDelay 4 :=
  ((retryDelays_iff (fun _ => minDuration) ⟨5, BackoffExponential⟩).1 rfl 4 (by decide)).mpr
    (.inl (.inl (by decide)))

/-- The delay before the retry number 32 is negative, and there is none before number 56. -/
theorem delay_wrapped :
    nextDelay (fun _ => minDuration) ⟨64, BackoffExponential⟩ 32 < 0 ∧
      nextDelay (fun _ => minDuration) ⟨64, BackoffExponential⟩ 56 = 0 ∧
        exactDelay 32 = maxDelay ∧ exactDelay 56 = maxDelay := by
  refine ⟨?_, ?_, exactDelay_of_large (by omega), exactDelay_of_large (by omega)⟩
  · decide
  · decide

end Lazuli.Jobs
