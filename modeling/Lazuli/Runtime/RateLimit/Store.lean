import Mathlib.Logic.Function.Basic
import Lazuli.General.Transition
import Lazuli.General.TokenBucket

/-!
The in-process rate limit store (`runtime/go/lazuli/ratelimit.go`).

`InMemoryStore.allow` is `inMemoryStore.Allow`: one bucket for each key, made on
first use, and a sweep (`gcLocked`) that one caller's request triggers and that
drops the buckets of all keys idle for as long as that caller's window. Times and
durations are integer nanoseconds; `golang.org/x/time/rate` is the exact token
bucket it documents.

`neverEvict` says what the store is for: one token bucket for each key, for ever.
A call that reaches its bucket is described once, by `allow_answer`, `allow_own` and
`allow_other`; a call that does not leaves everything as it is (`allow_refused`).
-/

namespace Lazuli.Runtime.RateLimit

open Lazuli.General

/-! ### The store -/

/-- What `ctx.Err` reports of a context that is done. -/
inductive ContextError where
  | canceled
  | deadlineExceeded
  deriving DecidableEq

/-- The arguments of one call to `Allow`, and the clock reading it makes. -/
structure Call where
  ctxErr : Option ContextError
  key : String
  limit : Int
  window : Int
  now : Int
  deriving DecidableEq

/-- The three results of `Allow`. -/
structure Answer where
  allowed : Bool
  retryAfter : Int
  err : Option ContextError
  deriving DecidableEq

structure RateLimitEntry where
  limiter : Bucket
  lastSeen : Int
  deriving DecidableEq

/-- The shared map of buckets. `lastGC = none` is Go's zero time. -/
structure InMemoryRateLimitState where
  limiters : String → Option RateLimitEntry
  lastGC : Option Int

structure InMemoryStore where
  state : Option InMemoryRateLimitState

def minute : Int := 60 * 1000000000

def rateLimitGCInterval : Int := minute

def rateLimitIdleTTL : Int := minute

def emptyState : InMemoryRateLimitState := { limiters := fun _ => none, lastGC := none }

def newInMemoryStore : InMemoryStore := { state := some emptyState }

/-- `rate.NewLimiter(rate.Every(window/limit), limit)`: one token every
`window / limit`, at most `limit` of them, full when made. A division that truncates
to zero is `rate.Inf`, which admits everything. -/
def newLimiter (limit window : Int) (hl : 0 < limit) (hw : 0 < window) : Bucket :=
  Bucket.full (limit * (window / limit)) (window / limit) 0
    (Int.ediv_nonneg hw.le hl.le)
    (by
      have := mul_le_mul_of_nonneg_right (Int.add_one_le_iff.mpr hl)
        (Int.ediv_nonneg hw.le hl.le)
      simpa using this)

namespace InMemoryRateLimitState

/-- The idle threshold is the one of the caller that triggers the sweep. -/
def gcLocked (s : InMemoryRateLimitState) (now window : Int) : InMemoryRateLimitState :=
  let ttl := if window > rateLimitIdleTTL then window else rateLimitIdleTTL
  { limiters := fun key => (s.limiters key).filter fun entry => ¬ now - entry.lastSeen ≥ ttl
    lastGC := some now }

def setEntry (s : InMemoryRateLimitState) (key : String) (entry : RateLimitEntry) :
    InMemoryRateLimitState :=
  { s with limiters := Function.update s.limiters key (some entry) }

/-- The sweep is due when there was none yet or a minute ago. -/
def gcDue (s : InMemoryRateLimitState) (now : Int) : Bool :=
  match s.lastGC with
  | none => true
  | some last => now - last ≥ rateLimitGCInterval

/-- `Allow` on a state. A bucket never holds less than one token when full, so
`reservation.OK` always holds and its branch is absent. -/
def allow (s : InMemoryRateLimitState) (c : Call) : InMemoryRateLimitState × Answer :=
  match c.ctxErr with
  | some err => (s, ⟨false, 0, some err⟩)
  | none =>
      if h : c.limit ≤ 0 ∨ c.window ≤ 0 then (s, ⟨false, c.window, none⟩)
      else
        let limiter : Bucket := match s.limiters c.key with
          | some entry => entry.limiter
          | none => newLimiter c.limit c.window (by omega) (by omega)
        let reservation := limiter.reserve c.now
        if 0 < reservation.2 then
          (s.setEntry c.key ⟨reservation.1.cancel c.now, c.now⟩, ⟨false, reservation.2, none⟩)
        else
          let s := s.setEntry c.key ⟨reservation.1, c.now⟩
          (if s.gcDue c.now then s.gcLocked c.now c.window else s, ⟨true, 0, none⟩)

end InMemoryRateLimitState

/-- `inMemoryStore.Allow`. A store without a state answers from a fresh one that it
does not keep. -/
def InMemoryStore.allow (store : InMemoryStore) (c : Call) : InMemoryStore × Answer :=
  match store.state with
  | some s => (⟨some (s.allow c).1⟩, (s.allow c).2)
  | none => (store, (emptyState.allow c).2)

/-! ### The buckets it stands for -/

/-- One token bucket for each key that was ever used. -/
abbrev Buckets := String → Option Bucket

/-- The store without the sweep: a bucket, once made, is kept. -/
def neverEvict (buckets : Buckets) (c : Call) : Buckets × Answer :=
  match c.ctxErr with
  | some err => (buckets, ⟨false, 0, some err⟩)
  | none =>
      if h : c.limit ≤ 0 ∨ c.window ≤ 0 then (buckets, ⟨false, c.window, none⟩)
      else
        let bucket := (buckets c.key).getD (newLimiter c.limit c.window (by omega) (by omega))
        let taken := bucket.tryTake c.now
        (Function.update buckets c.key (some taken.1), ⟨taken.2 = 0, taken.2, none⟩)

/-- A call that reaches the bucket of its key. -/
structure Call.Effective (c : Call) : Prop where
  ctx : c.ctxErr = none
  limit : 0 < c.limit
  window : 0 < c.window

instance (c : Call) : Decidable c.Effective :=
  decidable_of_iff (c.ctxErr = none ∧ 0 < c.limit ∧ 0 < c.window)
    ⟨fun ⟨h₁, h₂, h₃⟩ => ⟨h₁, h₂, h₃⟩, fun h => ⟨h.ctx, h.limit, h.window⟩⟩

/-! ### What one call does -/

/-- The bucket a call finds, or makes. -/
def InMemoryRateLimitState.bucket (s : InMemoryRateLimitState) (c : Call) (h : c.Effective) :
    Bucket :=
  match s.limiters c.key with
  | some entry => entry.limiter
  | none => newLimiter c.limit c.window h.limit h.window

section Allow

variable {s : InMemoryRateLimitState} {c : Call}

/-- A call that does not reach a bucket changes nothing, and is answered without
looking at the state. -/
theorem allow_refused (s : InMemoryRateLimitState) (buckets : Buckets) (h : ¬ c.Effective) :
    (s.allow c).1 = s ∧ (s.allow c).2.allowed = false ∧
      neverEvict buckets c = (buckets, (s.allow c).2) := by
  unfold InMemoryRateLimitState.allow neverEvict
  cases ctx : c.ctxErr with
  | some err => exact ⟨rfl, rfl, rfl⟩
  | none =>
      have bad : c.limit ≤ 0 ∨ c.window ≤ 0 := by
        by_contra good
        exact h ⟨ctx, by omega, by omega⟩
      simp only [dif_pos bad]
      exact ⟨trivial, trivial, trivial⟩

/-- A call that reaches its bucket, the sweep left open. -/
theorem allow_effective (h : c.Effective) :
    s.allow c =
      if ((s.bucket c h).tryTake c.now).2 = 0 then
        (if (s.setEntry c.key ⟨((s.bucket c h).tryTake c.now).1, c.now⟩).gcDue c.now then
            (s.setEntry c.key ⟨((s.bucket c h).tryTake c.now).1, c.now⟩).gcLocked c.now c.window
          else s.setEntry c.key ⟨((s.bucket c h).tryTake c.now).1, c.now⟩,
          ⟨true, 0, none⟩)
      else
        (s.setEntry c.key ⟨((s.bucket c h).tryTake c.now).1, c.now⟩,
          ⟨false, ((s.bucket c h).tryTake c.now).2, none⟩) := by
  have good : ¬ (c.limit ≤ 0 ∨ c.window ≤ 0) := by
    have := h.limit
    have := h.window
    omega
  unfold InMemoryRateLimitState.allow
  simp only [h.ctx, dif_neg good]
  change (if 0 < ((s.bucket c h).reserve c.now).2 then _ else _) = _
  rw [Bucket.tryTake_eq_reserve]
  by_cases wait : 0 < ((s.bucket c h).reserve c.now).2
  · simp only [if_pos wait, if_neg wait.ne']
    rfl
  · simp only [if_neg wait]
    rfl

theorem allow_answer (h : c.Effective) :
    (s.allow c).2 = ⟨((s.bucket c h).tryTake c.now).2 = 0,
      ((s.bucket c h).tryTake c.now).2, none⟩ := by
  rw [allow_effective h]
  split
  case isTrue zero => simp [zero]
  case isFalse wait => simp [wait]

/-- The sweep never drops an entry that was just used. -/
theorem gcLocked_keeps {entry : RateLimitEntry} {key : String} {now window : Int}
    (present : s.limiters key = some entry) (fresh : entry.lastSeen = now) :
    (s.gcLocked now window).limiters key = some entry := by
  have positive : 0 < (if window > rateLimitIdleTTL then window else rateLimitIdleTTL) := by
    have : 0 < rateLimitIdleTTL := by decide
    split <;> omega
  simp only [InMemoryRateLimitState.gcLocked, present]
  exact Option.filter_some_pos (by simp only [decide_eq_true_eq]; omega)

/-- The sweep changes no entry that it does not drop. -/
theorem gcLocked_drops (s : InMemoryRateLimitState) (key : String) (now window : Int) :
    (s.gcLocked now window).limiters key = s.limiters key ∨
      (s.gcLocked now window).limiters key = none := by
  cases swept : (s.gcLocked now window).limiters key with
  | none => exact .inr rfl
  | some entry =>
      simp only [InMemoryRateLimitState.gcLocked, Option.filter_eq_some_iff] at swept
      exact .inl swept.1.symm

/-- The caller's own bucket is there afterwards. -/
theorem allow_own (h : c.Effective) :
    (s.allow c).1.limiters c.key = some ⟨((s.bucket c h).tryTake c.now).1, c.now⟩ := by
  have own : (s.setEntry c.key ⟨((s.bucket c h).tryTake c.now).1, c.now⟩).limiters c.key =
      some ⟨((s.bucket c h).tryTake c.now).1, c.now⟩ := Function.update_self ..
  rw [allow_effective h]
  split
  case isFalse wait => exact own
  case isTrue zero =>
    simp only
    split
    case isTrue due => exact gcLocked_keeps own rfl
    case isFalse due => exact own

/-- Another key's bucket is untouched, or swept. -/
theorem allow_other (s : InMemoryRateLimitState) (h : c.Effective) {key : String} (other : key ≠ c.key) :
    (s.allow c).1.limiters key = s.limiters key ∨ (s.allow c).1.limiters key = none := by
  have kept (entry : RateLimitEntry) :
      (s.setEntry c.key entry).limiters key = s.limiters key := Function.update_of_ne other ..
  rw [allow_effective h]
  split
  case isFalse wait => exact .inl (kept _)
  case isTrue zero =>
    simp only
    split
    case isFalse due => exact .inl (kept _)
    case isTrue due => exact kept _ ▸ gcLocked_drops _ key c.now c.window

end Allow

/-- A store made by `newInMemoryStore` answers as its state does. -/
theorem runOutputs_store (s : InMemoryRateLimitState) (calls : List Call) :
    runOutputs InMemoryStore.allow ⟨some s⟩ calls =
      runOutputs InMemoryRateLimitState.allow s calls := by
  induction calls generalizing s with
  | nil => rfl
  | cons c calls ih => exact congrArg _ (ih _)

end Lazuli.Runtime.RateLimit

/-!
When the sweep of idle buckets can be noticed.

The comment on `rateLimitIdleTTL` promises that the threshold grows with the
bucket's own window. `gcLocked` uses the window of the caller that triggers the
sweep, so a bucket with a long window is dropped by a caller with a short one, and
its next request finds a full bucket.

`watch` runs the store and remembers the buckets it swept. A request goes
`Unnoticed` when the swept bucket of its key would be full again by now; along a
run of such requests the store answers like `neverEvict`
(`allow_eq_neverEvict`). `sweep_noticed` is a run in which it does not.
-/

namespace Lazuli.Runtime.RateLimit

open Lazuli.General

/-- The store, and for each key the bucket it last lost to a sweep. -/
structure Watched where
  state : InMemoryRateLimitState
  swept : Buckets

def watchedStart : Watched := { state := emptyState, swept := fun _ => none }

/-- Run the store and record what it sweeps. -/
def watch (w : Watched) (c : Call) : Watched × Answer :=
  ({ state := (w.state.allow c).1
     swept := fun key =>
       match w.state.limiters key, (w.state.allow c).1.limiters key with
       | some entry, none => some entry.limiter
       | _, _ => w.swept key },
    (w.state.allow c).2)

/-- Left alone until `c`, the bucket would be the one that `c` makes. -/
def FullAgain (b : Bucket) (c : Call) : Prop :=
  b.cost = c.window / c.limit ∧ b.capacity = c.limit * (c.window / c.limit) ∧
    b.refilled c.now = b.capacity

/-- The call does not come back to a swept bucket too early. -/
def Unnoticed (w : Watched) (c : Call) : Prop :=
  c.Effective → w.state.limiters c.key = none → ∀ b ∈ w.swept c.key, FullAgain b c

instance (b : Bucket) (c : Call) : Decidable (FullAgain b c) :=
  inferInstanceAs (Decidable (_ ∧ _ ∧ _))

instance (w : Watched) (c : Call) : Decidable (Unnoticed w c) :=
  inferInstanceAs (Decidable (_ → _ → ∀ b ∈ w.swept c.key, FullAgain b c))

/-- The buckets that the store stands for: the live ones, and the swept ones where
no new one was made. -/
def Watched.Stands (w : Watched) (buckets : Buckets) : Prop :=
  ∀ key, buckets key = ((w.state.limiters key).map (·.limiter)).or (w.swept key)

section Step

variable {w : Watched} {buckets : Buckets} {c : Call}

/-- An unnoticed call takes from a bucket that looks like the one never evicted. -/
theorem Watched.Stands.tryTake_eq (stands : w.Stands buckets) (unnoticed : Unnoticed w c)
    (h : c.Effective) :
    ((buckets c.key).getD (newLimiter c.limit c.window h.limit h.window)).tryTake c.now =
      (w.state.bucket c h).tryTake c.now := by
  rw [stands c.key]
  unfold InMemoryRateLimitState.bucket
  cases live : w.state.limiters c.key with
  | some entry => rfl
  | none =>
      cases swept : w.swept c.key with
      | none => rfl
      | some b =>
          obtain ⟨cost, capacity, full⟩ := unnoticed h live b swept
          refine Bucket.tryTake_congr capacity cost ?_
          rw [newLimiter, Bucket.full_refilled]
          exact full.trans capacity

/-- What the watched state stands for, after a call that reached its bucket. -/
theorem Watched.Stands.allow (stands : w.Stands buckets) (h : c.Effective) :
    (watch w c).1.Stands
      (Function.update buckets c.key (some ((w.state.bucket c h).tryTake c.now).1)) := by
  intro key
  by_cases own : key = c.key
  · subst own
    rw [Function.update_self]
    simp only [watch, allow_own h, Option.map_some, Option.some_or]
  · rw [Function.update_of_ne own, stands key]
    simp only [watch]
    rcases allow_other w.state h own with kept | swept
    · rw [kept]
      cases w.state.limiters key <;> rfl
    · rw [swept]
      cases w.state.limiters key <;> rfl

/-- **One call.** An unnoticed call gets the answer of the bucket that is never
evicted, and the two stores still stand for the same buckets. -/
theorem watch_lockstep (stands : w.Stands buckets) (unnoticed : Unnoticed w c) :
    (watch w c).2 = (neverEvict buckets c).2 ∧
      (watch w c).1.Stands (neverEvict buckets c).1 := by
  by_cases h : c.Effective
  · have good : ¬ (c.limit ≤ 0 ∨ c.window ≤ 0) := by
      have := h.limit
      have := h.window
      omega
    have same := stands.tryTake_eq unnoticed h
    have spec : neverEvict buckets c =
        (Function.update buckets c.key (some ((w.state.bucket c h).tryTake c.now).1),
          ⟨((w.state.bucket c h).tryTake c.now).2 = 0,
            ((w.state.bucket c h).tryTake c.now).2, none⟩) := by
      simp only [neverEvict, h.ctx, dif_neg good]
      rw [same]
    rw [spec]
    exact ⟨allow_answer h, stands.allow h⟩
  · obtain ⟨unchanged, -, spec⟩ := allow_refused w.state buckets h
    rw [spec]
    refine ⟨rfl, fun key => ?_⟩
    change buckets key = _
    rw [stands key]
    simp only [watch, unchanged]
    cases w.state.limiters key <;> rfl

end Step

/-- Watching does not change the answers. -/
theorem runOutputs_watch (w : Watched) (calls : List Call) :
    runOutputs watch w calls = runOutputs InMemoryRateLimitState.allow w.state calls := by
  induction calls generalizing w with
  | nil => rfl
  | cons c calls ih => exact congrArg _ (ih _)

/-- **The sweep is invisible** to a run in which no call comes back to a swept bucket
before it would be full again, or with another limit or refill interval. -/
theorem allow_eq_neverEvict (calls : List Call)
    (unnoticed : Along watch Unnoticed watchedStart calls) :
    runOutputs InMemoryStore.allow newInMemoryStore calls =
      runOutputs neverEvict (fun _ => none) calls := by
  have start : watchedStart.Stands fun _ => none := fun _ => rfl
  have same : runOutputs watch watchedStart calls = runOutputs neverEvict (fun _ => none) calls := by
    refine runOutputs_eq_of_simulation (R := fun w buckets _ => Watched.Stands w buckets) ?_
      start unnoticed
    intro w buckets c _ stands quiet
    exact watch_lockstep stands quiet
  rw [newInMemoryStore, runOutputs_store, ← same, runOutputs_watch]
  rfl

/-- One request an hour on `a`; ten a minute on `b`, whose request a minute later
sweeps `a`. -/
def hourlyThenMinutely (back : Int) : List Call :=
  [⟨none, "a", 1, 60 * minute, 0⟩, ⟨none, "b", 10, minute, minute⟩,
    ⟨none, "a", 1, 60 * minute, back⟩]

/-- Coming back after the hour goes unnoticed. -/
theorem allow_eq_neverEvict_hour :
    runOutputs InMemoryStore.allow newInMemoryStore (hourlyThenMinutely (60 * minute)) =
      runOutputs neverEvict (fun _ => none) (hourlyThenMinutely (60 * minute)) :=
  allow_eq_neverEvict (hourlyThenMinutely (60 * minute)) (by decide)

/-- Coming back a second after the sweep is noticed: the second request within the
hour is admitted. -/
theorem sweep_noticed :
    ¬ ∀ calls : List Call, calls.Pairwise (fun c d => c.now ≤ d.now) →
      runOutputs InMemoryStore.allow newInMemoryStore calls =
        runOutputs neverEvict (fun _ => none) calls := by
  intro invisible
  have same := invisible (hourlyThenMinutely (minute + 1000000000)) (by decide)
  exact absurd same (by decide)

end Lazuli.Runtime.RateLimit
