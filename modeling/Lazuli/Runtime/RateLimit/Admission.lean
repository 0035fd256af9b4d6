import Lazuli.Runtime.RateLimit.Store

/-!
How many requests a window admits.

The contract of `Store` is that no more than about `limit` requests are admitted in
any window, and the comment on `inMemoryStore` that a token bucket never admits the
burst of twice the limit. A bucket that starts full and refills at the same time
admits up to `limit + (window - 1) / (window / limit)` of them (`admittedTimes_le`),
which for most limits is close to twice the limit.

`admission_bound_iff` settles for which limits, windows and orders of arrival the
bound `limit + 1` holds.
-/

namespace Lazuli.Runtime.RateLimit

open Lazuli.General

/-- The times at which a call was answered with `allowed`. -/
def admittedTimes (store : InMemoryStore) (calls : List Call) : List Int :=
  ((calls.zip (runOutputs InMemoryStore.allow store calls)).filter (·.2.allowed)).map (·.1.now)

/-- All calls address one bucket, with one limit and one window. -/
def CallsOn (key : String) (limit window : Int) (calls : List Call) : Prop :=
  ∀ c ∈ calls, c.key = key ∧ c.limit = limit ∧ c.window = window

/-- The calls take the store's lock in the order of their clock readings. -/
def InTimeOrder (calls : List Call) : Prop := calls.Pairwise fun c d => c.now ≤ d.now

instance (calls : List Call) : Decidable (InTimeOrder calls) :=
  inferInstanceAs (Decidable (calls.Pairwise fun c d => c.now ≤ d.now))

/-- The clock readings of the calls whose context is not done. -/
def liveTimes (calls : List Call) : List Int :=
  (calls.filter (·.ctxErr = none)).map (·.now)

/-! ### The store on one key is one bucket -/

section OneKey

variable {key : String} {limit window : Int}

/-- The bucket of `key`, or the one its first call makes. -/
def bucketOf (s : InMemoryRateLimitState) (key : String) (fresh : Bucket) : Bucket :=
  ((s.limiters key).map (·.limiter)).getD fresh

theorem admittedTimes_eq (hl : 0 < limit) (hw : 0 < window) {calls : List Call}
    (onKey : CallsOn key limit window calls) (s : InMemoryRateLimitState) :
    admittedTimes ⟨some s⟩ calls =
      (bucketOf s key (newLimiter limit window hl hw)).admitted (liveTimes calls) := by
  unfold admittedTimes
  rw [runOutputs_store]
  induction calls generalizing s with
  | nil => rfl
  | cons c calls ih =>
      obtain ⟨⟨rfl, rfl, rfl⟩, rest⟩ := List.forall_mem_cons.mp onKey
      have ih := ih rest (s.allow c).1
      rw [runOutputs_cons, List.zip_cons_cons]
      cases ctx : c.ctxErr with
      | some err =>
          have refused := allow_refused (c := c) s (fun _ => none) fun h => by
            simp [h.ctx] at ctx
          rw [List.filter_cons_of_neg (by simp [refused.2.1]), ih, refused.1]
          simp [liveTimes, ctx]
      | none =>
          have h : c.Effective := ⟨ctx, hl, hw⟩
          have found : bucketOf s c.key (newLimiter c.limit c.window hl hw) = s.bucket c h := by
            unfold bucketOf InMemoryRateLimitState.bucket
            cases s.limiters c.key <;> rfl
          have next : bucketOf (s.allow c).1 c.key (newLimiter c.limit c.window hl hw) =
              ((s.bucket c h).tryTake c.now).1 := by
            simp only [bucketOf, allow_own h, Option.map_some, Option.getD_some]
          have live : liveTimes (c :: calls) = c.now :: liveTimes calls := by
            simp [liveTimes, ctx]
          rw [live, found]
          rw [next] at ih
          by_cases zero : ((s.bucket c h).tryTake c.now).2 = 0
          · rw [Bucket.admitted_cons_of_zero zero, List.filter_cons_of_pos, List.map_cons, ih]
            simp [allow_answer h, zero]
          · rw [Bucket.admitted_cons_of_wait zero, List.filter_cons_of_neg, ih]
            simp [allow_answer h, zero]

/-- From the first call on, the key's bucket is the one its first call makes. -/
theorem admittedTimes_new (hl : 0 < limit) (hw : 0 < window) {calls : List Call}
    (onKey : CallsOn key limit window calls) :
    admittedTimes newInMemoryStore calls =
      (newLimiter limit window hl hw).admitted (liveTimes calls) :=
  admittedTimes_eq hl hw onKey emptyState

theorem liveTimes_sorted {calls : List Call} (ordered : InTimeOrder calls) :
    (liveTimes calls).Pairwise (· ≤ ·) :=
  List.pairwise_map.mpr (ordered.sublist List.filter_sublist)

/-- The calls at given times, none of them cancelled. -/
def callsAt (key : String) (limit window : Int) (times : List Int) : List Call :=
  times.map fun now => ⟨none, key, limit, window, now⟩

theorem callsAt_onKey (times : List Int) :
    CallsOn key limit window (callsAt key limit window times) := by
  intro c mem
  obtain ⟨now, -, rfl⟩ := List.mem_map.mp mem
  exact ⟨rfl, rfl, rfl⟩

theorem liveTimes_callsAt (times : List Int) :
    liveTimes (callsAt key limit window times) = times := by
  simp [liveTimes, callsAt, List.filter_map, Function.comp_def]

theorem callsAt_inTimeOrder {times : List Int} (sorted : times.Pairwise (· ≤ ·)) :
    InTimeOrder (callsAt key limit window times) :=
  List.pairwise_map.mpr sorted

end OneKey

/-! ### The bound -/

section Bound

variable {key : String} {limit window : Int}

/-- In time order, the requests a window admits are paid for by the full bucket and by
the rest of the window. -/
theorem admittedTimes_le (hl : 0 < limit) (hw : 0 < window) {calls : List Call}
    (onKey : CallsOn key limit window calls) (ordered : InTimeOrder calls) (start : Int) :
    window / limit * Bucket.countIn start (start + window) (admittedTimes newInMemoryStore calls) ≤
      limit * (window / limit) + (window - 1) := by
  rw [admittedTimes_new hl hw onKey]
  have cap : 0 ≤ (newLimiter limit window hl hw).level :=
    (newLimiter limit window hl hw).cost_nonneg.trans (newLimiter limit window hl hw).cost_le
  exact Bucket.cost_mul_admitted_le (b := newLimiter limit window hl hw) hw cap
    (liveTimes_sorted ordered)

/-- The refill interval is at least half the window only for the two smallest limits. -/
theorem window_le_two_mul_interval_iff (hl : 0 < limit) (hw : 0 < window) :
    window ≤ 2 * (window / limit) ↔ limit = 1 ∨ limit = 2 ∧ 2 ∣ window := by
  constructor
  · intro half
    have two : limit ≤ 2 := by
      by_contra three
      have shares : 3 * (window / limit) ≤ limit * (window / limit) :=
        mul_le_mul_of_nonneg_right (by omega) (Int.ediv_nonneg hw.le hl.le)
      have whole : limit * (window / limit) ≤ window := Int.mul_ediv_self_le hl.ne'
      omega
    have cases : limit = 1 ∨ limit = 2 := by omega
    rcases cases with rfl | rfl
    · exact .inl rfl
    · exact .inr ⟨rfl, by omega⟩
  · rintro (rfl | ⟨rfl, even⟩)
    · simp only [Int.ediv_one]
      omega
    · omega

/-- With a refill interval of at least half the window, the bound of the contract
holds in time order. -/
theorem countIn_le_succ (hl : 0 < limit) (hw : 0 < window)
    (half : window ≤ 2 * (window / limit)) {calls : List Call}
    (onKey : CallsOn key limit window calls) (ordered : InTimeOrder calls) (start : Int) :
    (Bucket.countIn start (start + window) (admittedTimes newInMemoryStore calls) : Int) ≤
      limit + 1 := by
  have paid := admittedTimes_le hl hw onKey ordered start
  set count := Bucket.countIn start (start + window) (admittedTimes newInMemoryStore calls)
  have interval : 0 < window / limit := by omega
  have strict : window / limit * count < window / limit * (limit + 2) := by
    calc window / limit * count ≤ limit * (window / limit) + (window - 1) := paid
      _ < limit * (window / limit) + 2 * (window / limit) := by omega
      _ = window / limit * (limit + 2) := by ring
  have := lt_of_mul_lt_mul_left strict interval.le
  omega

/-- A full burst and two refills: `limit + 2` requests within two refill intervals. -/
def burstTimes (limit window : Int) : List Int :=
  List.replicate limit.toNat 0 ++ [window / limit, 2 * (window / limit)]

theorem burstTimes_sorted (hl : 0 < limit) (hw : 0 < window) :
    (burstTimes limit window).Pairwise (· ≤ ·) := by
  have := Int.ediv_nonneg hw.le hl.le
  refine List.pairwise_append.mpr ⟨List.pairwise_replicate.mpr (.inr le_rfl), ?_, ?_⟩
  · simp only [List.pairwise_cons, List.mem_singleton, forall_eq]
    exact ⟨by omega, by simp⟩
  · intro a ha b hb
    obtain rfl := List.eq_of_mem_replicate ha
    simp only [List.mem_cons, List.not_mem_nil, or_false] at hb
    rcases hb with rfl | rfl <;> omega

/-- The store admits all of them. -/
theorem burstTimes_admitted (hl : 0 < limit) (hw : 0 < window) :
    (newLimiter limit window hl hw).admitted (burstTimes limit window) =
      burstTimes limit window := by
  set interval := window / limit with hi
  set b := newLimiter limit window hl hw with hb
  have nonneg : 0 ≤ interval := Int.ediv_nonneg hw.le hl.le
  obtain ⟨n, hn⟩ : ∃ n, limit.toNat = n + 1 := ⟨limit.toNat - 1, by omega⟩
  have cap : b.capacity = limit * interval := rfl
  have cost : b.cost = interval := rfl
  have full : b.refilled 0 = limit * interval := Bucket.full_refilled _ _ _ _ _ 0
  have size : ((n : Int) + 1) = limit := by omega
  obtain ⟨b', burst, cap', cost', last, level⟩ := Bucket.admitted_replicate (b := b) (n := n)
    (t := 0) [interval, 2 * interval] (by rw [size, cost, full])
  rw [size, full, cost, sub_self] at level
  rw [cap] at cap'
  rw [cost] at cost'
  have room : interval ≤ limit * interval := le_mul_of_one_le_left nonneg hl
  -- the bucket is empty at 0, and each refill interval pays for one request
  have refill : b'.refilled interval = interval := by
    simp only [Bucket.refilled, cap', last, level]
    omega
  have first : (b'.tryTake interval).2 = 0 := by
    rw [Bucket.tryTake_wait_eq_zero_iff]
    omega
  have second : ((b'.tryTake interval).1.tryTake (2 * interval)).2 = 0 := by
    have left := Bucket.tryTake_level b' interval
    rw [if_pos first] at left
    rw [Bucket.tryTake_wait_eq_zero_iff]
    simp only [Bucket.refilled, Bucket.tryTake_capacity, Bucket.tryTake_cost,
      Bucket.tryTake_last]
    omega
  rw [burstTimes, ← hi, hn, burst, Bucket.admitted_cons_of_zero first,
    Bucket.admitted_cons_of_zero second]
  rfl

/-- With a shorter refill interval, a full bucket exceeds the bound. -/
theorem burst_exceeds (key : String) (hl : 0 < limit) (hw : 0 < window)
    (short : 2 * (window / limit) < window) :
    limit + 2 ≤ Bucket.countIn 0 (0 + window)
      (admittedTimes newInMemoryStore (callsAt key limit window (burstTimes limit window))) := by
  rw [admittedTimes_new hl hw (callsAt_onKey _), liveTimes_callsAt, burstTimes_admitted]
  have nonneg := Int.ediv_nonneg hw.le hl.le
  have all : Bucket.countIn 0 (0 + window) (burstTimes limit window) =
      (burstTimes limit window).length := by
    refine List.countP_eq_length.mpr fun t mem => ?_
    simp only [decide_eq_true_eq]
    rcases List.mem_append.mp mem with mem | mem
    · obtain rfl := List.eq_of_mem_replicate mem
      omega
    · simp only [List.mem_cons, List.not_mem_nil, or_false] at mem
      rcases mem with rfl | rfl <;> omega
  rw [all]
  simp only [burstTimes, List.length_append, List.length_replicate, List.length_cons,
    List.length_nil]
  omega

/-- When the lock is not taken in time order, a clock that swings by one refill
interval refills the bucket at every swing. -/
theorem swing_exceeds (key : String) (hl : 0 < limit) (hw : 0 < window) (n : Nat) :
    n ≤ Bucket.countIn (window / limit) (window / limit + window)
      (admittedTimes newInMemoryStore
        (callsAt key limit window (List.replicate n [0, window / limit]).flatten)) := by
  rw [admittedTimes_new hl hw (callsAt_onKey _), liveTimes_callsAt]
  have cap : 0 ≤ (newLimiter limit window hl hw).level :=
    (newLimiter limit window hl hw).cost_nonneg.trans (newLimiter limit window hl hw).cost_le
  have swing := Bucket.le_countIn_admitted_swing (b := newLimiter limit window hl hw) 0 window
    cap hw n
  rw [zero_add] at swing
  exact swing

/-- **The admission bound.** No window holds more than `limit + 1` admitted requests,
whatever the calls, exactly when the calls are made in time order and the limit is
one, or two with an even window. -/
theorem admission_bound_iff (key : String) (limit window : Int) (hl : 0 < limit)
    (hw : 0 < window) (ordered : Bool) :
    (∀ calls start, CallsOn key limit window calls → (ordered → InTimeOrder calls) →
        (Bucket.countIn start (start + window) (admittedTimes newInMemoryStore calls) : Int) ≤
          limit + 1) ↔
      ordered ∧ (limit = 1 ∨ limit = 2 ∧ 2 ∣ window) := by
  rw [← window_le_two_mul_interval_iff hl hw]
  constructor
  · intro bound
    cases ordered with
    | false =>
        have swing := swing_exceeds key hl hw (limit + 2).toNat
        have := bound _ (window / limit)
          (callsAt_onKey (List.replicate (limit + 2).toNat [0, window / limit]).flatten) (by simp)
        omega
    | true =>
        refine ⟨rfl, ?_⟩
        by_contra short
        have burst := burst_exceeds key hl hw (by omega)
        have := bound _ 0 (callsAt_onKey (burstTimes limit window))
          fun _ => callsAt_inTimeOrder (burstTimes_sorted hl hw)
        omega
  · rintro ⟨inOrder, half⟩ calls start onKey order
    exact countIn_le_succ hl hw half onKey (order inOrder) start

/-- Two requests a minute: the bound holds. -/
theorem admission_bound_iff_two :
    (∀ calls start, CallsOn "ip" 2 minute calls → (true → InTimeOrder calls) →
      (Bucket.countIn start (start + minute) (admittedTimes newInMemoryStore calls) : Int) ≤
        2 + 1) ∧ 2 ∣ minute :=
  ⟨(admission_bound_iff "ip" 2 minute (by decide) (by decide) true).mpr (by decide), by decide⟩

/-- Three requests every three seconds, used in full at 0 and once a second after
that: five admitted requests within three seconds. -/
theorem admission_bound_exceeded :
    ¬ ∀ (key : String) (limit window : Int) (calls : List Call) (start : Int),
      0 < limit → 0 < window → CallsOn key limit window calls → InTimeOrder calls →
        (Bucket.countIn start (start + window) (admittedTimes newInMemoryStore calls) : Int) ≤
          limit + 1 := by
  intro bound
  have three := bound "ip" 3 3000000000
    (callsAt "ip" 3 3000000000 [0, 0, 0, 1000000000, 2000000000]) 0 (by decide) (by decide)
    (callsAt_onKey _) (by decide)
  exact absurd three (by decide)

end Bound

end Lazuli.Runtime.RateLimit
