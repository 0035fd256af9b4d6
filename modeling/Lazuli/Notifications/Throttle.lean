import Mathlib
import Lazuli.General.TokenBucket
import Lazuli.Notifications.Identity
import Lazuli.Runtime.DurationLiterals

/-!
The stores behind `Send` (`runtime/go/lazuli/notifications/throttle_store.go`, `digest_store.go`).

`exec` carries the operations of `send` out on the in-process stores: a token bucket for each
throttle key, and the payloads that wait for each digest. `World` also notes what has happened:
which tokens were given and which envelopes were delivered, which payloads were added and which were
flushed. One operation keeps the notes right (`Inv.exec`), and so does any sequence of calls of
`Send` and of flushes (`Inv.run`). `run_bounded` says what follows: a window holds no more envelopes
than a full bucket and its refill pay for, and every payload is flushed once, in order, or waits.
-/

namespace Lazuli.Notifications

open Lazuli.General
open Lazuli.Runtime.DurationLiterals (throttleDuration)

/-! ### The throttle store -/

structure MemoryThrottleStore where
  limiters : ThrottleKey → Option Bucket

/-- Without a burst there is one token. -/
def NotificationThrottle.tokens (spec : NotificationThrottle) : Nat :=
  if spec.burst = 0 then 1 else spec.burst.toNat

theorem NotificationThrottle.tokens_pos (spec : NotificationThrottle) : 0 < spec.tokens := by
  unfold tokens
  split
  case isTrue => exact Nat.one_pos
  case isFalse some => exact Nat.pos_of_ne_zero fun zero => some (UInt32.toNat_inj.mp zero)

/-- The time between two tokens. `rate.Every` makes of a negative one what it makes of zero. -/
def interval (window : Int) (tokens : Nat) : Int := max 0 (window.tdiv tokens)

theorem interval_nonneg (window : Int) (tokens : Nat) : 0 ≤ interval window tokens :=
  le_max_left _ _

/-- `rate.NewLimiter`: full when it is made. -/
def throttleLimiter (window : Int) (spec : NotificationThrottle) : Bucket :=
  Bucket.full (spec.tokens * interval window spec.tokens) (interval window spec.tokens) 0
    (interval_nonneg _ _)
    (le_mul_of_one_le_left (interval_nonneg _ _) (by have := spec.tokens_pos; omega))

def errInvalidDuration : String := "notifications: invalid duration literal"

/-- The three results of `Allow`. -/
structure Allowance where
  allowed : Bool
  retryAt : Option Int
  err : Option StoreError
  deriving DecidableEq

namespace MemoryThrottleStore

def setLimiter (m : MemoryThrottleStore) (key : ThrottleKey) (b : Bucket) : MemoryThrottleStore :=
  ⟨Function.update m.limiters key (some b)⟩

/-- The key's limiter, or the one that its first call makes. -/
def limiter (m : MemoryThrottleStore) (key : ThrottleKey) (window : Int)
    (spec : NotificationThrottle) : Bucket :=
  (m.limiters key).getD (throttleLimiter window spec)

/-- A token that would have to be waited for is given back. -/
def allow (m : MemoryThrottleStore) (key : ThrottleKey) (spec : NotificationThrottle) (now : Int) :
    MemoryThrottleStore × Allowance :=
  match throttleDuration spec.maxPer.toList with
  | none => (m, ⟨false, none, some (.other errInvalidDuration)⟩)
  | some window =>
      let r := (m.limiter key window spec).reserve now
      if r.2 = 0 then (m.setLimiter key r.1, ⟨true, none, none⟩)
      else (m.setLimiter key (r.1.cancel now), ⟨false, some (now + r.2), some .expected⟩)

end MemoryThrottleStore

/-! ### The digest store -/

structure DigestKey where
  notification : String
  groupByValue : String
  deriving DecidableEq

structure MemoryBucket (Payload : Type) where
  openedAt : Int
  payloads : List Payload
  deriving DecidableEq

structure MemoryDigestStore (Payload : Type) where
  buckets : DigestKey → Option (MemoryBucket Payload)
  maxSize : UInt32

namespace MemoryDigestStore

variable {Payload : Type}

def pending (m : MemoryDigestStore Payload) (key : DigestKey) : List Payload :=
  (m.buckets key).elim [] (·.payloads)

/-- The payload is kept in any case. A full bucket is reported. -/
def add (m : MemoryDigestStore Payload) (key : DigestKey) (payload : Payload) (now : Int) :
    MemoryDigestStore Payload × UInt32 × Bool × Option StoreError :=
  let bucket := (m.buckets key).getD ⟨now, []⟩
  let payloads := bucket.payloads ++ [payload]
  let size := UInt32.ofNat payloads.length
  let m := { m with buckets := Function.update m.buckets key (some ⟨bucket.openedAt, payloads⟩) }
  if 0 < m.maxSize ∧ m.maxSize ≤ size then (m, size, true, some .expected)
  else (m, size, false, none)

def flush (m : MemoryDigestStore Payload) (key : DigestKey) :
    MemoryDigestStore Payload × List Payload :=
  ({ m with buckets := Function.update m.buckets key none }, m.pending key)

end MemoryDigestStore

/-! ### Runs -/

/-- The stores, and what has happened. `token` is the latest that no envelope has used, with the
time at which it was given, and `opened` the throttle that a limiter was made for. -/
structure World (Payload : Type) where
  clock : Int
  throttle : MemoryThrottleStore
  digest : MemoryDigestStore Payload
  token : Option (ThrottleKey × Int)
  opened : ThrottleKey → Option NotificationThrottle
  admitted : List (ThrottleKey × Int)
  delivered : List (ThrottleKey × Option Int)
  added : List (DigestKey × Payload)
  flushed : List (DigestKey × List Payload)

/-- How much time has passed, and what an adapter or the context answers. -/
structure Choice where
  elapsed : Nat
  answer : Except String Unit

section Runs

variable {Payload : Type}

/-- The throttle of a call, when there is a store for it. -/
def Call.throttle (call : Call Payload) : Option NotificationThrottle :=
  if call.registry.throttle then call.contract.throttle else none

def Call.key (call : Call Payload) (env : Envelope Payload) : ThrottleKey :=
  ⟨call.contract.name, env.recipient, env.channel⟩

namespace World

/-- Empty stores. -/
def start (maxSize : UInt32) : World Payload where
  clock := 0
  throttle := ⟨fun _ => none⟩
  digest := ⟨fun _ => none, maxSize⟩
  token := none
  opened := fun _ => none
  admitted := []
  delivered := []
  added := []
  flushed := []

def tick (w : World Payload) (elapsed : Nat) : World Payload :=
  { w with clock := w.clock + elapsed }

/-- `Allow` of the throttle store. -/
def allow (w : World Payload) (key : ThrottleKey) (spec : NotificationThrottle) :
    World Payload × Bool × Option StoreError :=
  let asked := w.throttle.allow key spec w.clock
  ({ w with
      throttle := asked.1
      opened :=
        if (throttleDuration spec.maxPer.toList).isSome then
          Function.update w.opened key (some ((w.opened key).getD spec))
        else w.opened
      token := if asked.2.allowed then some (key, w.clock) else w.token
      admitted := if asked.2.allowed then w.admitted ++ [(key, w.clock)] else w.admitted },
    asked.2.allowed, asked.2.err)

/-- `Add` of the digest store. -/
def digestAdd (w : World Payload) (key : DigestKey) (payload : Payload) :
    World Payload × Except StoreError Unit :=
  let kept := w.digest.add key payload w.clock
  ({ w with digest := kept.1, added := w.added ++ [(key, payload)] },
    match kept.2.2.2 with
    | some err => .error err
    | none => .ok ())

/-- The adapter takes the envelope. When the call has a throttle, it is noted with the time of the
token for its key. -/
def deliver (w : World Payload) (call : Call Payload) (env : Envelope Payload) : World Payload :=
  { w with
    token := none
    delivered :=
      if call.throttle.isSome then
        w.delivered ++ [(call.key env, (w.token.filter (·.1 = call.key env)).map (·.2))]
      else w.delivered }

def flush (w : World Payload) (key : DigestKey) : World Payload :=
  let taken := w.digest.flush key
  { w with digest := taken.1, flushed := w.flushed ++ [(key, taken.2)] }

end World

/-- The operations of a call. -/
def exec (call : Call Payload) :
    (op : SendOp Payload) → Choice → World Payload → World Payload × op.Res
  | .digestAdd name group payload, c, w => (w.tick c.elapsed).digestAdd ⟨name, group⟩ payload
  | .allow key spec, c, w => (w.tick c.elapsed).allow key spec
  | .wait _ _, c, w => (w.tick c.elapsed, c.answer)
  | .dispatch env, c, w =>
      match c.answer with
      | .ok () => ((w.tick c.elapsed).deliver call env, .ok ())
      | .error err => (w.tick c.elapsed, .error err)
  | .publish _ _, c, w => (w.tick c.elapsed, ())

/-- A call of `Send`, or the flusher takes what waits for a digest. -/
inductive Step (Payload : Type) where
  | send (call : Call Payload) (choices : Nat → Choice)
  | flush (key : DigestKey)

variable (codec : Codec Payload)

def World.step (w : World Payload) : Step Payload → World Payload
  | .send call choices =>
      ((call.program codec).alone (exec call) choices { w with token := none }).1
  | .flush key => w.flush key

def World.run (w : World Payload) (steps : List (Step Payload)) : World Payload :=
  steps.foldl (World.step codec) w

end Runs

/-! ### What has happened -/

namespace World

variable {Payload : Type} (w : World Payload)

/-- The times at which the key got its tokens. -/
def admittedFor (key : ThrottleKey) : List Int := (w.admitted.filter (·.1 = key)).map (·.2)

/-- The times of the tokens of the key's delivered envelopes. -/
def deliveredFor (key : ThrottleKey) : List (Option Int) :=
  (w.delivered.filter (·.1 = key)).map (·.2)

def addedFor (key : DigestKey) : List Payload := (w.added.filter (·.1 = key)).map (·.2)

def flushedFor (key : DigestKey) : List Payload := (w.flushed.filter (·.1 = key)).flatMap (·.2)

/-- **The bounds.** Every envelope that was delivered under a throttle had a token for its key, and
a window holds no more of them than the tokens of a full limiter and those of the rest of the
window. The payloads for a digest have been flushed once, in their order, except for those that
still wait. -/
structure Bounded : Prop where
  paid : ∀ key, none ∉ w.deliveredFor key
  throttle : ∀ key, w.deliveredFor key ≠ [] → ∃ spec window, w.opened key = some spec ∧
    throttleDuration spec.maxPer.toList = some window ∧ (0 < interval window spec.tokens →
      ∀ start, (Bucket.countIn start (start + window) (w.deliveredFor key).reduceOption : Int) ≤
        spec.tokens + (window - 1) / interval window spec.tokens)
  digest : ∀ key, w.flushedFor key ++ w.digest.pending key = w.addedFor key

/-- The requests of the key, at these times, have brought its limiter about. -/
structure Requested (key : ThrottleKey) (b : Bucket) (spec : NotificationThrottle) (window : Int)
    (times : List Int) : Prop where
  parsed : throttleDuration spec.maxPer.toList = some window
  sorted : times.Pairwise (· ≤ ·)
  past : ∀ t ∈ times, t ≤ w.clock
  after : (throttleLimiter window spec).after times = b
  admitted : (throttleLimiter window spec).admitted times = w.admittedFor key

def Limited (key : ThrottleKey) : Prop :=
  match w.throttle.limiters key with
  | none => w.opened key = none ∧ w.admittedFor key = []
  | some b => ∃ spec window times, w.opened key = some spec ∧ w.Requested key b spec window times

/-- The token of each delivered envelope, and the one at hand, have been given. -/
structure Inv : Prop where
  paid : ∃ paid : List (ThrottleKey × Int), w.delivered = paid.map (fun p => (p.1, some p.2)) ∧
    (paid ++ w.token.toList).Sublist w.admitted
  limited : ∀ key, w.Limited key
  digest : ∀ key, w.flushedFor key ++ w.digest.pending key = w.addedFor key

end World

/-! ### A token for every envelope -/

section Tokens

variable {Payload : Type}

/-- The key of the token at hand. Under a throttle an envelope needs the one for its key. -/
def tokens (call : Call Payload) :
    Program.Discipline (@SendOp.Res Payload) (Option ThrottleKey) where
  Allows k
    | .dispatch env => call.throttle.isSome → k = some (call.key env)
    | _ => True
  learn k
    | .allow key _, (allowed, _) => if allowed then some key else k
    | .dispatch _, .ok () => none
    | _, _ => k

variable {call : Call Payload} {k : Option ThrottleKey} {env : Envelope Payload}

theorem pause_obeys {retry : Option RetryPolicy} {attempt : Nat} :
    (pause retry attempt : Sending Payload _).Obeys (tokens call) (fun k' _ => k' = k) k := by
  unfold pause
  split
  · split
    · exact ⟨trivial, fun _ => rfl⟩
    · rfl
  · rfl

theorem dispatchFrom_obeys {retry : Option RetryPolicy} {attempt left : Nat}
    {last : Except String Unit} (paid : call.throttle.isSome → k = some (call.key env)) :
    (dispatchFrom env retry attempt last left).Obeys (tokens call) (fun _ _ => True) k := by
  induction left generalizing attempt last with
  | zero => trivial
  | succ left ih =>
      apply pause_obeys.bind
      rintro _ (err | _) rfl
      · trivial
      · refine ⟨paid, fun r => ?_⟩
        cases r with
        | ok _ => trivial
        | error err => exact ih

theorem throttleVerdict_obeys {key : ThrottleKey} :
    (throttleVerdict call.registry call.contract key : Sending Payload Verdict).Obeys (tokens call)
      (fun k' v => v = .go → call.throttle.isSome → k' = some key) k := by
  unfold throttleVerdict
  split
  · refine ⟨trivial, ?_⟩
    rintro ⟨allowed, err⟩
    cases allowed with
    | true =>
        rcases err with _ | _ | message
        · exact fun _ _ => rfl
        · exact fun _ _ => rfl
        · exact fun go => nomatch go
    | false => rcases err with _ | _ | message <;> exact fun go => nomatch go
  · rename_i none
    intro _ throttled
    unfold Call.throttle at throttled
    split at throttled
    · rename_i store
      obtain ⟨spec, some⟩ := Option.isSome_iff_exists.mp throttled
      exact (none spec store some).elim
    · cases throttled

theorem sendChannel_obeys {env : Channel → Envelope Payload} (own : ∀ ch, (env ch).channel = ch)
    (tally : Tally) (ch : Channel) :
    (sendChannel call.registry call.contract env tally ch).Obeys (tokens call)
      (fun _ _ => True) k := by
  unfold sendChannel
  split
  · trivial
  · apply throttleVerdict_obeys.bind
    rintro k' (_ | _ | message) verdict
    · have key : ⟨call.contract.name, (env ch).recipient, ch⟩ = call.key (env ch) := by
        rw [Call.key, own]
      rw [key] at verdict
      refine (dispatchFrom_obeys (verdict rfl)).bind ?_
      rintro k'' (err | _) _
      · trivial
      · trivial
    · trivial
    · trivial

theorem sendChannels_obeys {env : Channel → Envelope Payload} (own : ∀ ch, (env ch).channel = ch)
    (tally : Tally) (channels : List Channel) :
    (sendChannels call.registry call.contract env tally channels).Obeys (tokens call)
      (fun _ _ => True) k := by
  induction channels generalizing tally k with
  | nil => trivial
  | cons ch channels ih => exact (sendChannel_obeys own tally ch).bind fun k' tally _ => ih tally

theorem conclude_obeys {contract : NotificationContract} {payload : Payload} {tally : Tally} :
    (conclude contract payload tally).Obeys (tokens call) (fun _ _ => True) k := by
  have published (names : List String) :
      (publishAll payload names).Obeys (tokens call) (fun _ _ => True) k := by
    induction names with
    | nil => trivial
    | cons name names ih => exact ⟨trivial, fun _ => ih⟩
  unfold conclude
  split
  · exact published contract.emits
  · split <;> trivial

theorem program_obeys (codec : Codec Payload) (call : Call Payload) (k : Option ThrottleKey) :
    (call.program codec).Obeys (tokens call) (fun _ _ => True) k := by
  unfold Call.program send
  split
  · trivial
  · split
    · trivial
    · split
      · trivial
      · split
        · refine ⟨trivial, fun r => ?_⟩
          dsimp only
          split <;> trivial
        · exact (sendChannels_obeys (fun _ => rfl) _ _).bind fun _ _ _ => conclude_obeys

end Tokens

/-! ### One operation -/

namespace MemoryThrottleStore

variable (m : MemoryThrottleStore) (key : ThrottleKey) {spec : NotificationThrottle} (now : Int)
  {window : Int}

/-- With a window, `Allow` takes a token from the limiter if there is one. -/
theorem allow_eq (parsed : throttleDuration spec.maxPer.toList = some window) :
    (m.allow key spec now).1 = m.setLimiter key ((m.limiter key window spec).tryTake now).1 ∧
      ((m.allow key spec now).2.allowed = true ↔
        ((m.limiter key window spec).tryTake now).2 = 0) := by
  unfold allow
  rw [parsed, Bucket.tryTake_eq_reserve]
  dsimp only
  have wait : 0 ≤ ((m.limiter key window spec).reserve now).2 := le_max_left _ _
  split
  case isTrue zero => simp [zero]
  case isFalse some =>
    have pos : 0 < ((m.limiter key window spec).reserve now).2 := by omega
    simp [pos, some]

theorem allow_of_none (none : throttleDuration spec.maxPer.toList = none) :
    (m.allow key spec now).1 = m ∧ (m.allow key spec now).2.allowed = false := by
  unfold allow
  rw [none]
  exact ⟨rfl, rfl⟩

end MemoryThrottleStore

namespace MemoryDigestStore

variable {Payload : Type} {m : MemoryDigestStore Payload} {key other : DigestKey}
  {payload : Payload} {now : Int}

theorem pending_add :
    (m.add key payload now).1.pending other =
      m.pending other ++ if key = other then [payload] else [] := by
  have buckets : (m.add key payload now).1.buckets = Function.update m.buckets key
      (some ⟨((m.buckets key).getD ⟨now, []⟩).openedAt,
        ((m.buckets key).getD ⟨now, []⟩).payloads ++ [payload]⟩) := by
    simp only [add]
    split <;> rfl
  unfold pending
  rw [buckets]
  split
  case isTrue same =>
    subst same
    rw [Function.update_self]
    cases m.buckets key <;> rfl
  case isFalse differ => rw [Function.update_of_ne (Ne.symm differ), List.append_nil]

theorem pending_flush :
    (m.flush key).1.pending other = if key = other then [] else m.pending other := by
  simp only [pending, flush]
  split
  case isTrue same => rw [same, Function.update_self, Option.elim_none]
  case isFalse differ => rw [Function.update_of_ne (Ne.symm differ)]

end MemoryDigestStore

namespace World

variable {Payload : Type} {w : World Payload} {key other : ThrottleKey} {b : Bucket}
  {spec : NotificationThrottle} {window : Int} {times : List Int}

theorem Requested.of_le {w' : World Payload} (h : w.Requested key b spec window times)
    (clock : w.clock ≤ w'.clock) (admitted : w'.admittedFor key = w.admittedFor key) :
    w'.Requested key b spec window times where
  parsed := h.parsed
  sorted := h.sorted
  past t mem := (h.past t mem).trans clock
  after := h.after
  admitted := h.admitted.trans admitted.symm

/-- A key whose limiter and notes stay. -/
theorem Limited.of_same {w' : World Payload} (h : w.Limited key) (clock : w.clock ≤ w'.clock)
    (limiters : w'.throttle.limiters key = w.throttle.limiters key)
    (opened : w'.opened key = w.opened key) (admitted : w'.admittedFor key = w.admittedFor key) :
    w'.Limited key := by
  unfold Limited at h ⊢
  rw [limiters, opened]
  split at h
  · exact ⟨h.1, admitted.trans h.2⟩
  · obtain ⟨spec, window, times, first, requested⟩ := h
    exact ⟨spec, window, times, first, requested.of_le clock admitted⟩

/-- The limiter that a request finds. -/
theorem Limited.limiter (h : w.Limited key)
    (parsed : throttleDuration spec.maxPer.toList = some window) :
    ∃ window' times,
      w.Requested key (w.throttle.limiter key window spec) ((w.opened key).getD spec) window'
        times := by
  unfold Limited at h
  unfold MemoryThrottleStore.limiter
  split at h
  · rename_i none
    refine ⟨window, [], ?_⟩
    rw [h.1, none]
    exact ⟨parsed, .nil, by simp, rfl, h.2.symm⟩
  · rename_i b some
    obtain ⟨spec', window', times, first, requested⟩ := h
    refine ⟨window', times, ?_⟩
    rw [first, some]
    exact requested

/-- One more request. -/
theorem Requested.concat {w' : World Payload} (h : w.Requested key b spec window times)
    (clock : w'.clock = w.clock)
    (admitted : w'.admittedFor key =
      w.admittedFor key ++ if (b.tryTake w.clock).2 = 0 then [w.clock] else []) :
    w'.Requested key (b.tryTake w.clock).1 spec window (times ++ [w.clock]) where
  parsed := h.parsed
  sorted := List.pairwise_append.mpr ⟨h.sorted, List.pairwise_singleton _ _, by
    simpa using h.past⟩
  past := by
    simpa [or_imp, forall_and, clock] using h.past
  after := by rw [Bucket.after_concat, h.after]
  admitted := by rw [Bucket.admitted_concat, h.after, h.admitted, admitted]

theorem Limited.allow (h : ∀ key, w.Limited key) (key : ThrottleKey) (spec : NotificationThrottle)
    (other : ThrottleKey) : (w.allow key spec).1.Limited other := by
  have clock : w.clock ≤ (w.allow key spec).1.clock := le_rfl
  cases parsed : throttleDuration spec.maxPer.toList with
  | none =>
      obtain ⟨same, refused⟩ := MemoryThrottleStore.allow_of_none w.throttle key w.clock parsed
      apply (h other).of_same clock
      · simp only [World.allow, same]
      · simp [World.allow, parsed]
      · simp [admittedFor, World.allow, refused]
  | some window =>
      obtain ⟨next, allowed⟩ := MemoryThrottleStore.allow_eq w.throttle key w.clock parsed
      by_cases same : other = key
      · subst same
        obtain ⟨window', times, requested⟩ := (h other).limiter parsed
        have limiter : (w.allow other spec).1.throttle.limiters other =
            some ((w.throttle.limiter other window spec).tryTake w.clock).1 := by
          simp [World.allow, next, MemoryThrottleStore.setLimiter]
        unfold Limited
        rw [limiter]
        refine ⟨_, window', times ++ [w.clock], ?_, requested.concat rfl ?_⟩
        · simp [World.allow, parsed]
        · simp only [World.allow, allowed, admittedFor]
          split
          · simp
          · simp
      · apply (h other).of_same clock
        · simp [World.allow, next, MemoryThrottleStore.setLimiter, same]
        · simp [World.allow, parsed, same]
        · simp only [World.allow, admittedFor]
          split
          · simp [Ne.symm same]
          · rfl

/-- Notes that an operation does not touch. -/
theorem limited_of_same {w' : World Payload} (h : ∀ key, w.Limited key) (clock : w.clock ≤ w'.clock)
    (throttle : w'.throttle = w.throttle) (opened : w'.opened = w.opened)
    (admitted : w'.admitted = w.admitted) (key : ThrottleKey) : w'.Limited key :=
  (h key).of_same clock (by rw [throttle]) (by rw [opened]) (by rw [admittedFor, admitted]; rfl)

theorem Inv.tick (h : w.Inv) (elapsed : Nat) : (w.tick elapsed).Inv where
  paid := h.paid
  limited := limited_of_same h.limited (by simp [World.tick]) rfl rfl rfl
  digest := h.digest

theorem Inv.allow (h : w.Inv) (key : ThrottleKey) (spec : NotificationThrottle) :
    (w.allow key spec).1.Inv where
  paid := by
    obtain ⟨paid, noted, given⟩ := h.paid
    refine ⟨paid, noted, ?_⟩
    simp only [World.allow]
    split
    · exact ((List.sublist_append_left _ _).trans given).append (List.Sublist.refl _)
    · exact given
  limited := Limited.allow h.limited key spec
  digest := h.digest

theorem Inv.deliver {call : Call Payload} {env : Envelope Payload} (h : w.Inv)
    (token : call.throttle.isSome → w.token.map (·.1) = some (call.key env)) :
    (w.deliver call env).Inv where
  paid := by
    obtain ⟨paid, noted, given⟩ := h.paid
    by_cases throttled : call.throttle.isSome
    · obtain ⟨⟨key, t⟩, held, same⟩ := Option.map_eq_some_iff.mp (token throttled)
      obtain rfl : key = call.key env := same
      refine ⟨paid ++ [(call.key env, t)], ?_, ?_⟩
      · simp [World.deliver, throttled, held, noted, Option.filter]
      · rw [held] at given
        simpa [World.deliver] using given
    · refine ⟨paid, ?_, ?_⟩
      · simp [World.deliver, throttled, noted]
      · simpa [World.deliver] using (List.sublist_append_left _ _).trans given
  limited := limited_of_same h.limited le_rfl rfl rfl rfl
  digest := h.digest

theorem Inv.digestAdd (h : w.Inv) (key : DigestKey) (payload : Payload) :
    (w.digestAdd key payload).1.Inv where
  paid := h.paid
  limited := limited_of_same h.limited le_rfl rfl rfl rfl
  digest other := by
    have before := h.digest other
    have kept : (w.digestAdd key payload).1.digest.pending other = _ :=
      MemoryDigestStore.pending_add
    have added : (w.digestAdd key payload).1.addedFor other =
        w.addedFor other ++ if key = other then [payload] else [] := by
      simp only [World.digestAdd, addedFor, List.filter_append, List.map_append]
      split <;> simp_all
    rw [kept, added, ← before, List.append_assoc]
    rfl

theorem Inv.flush (h : w.Inv) (key : DigestKey) : (w.flush key).Inv where
  paid := h.paid
  limited := limited_of_same h.limited le_rfl rfl rfl rfl
  digest other := by
    have kept : (w.flush key).digest.pending other = _ := MemoryDigestStore.pending_flush
    have before : (w.flush key).addedFor other = _ := (h.digest other).symm
    rw [kept, before]
    simp only [World.flush, MemoryDigestStore.flush, flushedFor, List.filter_append,
      List.flatMap_append]
    split
    case isTrue same => simp [same]
    case isFalse differ => simp [differ]

/-- **One operation** keeps the notes right, and the token at hand is the one that is known of. -/
theorem Inv.exec {call : Call Payload} {k : Option ThrottleKey} (h : w.Inv)
    (token : w.token.map (·.1) = k) (op : SendOp Payload) (c : Choice)
    (allowed : (tokens call).Allows k op) :
    (exec call op c w).1.Inv ∧
      (exec call op c w).1.token.map (·.1) = (tokens call).learn k op (exec call op c w).2 := by
  have later := h.tick c.elapsed
  cases op with
  | digestAdd name group payload => exact ⟨later.digestAdd _ payload, token⟩
  | allow key spec =>
      refine ⟨later.allow key spec, ?_⟩
      simp only [Notifications.exec, World.allow, tokens]
      split
      · rfl
      · exact token
  | wait retry attempt => exact ⟨later, token⟩
  | dispatch env =>
      have paid : call.throttle.isSome → (w.tick c.elapsed).token.map (·.1) =
        some (call.key env) := fun throttled => token.trans (allowed throttled)
      obtain ⟨elapsed, err | _⟩ := c
      · exact ⟨later, token⟩
      · exact ⟨later.deliver paid, rfl⟩
  | publish name payload => exact ⟨later, token⟩

end World

/-! ### Runs of the stores -/

namespace World

variable {Payload : Type} {w : World Payload} (codec : Codec Payload)

theorem inv_start (maxSize : UInt32) : (start maxSize : World Payload).Inv where
  paid := ⟨[], rfl, .slnil⟩
  limited _ := ⟨rfl, rfl⟩
  digest _ := rfl

theorem Inv.step (h : w.Inv) (step : Step Payload) : (w.step codec step).Inv := by
  cases step with
  | flush key => exact h.flush key
  | send call choices =>
      have idle : ({ w with token := none } : World Payload).Inv := by
        obtain ⟨paid, noted, given⟩ := h.paid
        exact ⟨⟨paid, noted, by simpa using (List.sublist_append_left _ _).trans given⟩,
          limited_of_same h.limited le_rfl rfl rfl rfl, h.digest⟩
      obtain ⟨k, kept, -⟩ := (program_obeys codec call none).alone
        (I := fun k (w : World Payload) => w.Inv ∧ w.token.map (·.1) = k)
        (fun k op c w allowed inv => inv.1.exec inv.2 op c allowed) ⟨idle, rfl⟩ choices
      exact kept

theorem Inv.run (h : w.Inv) (steps : List (Step Payload)) : (w.run codec steps).Inv := by
  induction steps generalizing w with
  | nil => exact h
  | cons step steps ih => exact ih (h.step codec step)

/-- What a limiter admits in a window is paid for by its burst and its refill. -/
theorem countIn_limiter_le {window : Int} {spec : NotificationThrottle} {times : List Int}
    (refills : 0 < interval window spec.tokens) (sorted : times.Pairwise (· ≤ ·)) (start : Int) :
    (Bucket.countIn start (start + window) ((throttleLimiter window spec).admitted times) : Int) ≤
      spec.tokens + (window - 1) / interval window spec.tokens := by
  have wide : 0 < window := by
    by_contra narrow
    have back : 0 ≤ (-window).tdiv spec.tokens :=
      Int.tdiv_nonneg (by omega) (Int.natCast_nonneg _)
    rw [Int.neg_tdiv] at back
    rw [interval] at refills
    omega
  have full : 0 ≤ (throttleLimiter window spec).level :=
    mul_nonneg (Int.natCast_nonneg _) refills.le
  have cost : _ * (Bucket.countIn start (start + window) _ : Int) ≤ _ :=
    Bucket.cost_mul_admitted_le wide full sorted
  rw [add_comm (spec.tokens : Int), ← Int.add_mul_ediv_right _ _ refills.ne',
    Int.le_ediv_iff_mul_le refills, mul_comm, add_comm (window - 1)]
  exact cost

theorem Inv.bounded (h : w.Inv) : w.Bounded := by
  obtain ⟨paid, noted, given⟩ := h.paid
  have delivered (key : ThrottleKey) :
      w.deliveredFor key = ((paid.filter (·.1 = key)).map (·.2)).map some := by
    simp [deliveredFor, noted, List.filter_map, Function.comp_def]
  refine ⟨fun key mem => ?_, fun key some => ?_, h.digest⟩
  · rw [delivered] at mem
    simp at mem
  · have spent : ((paid.filter (·.1 = key)).map (·.2)).Sublist (w.admittedFor key) :=
      (((List.sublist_append_left _ _).trans given).filter _).map _
    have times (l : List Int) : (l.map Option.some).reduceOption = l := by
      simp [List.reduceOption, List.filterMap_map]
    rw [delivered] at some ⊢
    rw [times]
    have limited := h.limited key
    unfold Limited at limited
    split at limited
    · rw [limited.2, List.sublist_nil] at spent
      rw [spent] at some
      exact (some rfl).elim
    · obtain ⟨spec, window, times, opened, requested⟩ := limited
      refine ⟨spec, window, opened, requested.parsed, fun refills start => ?_⟩
      rw [← requested.admitted] at spent
      exact (Int.ofNat_le.mpr spent.countP_le).trans
        (countIn_limiter_le refills requested.sorted start)

end World

/-! ### A burst and its refill -/

/-- The greeting, at most two every two seconds. -/
def throttledGreeting : Call String where
  registry := ⟨[.email], true, false⟩
  contract := { greeting.contract with throttle := some ⟨"2s", true, true, 2⟩ }
  payload := greetingText

/-- Two at once, and one a second later. -/
def burstSteps : List (Step String) :=
  [0, 0, 1000000000].map fun elapsed => .send throttledGreeting fun
    | 0 => ⟨elapsed, .ok ()⟩
    | _ => ⟨0, .ok ()⟩

def greetingKey : ThrottleKey := ⟨"greeting", "alice", .email⟩

end Lazuli.Notifications
