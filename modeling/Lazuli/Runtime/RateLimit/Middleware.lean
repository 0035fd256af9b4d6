import Lazuli.General.Text
import Lazuli.Runtime.RateLimit.ClientIp
import Lazuli.Runtime.RateLimit.Spec

/-!
The rate limit in front of a handler (`runtime/go/lazuli/ratelimit.go`).

`rateLimitMiddleware` parses the literal, asks the store and tells a refused client how many seconds
to wait. The seconds are the wait rounded to the nearest one, so they are enough exactly when that
rounds up (`le_retryAfter_iff`); `sufficient_iff` carries this through the store.
-/

namespace Lazuli.Runtime.RateLimit

open Lazuli.General Lazuli.Runtime.Strings

/-! ### Whole seconds -/

/-- `time.Duration.Round`, on 64-bit integers. -/
def roundDuration (d m : Int) : Int :=
  if m ≤ 0 then d
  else
    let r := d.tmod m
    if d < 0 then
      if -r + -r < m then d + -r
      else if wrap64 (d - m + -r) < d then wrap64 (d - m + -r) else minDuration
    else if r + r < m then d - r
    else if wrap64 (d + m - r) > d then wrap64 (d + m - r) else maxDuration

/-- The number in the header. -/
def retryAfter (d : Int) : Int :=
  let secs := (roundDuration d second).tdiv second
  if secs < 1 then 1 else secs

def retryAfterSeconds (d : Int) : String := toString (retryAfter d)

/-! ### The middleware -/

/-- A request with what `newRequestCtx` makes of it: the user and his organisation, and the tenant's
organisation. -/
structure RateLimitRequest extends HttpRequest where
  ctxErr : Option ContextError
  user : Option (Int × Int)
  tenant : Option Int
  deriving DecidableEq

/-- `http.StatusInternalServerError`, `http.StatusTooManyRequests` with its header, or what the
handler behind answers. -/
inductive Response where
  | next
  | internal
  | tooMany (retryAfter : String)
  deriving DecidableEq

/-- The order of the constants. -/
def RateLimitKey.iota : RateLimitKey → Nat
  | .global => 0
  | .ip => 1
  | .user => 2
  | .org => 3

/-- Results are memoized under the normalized literal; the table is left out. -/
def parseRateLimitString (lower : Char → Char) (s : String) :
    Except RateLimitError RateLimitSpec :=
  let normalized := " ".intercalate (tokens lower s)
  if normalized = "" then .error .malformed else parseRateLimitSpec lower normalized

def rateLimitBucketKey (spec : RateLimitSpec) (key : String) : String :=
  toString spec.limit ++ "|" ++ toString spec.window ++ "|" ++ toString spec.key.iota ++ "|" ++ key

/-- What the middleware is given: the address packages, `unicode.ToLower`, the trusted proxies and
the literal that is active. -/
structure Guard (Addr Cidr : Type*) where
  net : Netip Addr Cidr
  lower : Char → Char
  trusted : List Cidr
  resolved : String

variable {Addr Cidr : Type*} (guard : Guard Addr Cidr)

def Guard.rateLimitRequestKey (key : RateLimitKey) (r : RateLimitRequest) : String :=
  match key with
  | .global => ""
  | .ip => String.ofList (guard.net.clientIPFromRequest guard.trusted (some r.toHttpRequest))
  | .user => match r.user with
    | none => ""
    | some (id, _) => toString id
  | .org => match r.tenant, r.user with
    | some org, _ => toString org
    | none, some (_, org) => if org ≠ 0 then toString org else ""
    | none, none => ""

/-- The call of the store for a request at a time. -/
def Guard.call (spec : RateLimitSpec) (r : RateLimitRequest) (now : Int) : Call where
  ctxErr := r.ctxErr
  key := rateLimitBucketKey spec (guard.rateLimitRequestKey spec.key r)
  limit := spec.limit
  window := spec.window
  now := now

def Guard.rateLimitMiddleware (s : InMemoryRateLimitState) (r : RateLimitRequest) (now : Int) :
    InMemoryRateLimitState × Response :=
  if trimSpace guard.resolved.toList = [] then (s, .next)
  else match parseRateLimitString guard.lower guard.resolved with
    | .error _ => (s, .internal)
    | .ok spec =>
        let (s', answer) := s.allow (guard.call spec r now)
        if answer.err ≠ none then (s', .internal)
        else if !answer.allowed then (s', .tooMany (retryAfterSeconds answer.retryAfter))
        else (s', .next)

/-! ### Waiting long enough -/

/-- The wait is at most a second, a whole number of seconds, or rounds up. -/
def RoundsUp (d : Int) : Prop :=
  d ≤ second ∨ d % second = 0 ∨
    second ≤ 2 * (d % second) ∧ d - d % second + second ≤ maxDuration

/-- A positive wait is rounded down below half a second, and up from there if there is a longer
duration. -/
theorem roundDuration_of_pos {d : Int} (pos : 0 < d) :
    roundDuration d second =
      if 2 * (d % second) < second then d - d % second
      else if d - d % second + second ≤ maxDuration then d - d % second + second
      else maxDuration := by
  have nonneg : ¬ d < 0 := by omega
  have low : 0 ≤ d % second := Int.emod_nonneg d (by decide)
  have high : d % second < second := Int.emod_lt_of_pos d (by decide)
  rw [roundDuration, if_neg (by decide), Int.tmod_eq_emod_of_nonneg pos.le]
  simp only [if_neg nonneg, ← two_mul]
  split
  case isTrue => rfl
  case isFalse half =>
    have same : d + second - d % second = d - d % second + second := by omega
    rw [same]
    by_cases fits : d - d % second + second ≤ maxDuration
    · rw [wrap64_of_nonneg (by omega) fits, if_pos (by omega), if_pos fits]
    · rw [if_neg fits, if_neg]
      intro longer
      by_cases representable : d ≤ maxDuration
      · have := wrap64_neg (n := d - d % second + second) (by omega)
          (by unfold maxDuration second at *; omega)
        omega
      · have := wrap64_le (d - d % second + second)
        omega

/-- The seconds told cover the wait exactly when it rounds up. -/
theorem le_retryAfter_iff {d : Int} (pos : 0 < d) : d ≤ retryAfter d * second ↔ RoundsUp d := by
  have nonneg : 0 ≤ roundDuration d second := by
    rw [roundDuration_of_pos pos]
    unfold second maxDuration
    split <;> omega
  rw [retryAfter, Int.tdiv_eq_ediv_of_nonneg nonneg, roundDuration_of_pos pos]
  unfold RoundsUp second maxDuration
  split
  case isTrue half =>
    split <;> omega
  case isFalse half =>
    split
    case isTrue fits =>
      split <;> omega
    case isFalse overflow =>
      split <;> omega

/-! ### The same bucket later -/

section Later

variable {s : InMemoryRateLimitState} {c : Call}

/-- Calls under other keys leave the bucket of a key alone, or the sweep drops it. -/
theorem runState_other {key : String} {others : List Call} (other : ∀ c ∈ others, c.key ≠ key) :
    (runState InMemoryRateLimitState.allow s others).limiters key = s.limiters key ∨
      (runState InMemoryRateLimitState.allow s others).limiters key = none := by
  induction others generalizing s with
  | nil => exact .inl rfl
  | cons c others ih =>
      have here : (s.allow c).1.limiters key = s.limiters key ∨
          (s.allow c).1.limiters key = none := by
        by_cases effective : c.Effective
        · exact allow_other s effective (other c List.mem_cons_self).symm
        · rw [(allow_refused s (fun _ => none) effective).1]
          exact .inl rfl
      rcases ih (s := (s.allow c).1) (fun c hc => other c (List.mem_cons_of_mem _ hc)) with h | h
      · rcases here with here | here
        · exact .inl (h.trans here)
        · exact .inr (h.trans here)
      · exact .inr h

/-- What is missing for a token at the time of the call. -/
def missing (s : InMemoryRateLimitState) (c : Call) (h : c.Effective) : Int :=
  (s.bucket c h).cost - (s.bucket c h).refilled c.now

theorem allow_answer_eq (h : c.Effective) :
    (s.allow c).2 = if 0 < missing s c h then ⟨false, missing s c h, none⟩
      else ⟨true, 0, none⟩ := by
  rw [allow_answer h, missing]
  by_cases pays : (s.bucket c h).cost ≤ (s.bucket c h).refilled c.now
  · rw [if_neg (by omega), (Bucket.tryTake_wait_eq_zero_iff _ _).mpr pays]
    rfl
  · have wait := mt (Bucket.tryTake_wait_eq_zero_iff _ c.now).mp pays
    rw [if_pos (by omega), decide_eq_false wait, Bucket.tryTake, dif_neg pays]

/-- After a refusal, a call under the same key is admitted when the missing part has been
refilled. -/
theorem allow_again {c' : Call} (h : c.Effective) (h' : c'.Effective) (key : c'.key = c.key)
    (refused : 0 < missing s c h) {s' : InMemoryRateLimitState}
    (kept : s'.limiters c.key = (s.allow c).1.limiters c.key) (order : c.now ≤ c'.now) :
    (s'.allow c').2 = ⟨true, 0, none⟩ ↔ missing s c h ≤ c'.now - c.now := by
  have own : s'.bucket c' h' = ((s.bucket c h).tryTake c.now).1 := by
    rw [allow_own h] at kept
    unfold InMemoryRateLimitState.bucket
    rw [key, kept]
    rfl
  have later : missing s' c' h' =
      (s.bucket c h).cost - min (s.bucket c h).capacity
        ((s.bucket c h).refilled c.now + (c'.now - c.now)) := by
    have notPaid : ¬ (s.bucket c h).cost ≤ (s.bucket c h).refilled c.now := by
      unfold missing at refused
      omega
    rw [missing, own, Bucket.tryTake_cost, Bucket.tryTake, dif_neg notPaid]
    simp only [Bucket.refilled, Bucket.advance, Bucket.setLevel]
    omega
  have room := (s.bucket c h).cost_le
  rw [allow_answer_eq h', later]
  unfold missing at *
  split
  case isTrue wait =>
    simp only [Answer.mk.injEq, Bool.false_eq_true, false_and, false_iff]
    omega
  case isFalse paid =>
    simp only [true_iff]
    omega

end Later

/-! ### Whether the seconds are enough -/

/-- The limit in force, when there is one and it is well formed. -/
def Guard.active : Option RateLimitSpec :=
  if trimSpace guard.resolved.toList = [] then none
  else (parseRateLimitString guard.lower guard.resolved).toOption

/-- **A refused client that waits as told is admitted**, if nobody calls under its key meanwhile
and its bucket is not evicted. -/
def Guard.Sufficient (s : InMemoryRateLimitState) (r : RateLimitRequest) (now : Int) : Prop :=
  ∀ secs : Int, (guard.rateLimitMiddleware s r now).2 = .tooMany (toString secs) →
    ∀ spec, guard.active = some spec →
      ∀ (others : List Call) (r' : RateLimitRequest) (later : Int),
        (∀ c ∈ others, c.key ≠ (guard.call spec r now).key) →
        (runState InMemoryRateLimitState.allow (guard.rateLimitMiddleware s r now).1
          others).limiters (guard.call spec r now).key ≠ none →
        r'.ctxErr = none → (guard.call spec r' later).key = (guard.call spec r now).key →
        now + secs * second ≤ later →
          (guard.rateLimitMiddleware (runState InMemoryRateLimitState.allow
            (guard.rateLimitMiddleware s r now).1 others) r' later).2 = .next

/-- What the bucket lacks for the request rounds up to whole seconds. -/
def Guard.Timely (s : InMemoryRateLimitState) (r : RateLimitRequest) (now : Int) : Prop :=
  ∀ spec, guard.active = some spec → ∀ h : (guard.call spec r now).Effective,
    RoundsUp (missing s (guard.call spec r now) h)

section Sufficient

variable {guard : Guard Addr Cidr} {spec : RateLimitSpec} {s : InMemoryRateLimitState}
  {r : RateLimitRequest} {now : Int}

theorem parseRateLimitString_pos {lower : Char → Char} {text : String}
    (h : parseRateLimitString lower text = .ok spec) : 0 < spec.limit ∧ 0 < spec.window := by
  unfold parseRateLimitString at h
  simp only at h
  split at h
  case isTrue => cases h
  case isFalse =>
    obtain ⟨n, m, unit, key, ⟨_, _, _, -, -, pos, -⟩, -, -, positive, rfl⟩ :=
      parseTokens_eq_ok_iff.mp h
    exact ⟨by simpa using pos, positive⟩

theorem active_eq_some_iff : guard.active = some spec ↔
    trimSpace guard.resolved.toList ≠ [] ∧
      parseRateLimitString guard.lower guard.resolved = .ok spec := by
  unfold Guard.active
  by_cases blank : trimSpace guard.resolved.toList = []
  · simp [blank]
  · cases parsed : parseRateLimitString guard.lower guard.resolved <;>
      simp [blank, Except.toOption]

theorem effective_iff (active : guard.active = some spec) :
    (guard.call spec r now).Effective ↔ r.ctxErr = none := by
  obtain ⟨limit, window⟩ := parseRateLimitString_pos (active_eq_some_iff.mp active).2
  exact ⟨fun h => h.ctx, fun ctx => ⟨ctx, limit, window⟩⟩

/-- With a limit in force, the store decides. -/
theorem middleware_of_active (active : guard.active = some spec)
    (h : (guard.call spec r now).Effective) :
    guard.rateLimitMiddleware s r now = ((s.allow (guard.call spec r now)).1,
      if 0 < missing s (guard.call spec r now) h
        then .tooMany (retryAfterSeconds (missing s (guard.call spec r now) h)) else .next) := by
  obtain ⟨notBlank, parsed⟩ := active_eq_some_iff.mp active
  simp only [Guard.rateLimitMiddleware, if_neg notBlank, parsed, allow_answer_eq h]
  split <;> simp

/-- A refusal comes from a limit in force. -/
theorem exists_active_of_tooMany {text : String}
    (h : (guard.rateLimitMiddleware s r now).2 = .tooMany text) :
    ∃ spec, guard.active = some spec ∧ (guard.call spec r now).Effective := by
  unfold Guard.rateLimitMiddleware at h
  split at h
  case isTrue => cases h
  case isFalse notBlank =>
    split at h
    case h_1 => cases h
    case h_2 spec parsed =>
      have active : guard.active = some spec := active_eq_some_iff.mpr ⟨notBlank, parsed⟩
      refine ⟨spec, active, (effective_iff active).mpr ?_⟩
      cases ctx : r.ctxErr with
      | none => rfl
      | some err => simp [InMemoryRateLimitState.allow, Guard.call, ctx] at h

/-- After a refusal, a request under the same key is served when the missing part has been
refilled. -/
theorem middleware_again (active : guard.active = some spec) (h : (guard.call spec r now).Effective)
    (refused : 0 < missing s (guard.call spec r now) h) {s' : InMemoryRateLimitState}
    {r' : RateLimitRequest} {later : Int} (ctx : r'.ctxErr = none)
    (key : (guard.call spec r' later).key = (guard.call spec r now).key)
    (kept : s'.limiters (guard.call spec r now).key =
      (s.allow (guard.call spec r now)).1.limiters (guard.call spec r now).key)
    (order : now ≤ later) :
    (guard.rateLimitMiddleware s' r' later).2 = .next ↔
      missing s (guard.call spec r now) h ≤ later - now := by
  have h' : (guard.call spec r' later).Effective := (effective_iff active).mpr ctx
  rw [middleware_of_active active h']
  refine Iff.trans ?_ (allow_again h h' key refused kept order)
  rw [allow_answer_eq h']
  split <;> simp

end Sufficient

/-- **Where the seconds are enough.** -/
theorem sufficient_iff (guard : Guard Addr Cidr) (s : InMemoryRateLimitState)
    (r : RateLimitRequest) (now : Int) : guard.Sufficient s r now ↔ guard.Timely s r now := by
  constructor
  · intro sufficient spec active h
    by_cases refused : 0 < missing s (guard.call spec r now) h
    case neg => exact .inl (le_trans (not_lt.mp refused) (by decide))
    case pos =>
      rw [← le_retryAfter_iff refused]
      have answer := middleware_of_active (s := s) active h
      rw [if_pos refused] at answer
      have secs : 0 < retryAfter (missing s (guard.call spec r now) h) := by
        unfold retryAfter
        simp only
        split <;> omega
      -- the client waits as told, and nobody else calls
      obtain ⟨later, told⟩ :
          ∃ later, later = now + retryAfter (missing s (guard.call spec r now) h) * second :=
        ⟨_, rfl⟩
      have order : now ≤ later := by
        unfold second at told
        omega
      have key : (guard.call spec r later).key = (guard.call spec r now).key := rfl
      have again := sufficient _ (congrArg Prod.snd answer) spec active [] r later
        (List.forall_mem_nil _) (by rw [answer, runState_nil, allow_own h]; exact nofun)
        h.ctx key told.ge
      rw [answer, runState_nil, middleware_again active h refused h.ctx key rfl order] at again
      omega
  · intro timely secs refusal spec active others r' later other kept ctx key waited
    obtain ⟨spec', active', h⟩ := exists_active_of_tooMany refusal
    cases active.symm.trans active'
    have answer := middleware_of_active (s := s) active h
    by_cases refused : 0 < missing s (guard.call spec r now) h
    case neg =>
      rw [answer, if_neg refused] at refusal
      cases refusal
    case pos =>
      rw [answer, if_pos refused] at refusal
      obtain rfl : retryAfter (missing s (guard.call spec r now) h) = secs :=
        Text.toString_int_injective (Response.tooMany.inj refusal)
      have covered := (le_retryAfter_iff refused).mpr (timely spec active h)
      rw [answer] at kept ⊢
      refine (middleware_again active h refused ctx key ?_ (by omega)).mpr (by omega)
      exact (runState_other other).resolve_right kept

/-! ### A client told too little -/

/-- One request every two seconds, for everybody. -/
def slow : Guard {s : List Char // Netip.isQuad s = true} (List Char) where
  net := Netip.dottedQuad
  lower := Char.toLower
  trusted := []
  resolved := "1 per 2 seconds"

def anyone : RateLimitRequest where
  remoteAddr := "192.0.2.1:80".toList
  xForwardedFor := []
  ctxErr := none
  user := none
  tenant := none

/-- The bucket was emptied 0.7 seconds ago. The wait of 1.3 seconds is told as one second. -/
theorem told_too_little :
    ¬ slow.Sufficient (slow.rateLimitMiddleware emptyState anyone 0).1 anyone 700000000 := by
  intro sufficient
  have next := sufficient 1 (by decide) ⟨1, 2000000000, .global⟩ (by decide) [] anyone 1700000000
    (List.forall_mem_nil _) (by decide) rfl rfl (by decide)
  revert next
  decide

end Lazuli.Runtime.RateLimit
