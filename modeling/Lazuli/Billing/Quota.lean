import Lazuli.General.Transition
import Lazuli.Billing.Gate

/-!
Quotas under concurrent calls (`walkPrelude`, `walkIncrement` and the command prelude).

A call checks its gates one after the other, runs its handler, and then counts each of its
quotas. Every single read and increment of the usage store is atomic; between any two of them
other calls may run. `State` keeps the calls that have arrived, each in the `Phase` it has
reached, and an `Act` is the next operation of one of them.

A call that has passed the check holds a place which nobody else sees until it is counted. So
the checks let in as many calls beyond the limit as are under way at once, and
`quota_overshoot` says that this and the increments that get lost are all there is.
-/

namespace Lazuli.Billing

open Lazuli.General Lazuli.Runtime

/-! ### The system -/

structure World where
  store : Option SubscriptionStore
  catalog : PlanCatalog
  month : Option Int → Option Int
  /-- A usage store is registered. -/
  counts : Bool

/-- `dispatched` calls stop counting at the first failure, commands do not. -/
structure Call where
  ctx : Ctx
  gates : List GateRef
  dispatched : Bool
  deriving DecidableEq

inductive Phase where
  | checking (rest : List GateRef)
  | handling
  | incrementing (rest : List String)
  | refused (err : GateError)
  | failed
  | returned
  deriving DecidableEq

/-- A call on its way: the quotas whose check it has passed, and those it has counted. -/
structure Flight where
  call : Call
  phase : Phase
  passed : List String
  counted : List String
  deriving DecidableEq

structure State where
  usage : Key → Nat
  flights : List Flight

/-- `up` is whether the subscription store answers; `ok` is the fate of the operation on the
usage store, or of the handler. -/
inductive Act where
  | arrive (call : Call)
  | advance (i : Nat) (up ok : Bool)

def Flight.start (call : Call) : Flight := ⟨call, .checking (preludeOrder call.gates), [], []⟩

variable (W : World)

/-- The subscription store as it answers now. -/
def World.answering (up : Bool) : Option SubscriptionStore :=
  if up then W.store else W.store.map fun _ _ => .error "unavailable"

/-- The usage store as it answers now. -/
def World.reading (usage : Key → Nat) (ok : Bool) : Option (Key → Except String Nat) :=
  if W.counts then some fun key => if ok then .ok (usage key) else .error "unavailable" else none

/-- The next gate of a call. -/
def check (usage : Key → Nat) (f : Flight) (gate : GateRef) (rest : List GateRef) (up ok : Bool) :
    Flight :=
  match checkGate (W.answering up) (W.reading usage ok) W.month f.call.ctx W.catalog gate with
  | .error e => { f with phase := .refused e }
  | .ok () =>
      { f with
        phase := .checking rest
        passed := if gate.kind = .quota then gate.name :: f.passed else f.passed }

/-- After an increment that failed. -/
def Flight.uncounted (f : Flight) (rest : List String) : Flight :=
  { f with phase := if f.call.dispatched then .returned else .incrementing rest }

/-- The next increment of a call. -/
def increment (usage : Key → Nat) (f : Flight) (limit : String) (rest : List String)
    (up ok : Bool) : (Key → Nat) × Flight :=
  match incrQuota (W.answering up) W.month f.call.ctx W.catalog limit with
  | .error _ => (usage, f.uncounted rest)
  | .ok none => (usage, { f with phase := .incrementing rest })
  | .ok (some key) =>
      if !W.counts then (usage, { f with phase := .incrementing rest })
      else if !ok then (usage, f.uncounted rest)
      else
        (Function.update usage key (usage key + 1),
          { f with phase := .incrementing rest, counted := limit :: f.counted })

/-- The next operation of a call. -/
def Flight.advance (usage : Key → Nat) (f : Flight) (up ok : Bool) : (Key → Nat) × Flight :=
  match f.phase with
  | .checking [] => (usage, { f with phase := .handling })
  | .checking (gate :: rest) => (usage, check W usage f gate rest up ok)
  | .handling =>
      (usage, { f with phase := if ok then .incrementing (quotas f.call.gates) else .failed })
  | .incrementing [] => (usage, { f with phase := .returned })
  | .incrementing (limit :: rest) => increment W usage f limit rest up ok
  | .refused _ | .failed | .returned => (usage, f)

def step (s : State) : Act → State × Unit
  | .arrive call => (⟨s.usage, s.flights ++ [.start call]⟩, ())
  | .advance i up ok =>
      match s.flights[i]? with
      | none => (s, ())
      | some f =>
          let next := f.advance W s.usage up ok
          (⟨next.1, s.flights.set i next.2⟩, ())

/-! ### What is counted -/

variable (k : Key)

/-- The call is guarded by the quota, and its caller has this counter. -/
def Call.guarded (call : Call) : Bool :=
  call.gates.contains ⟨.quota, k.limit⟩ &&
    match resolve W.store call.ctx with
    | .error _ => false
    | .ok active => usageKey W.month call.ctx active.subscriptionID k.limit = k

/-- The handler of a guarded call has succeeded. -/
def Flight.succeeded (f : Flight) : Bool :=
  f.call.guarded W k &&
    match f.phase with
    | .incrementing _ | .returned => true
    | _ => false

/-- Where a call is with respect to one counter. -/
inductive Standing where
  | out
  | held
  | counted
  | lost
  deriving DecidableEq

/-- Of a call that has passed the check and is not counted. -/
def Phase.standing : Phase → Standing
  | .checking _ | .handling | .incrementing _ => .held
  | .returned => .lost
  | .refused _ | .failed => .out

/-- A guarded call that has passed the check holds a place until it is counted or it returns;
if it succeeds without being counted, its increment is lost. -/
def Flight.standing (f : Flight) : Standing :=
  if f.call.guarded W k = true ∧ k.limit ∈ f.passed then
    if k.limit ∈ f.counted then .counted else f.phase.standing
  else .out

def State.count (s : State) (standing : Standing) : Nat :=
  s.flights.countP fun f => f.standing W k = standing

/-- The guarded calls that have succeeded. -/
def State.successes (s : State) : Nat := s.flights.countP (·.succeeded W k)

/-- What a check reads. -/
def State.used (s : State) : Nat := if W.counts then s.usage k else 0

/-- The most calls that hold a place at once. -/
def peak : State → List Act → Nat
  | s, [] => s.count W k .held
  | s, a :: as => max (s.count W k .held) (peak (step W s a).1 as)

/-- Whoever has this subscription has the limit `n`. -/
def Limited (n : Nat) : Prop :=
  ∀ lookupActive, W.store = some lookupActive → ∀ user active, lookupActive user = .ok active →
    active.subscriptionID = k.subscription → ∀ plan value,
      W.catalog.plans.lookup active.planName = some plan →
      plan.limits.lookup k.limit = some value → value = limitInt n

/-! ### What an operation does to one counter -/

section Counter

variable {W k} {s : State} {f : Flight} {n : Nat} {up ok : Bool}

theorem resolve_answering {ctx : Ctx} {active : ActiveSubscription}
    (h : resolve (W.answering up) ctx = .ok active) : resolve W.store ctx = .ok active := by
  unfold World.answering at h
  cases up with
  | true => exact h
  | false =>
      cases hstore : W.store with
      | none => simp [hstore, resolve] at h
      | some lookupActive =>
          cases huser : ctx.user <;> simp [hstore, resolve, huser, Except.mapError] at h

theorem resolve_ok {store : Option SubscriptionStore} {ctx : Ctx} {active : ActiveSubscription}
    (h : resolve store ctx = .ok active) :
    ∃ lookupActive user, store = some lookupActive ∧ lookupActive user = .ok active := by
  cases hstore : store with
  | none => simp [hstore, resolve] at h
  | some lookupActive =>
      cases huser : ctx.user with
      | none => simp [hstore, resolve, huser] at h
      | some user =>
          simp only [hstore, resolve, huser] at h
          exact ⟨lookupActive, user.id, rfl, mapError_eq_ok.mp h⟩

theorem guarded_iff {call : Call} : call.guarded W k = true ↔
    ⟨.quota, k.limit⟩ ∈ call.gates ∧ ∃ active, resolve W.store call.ctx = .ok active ∧
      usageKey W.month call.ctx active.subscriptionID k.limit = k := by
  unfold Call.guarded
  rw [Bool.and_eq_true, List.contains_iff_mem]
  cases resolve W.store call.ctx <;> simp

/-- A guarded call passes the check only while the counter is below the limit. -/
theorem used_lt_of_check {call : Call} (limited : Limited W k n) (guarded : call.guarded W k = true)
    (h : checkQuota (W.answering up) (W.reading s.usage ok) W.month call.ctx W.catalog k.limit
      = .ok ()) : s.used W k < n := by
  obtain ⟨active, plan, value, hactive, hplan, hvalue, hused⟩ := checkQuota_ok h
  have resolved := resolve_answering hactive
  obtain ⟨-, active', hactive', hkey⟩ := guarded_iff.mp guarded
  cases resolved.symm.trans hactive'
  obtain ⟨lookupActive, user, hstore, hlookup⟩ := resolve_ok resolved
  have hsub : active.subscriptionID = k.subscription := congrArg Key.subscription hkey
  cases limited lookupActive hstore user active hlookup hsub plan value hplan hvalue
  rw [hkey] at hused
  rcases hused with unlimited | ⟨used, hread, below⟩
  · cases unlimited
  · unfold State.used
    unfold World.reading at hread
    cases hcounts : W.counts with
    | false =>
        simp only [hcounts, readUsage] at hread
        cases hread
        exact below
    | true =>
        cases hok : ok with
        | false => simp [hcounts, hok, readUsage, Except.mapError] at hread
        | true =>
            simp only [hcounts, hok, readUsage, if_true, Except.mapError, Except.ok.injEq] at hread
            rw [if_pos rfl, hread]
            exact below

/-- The counter of a guarded call. -/
theorem key_of_incrQuota {call : Call} {key : Key} (guarded : call.guarded W k = true)
    (h : incrQuota (W.answering up) W.month call.ctx W.catalog k.limit = .ok (some key)) :
    key = k := by
  obtain ⟨active, hactive, rfl⟩ := incrQuota_some h
  obtain ⟨-, active', hactive', hkey⟩ := guarded_iff.mp guarded
  cases (resolve_answering hactive).symm.trans hactive'
  exact hkey

theorem le_update (usage : Key → Nat) (key : Key) :
    usage k ≤ Function.update usage key (usage key + 1) k := by
  by_cases h : k = key
  · subst h
    rw [Function.update_self]
    exact Nat.le_succ _
  · exact Nat.le_of_eq (Function.update_of_ne h ..).symm

/-- What a call has behind it, by its phase. -/
def Flight.Ok (f : Flight) : Prop :=
  match f.phase with
  | .checking rest => f.counted = [] ∧
      ∀ limit, ⟨.quota, limit⟩ ∈ f.call.gates → ⟨.quota, limit⟩ ∈ rest ∨ limit ∈ f.passed
  | .handling | .incrementing _ | .returned =>
      ∀ limit, ⟨.quota, limit⟩ ∈ f.call.gates → limit ∈ f.passed
  | .refused _ | .failed => True

/-- What an operation can do to one counter and to the standing of the call. -/
inductive Moves (W : World) (k : Key) (n : Nat) (s : State) (f : Flight) :
    (Key → Nat) × Flight → Prop where
  | stays {usage : Key → Nat} {f' : Flight} : f'.standing W k = f.standing W k →
      s.usage k ≤ usage k → Moves W k n s f (usage, f')
  | enters {f' : Flight} : f.standing W k = .out → f'.standing W k = .held →
      s.used W k < n → Moves W k n s f (s.usage, f')
  | leaves {f' : Flight} : f.standing W k = .held →
      f'.standing W k = .out ∨ f'.standing W k = .lost → Moves W k n s f (s.usage, f')
  | counts {usage : Key → Nat} {f' : Flight} : f.standing W k = .held →
      f'.standing W k = .counted → W.counts = true → usage k = s.usage k + 1 →
      Moves W k n s f (usage, f')

theorem standing_of_not {f : Flight} (h : ¬ (f.call.guarded W k = true ∧ k.limit ∈ f.passed)) :
    f.standing W k = .out := if_neg h

theorem standing_of_part {f : Flight} (h : f.call.guarded W k = true ∧ k.limit ∈ f.passed)
    (fresh : k.limit ∉ f.counted) : f.standing W k = f.phase.standing := by
  unfold Flight.standing
  rw [if_pos h, if_neg fresh]

/-- Only the phase changes: the call stays where it is, or gives up its place. -/
theorem Moves.rephase (p : Phase) (h : p.standing = f.phase.standing ∨
    f.phase.standing = .held ∧ (p.standing = .out ∨ p.standing = .lost)) :
    Moves W k n s f (s.usage, { f with phase := p }) := by
  by_cases part : f.call.guarded W k = true ∧ k.limit ∈ f.passed
  · by_cases counted : k.limit ∈ f.counted
    · refine .stays ?_ (Nat.le_refl _)
      unfold Flight.standing
      rw [if_pos part, if_pos part, if_pos counted, if_pos counted]
    · have now := standing_of_part part counted
      have after : ({ f with phase := p } : Flight).standing W k = p.standing :=
        standing_of_part part counted
      rcases h with same | ⟨held, gone⟩
      · exact .stays (by rw [now, after, same]) (Nat.le_refl _)
      · exact .leaves (now.trans held) (by rwa [after])
  · exact .stays ((standing_of_not part).symm ▸ standing_of_not part) (Nat.le_refl _)

theorem check_moves {gate : GateRef} {rest : List GateRef} (limited : Limited W k n)
    (hphase : f.phase = .checking (gate :: rest)) (uncounted : f.counted = []) :
    Moves W k n s f (s.usage, check W s.usage f gate rest up ok) := by
  unfold check
  cases hcheck : checkGate (W.answering up) (W.reading s.usage ok) W.month f.call.ctx W.catalog
      gate with
  | error e => exact .rephase _ (.inr ⟨by rw [hphase]; rfl, .inl rfl⟩)
  | ok =>
      dsimp only
      by_cases quota : gate.kind = .quota
      · rw [if_pos quota]
        by_cases enters : f.call.guarded W k = true ∧ gate.name = k.limit ∧ k.limit ∉ f.passed
        · obtain ⟨guarded, hname, hpassed⟩ := enters
          have passes : checkQuota (W.answering up) (W.reading s.usage ok) W.month f.call.ctx
              W.catalog k.limit = .ok () := by
            unfold checkGate at hcheck
            rw [quota, hname] at hcheck
            exact hcheck
          refine .enters (standing_of_not fun part => hpassed part.2) ?_
            (used_lt_of_check limited guarded passes)
          refine standing_of_part ⟨guarded, ?_⟩ ?_
          · rw [hname]
            exact List.mem_cons_self
          · rw [uncounted]
            exact List.not_mem_nil
        · refine .stays ?_ (Nat.le_refl _)
          have same : f.call.guarded W k = true ∧ k.limit ∈ gate.name :: f.passed ↔
              f.call.guarded W k = true ∧ k.limit ∈ f.passed := by
            rw [List.mem_cons]
            grind
          unfold Flight.standing
          simp only [hphase, Phase.standing, same]
      · rw [if_neg quota]
        exact .rephase _ (.inl (by rw [hphase]; rfl))

theorem uncounted_moves {limit : String} {rest : List String}
    (hphase : f.phase = .incrementing (limit :: rest)) :
    Moves W k n s f (s.usage, f.uncounted rest) := by
  refine .rephase _ ?_
  rw [hphase]
  cases f.call.dispatched
  · exact .inl rfl
  · exact .inr ⟨rfl, .inr rfl⟩

theorem increment_moves {limit : String} {rest : List String}
    (hphase : f.phase = .incrementing (limit :: rest)) :
    Moves W k n s f (increment W s.usage f limit rest up ok) := by
  unfold increment
  cases hincr : incrQuota (W.answering up) W.month f.call.ctx W.catalog limit with
  | error e => exact uncounted_moves hphase
  | ok key =>
      cases key with
      | none => exact .rephase _ (.inl (by rw [hphase]; rfl))
      | some key =>
          cases hcounts : W.counts with
          | false => exact .rephase _ (.inl (by rw [hphase]; rfl))
          | true =>
              cases ok with
              | false => exact uncounted_moves hphase
              | true =>
                  simp only [Bool.not_true, Bool.false_eq_true, if_false]
                  by_cases part : f.call.guarded W k = true ∧ k.limit ∈ f.passed
                  · by_cases now : k.limit ∉ f.counted ∧ limit = k.limit
                    · obtain ⟨fresh, rfl⟩ := now
                      have hkey := key_of_incrQuota part.1 hincr
                      refine .counts ?_ ?_ hcounts ?_
                      · rw [standing_of_part part fresh, hphase]
                        rfl
                      · unfold Flight.standing
                        rw [if_pos part, if_pos List.mem_cons_self]
                      · rw [hkey, Function.update_self]
                    · refine .stays ?_ (le_update s.usage key)
                      have same : k.limit ∈ limit :: f.counted ↔ k.limit ∈ f.counted := by
                        rw [List.mem_cons]
                        grind
                      unfold Flight.standing
                      simp only [hphase, Phase.standing, same]
                  · refine .stays ?_ (le_update s.usage key)
                    rw [standing_of_not part]
                    exact standing_of_not part

theorem advance_moves (limited : Limited W k n) (fine : f.Ok) :
    Moves W k n s f (f.advance W s.usage up ok) := by
  unfold Flight.Ok at fine
  unfold Flight.advance
  cases hphase : f.phase with
  | checking rest =>
      rw [hphase] at fine
      cases rest with
      | nil => exact .rephase _ (.inl (by rw [hphase]; rfl))
      | cons gate rest => exact check_moves limited hphase fine.1
  | handling =>
      refine .rephase _ ?_
      rw [hphase]
      cases ok
      · exact .inr ⟨rfl, .inl rfl⟩
      · exact .inl rfl
  | incrementing rest =>
      cases rest with
      | nil => exact .rephase _ (.inr ⟨by rw [hphase]; rfl, .inr rfl⟩)
      | cons limit rest => exact increment_moves hphase
  | refused e => exact .stays rfl (Nat.le_refl _)
  | failed => exact .stays rfl (Nat.le_refl _)
  | returned => exact .stays rfl (Nat.le_refl _)

/-! ### What a call has behind it -/

theorem start_ok (call : Call) : (Flight.start call).Ok :=
  ⟨rfl, fun _ mem => .inl (mem_preludeOrder.mpr mem)⟩

theorem check_ok {gate : GateRef} {rest : List GateRef} (usage : Key → Nat)
    (hphase : f.phase = .checking (gate :: rest)) (fine : f.Ok) :
    (check W usage f gate rest up ok).Ok := by
  unfold Flight.Ok at fine
  rw [hphase] at fine
  obtain ⟨uncounted, gates⟩ := fine
  unfold check
  split
  · trivial
  · refine ⟨uncounted, ?_⟩
    intro limit mem
    rcases gates limit mem with ahead | passed
    · rcases List.mem_cons.mp ahead with rfl | later
      · exact .inr (by simp)
      · exact .inl later
    · refine .inr ?_
      dsimp only
      split
      · exact List.mem_cons_of_mem _ passed
      · exact passed

theorem advance_ok (usage : Key → Nat) (fine : f.Ok) : (f.advance W usage up ok).2.Ok := by
  have before := fine
  unfold Flight.Ok at fine
  unfold Flight.advance
  cases hphase : f.phase with
  | checking rest =>
      rw [hphase] at fine
      cases rest with
      | nil =>
          intro limit mem
          rcases fine.2 limit mem with none | passed
          · cases none
          · exact passed
      | cons gate rest => exact check_ok usage hphase before
  | handling =>
      rw [hphase] at fine
      cases ok
      · trivial
      · exact fine
  | incrementing rest =>
      rw [hphase] at fine
      cases rest with
      | nil => exact fine
      | cons limit rest =>
          dsimp only
          unfold increment Flight.uncounted
          split
          · cases f.call.dispatched <;> exact fine
          · exact fine
          · split
            · exact fine
            · split
              · cases f.call.dispatched <;> exact fine
              · exact fine
  | refused e => exact before
  | failed => exact before
  | returned => exact before

end Counter

/-! ### Counting calls -/

theorem countP_set_add {α : Type} (p : α → Bool) {l : List α} {i : Nat} {a b : α}
    (h : l[i]? = some a) : (l.set i b).countP p + (if p a then 1 else 0) =
      l.countP p + (if p b then 1 else 0) := by
  induction l generalizing i with
  | nil => cases h
  | cons x l ih =>
      cases i with
      | zero =>
          cases h
          rw [List.set_cons_zero, List.countP_cons, List.countP_cons]
          omega
      | succ i =>
          have rest := ih (i := i) h
          rw [List.set_cons_succ, List.countP_cons, List.countP_cons]
          omega

theorem countP_le_three {α : Type} {p a b c : α → Bool} {l : List α}
    (h : ∀ x ∈ l, p x = true → a x = true ∨ b x = true ∨ c x = true) :
    l.countP p ≤ l.countP a + l.countP b + l.countP c := by
  induction l with
  | nil => exact Nat.le_refl _
  | cons x l ih =>
      have rest := ih fun y mem => h y (List.mem_cons_of_mem _ mem)
      have here := h x List.mem_cons_self
      simp only [List.countP_cons]
      cases hp : p x with
      | false =>
          simp only [Bool.false_eq_true, if_false]
          omega
      | true =>
          rcases here hp with ha | hb | hc
          · rw [if_pos rfl, if_pos ha]
            omega
          · rw [if_pos rfl, if_pos hb]
            omega
          · rw [if_pos rfl, if_pos hc]
            omega

section Bound

variable {W k} {s : State} {n m initial : Nat}

/-- An operation of a call changes the count of its old and of its new standing. -/
theorem count_set (W : World) (k : Key) {i : Nat} {f : Flight} (f' : Flight) (usage : Key → Nat) (standing : Standing)
    (found : s.flights[i]? = some f) :
    (⟨usage, s.flights.set i f'⟩ : State).count W k standing +
        (if f.standing W k = standing then 1 else 0) =
      s.count W k standing + (if f'.standing W k = standing then 1 else 0) := by
  have counted := countP_set_add (fun f => decide (f.standing W k = standing)) (b := f') found
  unfold State.count
  simpa only [decide_eq_true_eq] using counted

theorem count_arrive (call : Call) {standing : Standing} (h : standing ≠ .out) :
    (step W s (.arrive call)).1.count W k standing = s.count W k standing := by
  have out : (Flight.start call).standing W k = .out :=
    standing_of_not fun part => absurd part.2 List.not_mem_nil
  unfold State.count
  simp only [step, List.countP_append, List.countP_singleton, out]
  rw [if_neg (by simpa using h.symm), Nat.add_zero]

/-- The counter covers what has been counted, and the places held and counted are as many as the
limit leaves, and one less than may be held at once. -/
structure Inv (W : World) (k : Key) (n m initial : Nat) (s : State) : Prop where
  read : initial + s.count W k .counted ≤ s.used W k
  room : s.count W k .counted + s.count W k .held ≤ (n - initial) + (m - 1)
  fine : ∀ f ∈ s.flights, f.Ok

theorem used_mono (W : World) (flights : List Flight) {usage : Key → Nat}
    (h : s.usage k ≤ usage k) :
    s.used W k ≤ (⟨usage, flights⟩ : State).used W k := by
  unfold State.used
  split
  · exact h
  · exact Nat.le_refl _

theorem Inv.advance {i : Nat} {f f' : Flight} {usage : Key → Nat} (inv : Inv W k n m initial s)
    (found : s.flights[i]? = some f) (moves : Moves W k n s f (usage, f')) (fine : f'.Ok)
    (bound : (⟨usage, s.flights.set i f'⟩ : State).count W k .held ≤ m) :
    Inv W k n m initial ⟨usage, s.flights.set i f'⟩ := by
  obtain ⟨read, room, rest⟩ := inv
  have held := count_set W k f' usage .held found
  have counted := count_set W k f' usage .counted found
  have fines : ∀ g ∈ s.flights.set i f', g.Ok := by
    intro g mem
    rcases List.mem_or_eq_of_mem_set mem with old | rfl
    · exact rest g old
    · exact fine
  cases moves with
  | stays same grows =>
      have covers := used_mono W (s.flights.set i f') grows
      rw [same] at held counted
      exact ⟨by omega, by omega, fines⟩
  | enters was is below =>
      have covers := used_mono W (s.flights.set i f') (Nat.le_refl (s.usage k))
      simp only [was, is, reduceCtorEq, if_false, if_true] at held counted
      exact ⟨by omega, by omega, fines⟩
  | leaves was gone =>
      have covers := used_mono W (s.flights.set i f') (Nat.le_refl (s.usage k))
      have free : f'.standing W k ≠ .held ∧ f'.standing W k ≠ .counted := by
        rcases gone with is | is <;> simp [is]
      simp only [was, free, reduceCtorEq, if_false, if_true] at held counted
      exact ⟨by omega, by omega, fines⟩
  | counts was is counts grows =>
      have covers : (⟨usage, s.flights.set i f'⟩ : State).used W k = s.used W k + 1 := by
        unfold State.used
        rw [if_pos counts, if_pos counts]
        exact grows
      simp only [was, is, reduceCtorEq, if_false, if_true] at held counted
      exact ⟨by omega, by omega, fines⟩

theorem Inv.step (limited : Limited W k n) (inv : Inv W k n m initial s) (a : Act)
    (bound : (step W s a).1.count W k .held ≤ m) : Inv W k n m initial (step W s a).1 := by
  cases a with
  | arrive call =>
      refine ⟨?_, ?_, ?_⟩
      · rw [count_arrive call (by simp)]
        exact inv.read
      · rw [count_arrive call (by simp), count_arrive call (by simp)]
        exact inv.room
      · intro f mem
        rcases List.mem_append.mp mem with old | new
        · exact inv.fine f old
        · rw [List.mem_singleton.mp new]
          exact start_ok call
  | advance i up ok =>
      simp only [Billing.step] at bound ⊢
      cases found : s.flights[i]? with
      | none => exact inv
      | some f =>
          rw [found] at bound
          have fine := inv.fine f (List.mem_of_getElem? found)
          exact inv.advance found (advance_moves limited fine) (advance_ok _ fine) bound

/-- A call that has succeeded is counted, lost, or still holds its place. -/
theorem successes_le (fine : ∀ f ∈ s.flights, f.Ok) : s.successes W k ≤
    s.count W k .counted + s.count W k .held + s.count W k .lost := by
  refine countP_le_three fun f mem succeeded => ?_
  simp only [decide_eq_true_eq]
  have ok := fine f mem
  unfold Flight.succeeded at succeeded
  unfold Flight.Ok at ok
  obtain ⟨guarded, phase⟩ := Bool.and_eq_true_iff.mp succeeded
  have gate := (guarded_iff.mp guarded).1
  by_cases counted : k.limit ∈ f.counted
  · by_cases passed : k.limit ∈ f.passed
    · refine .inl ?_
      unfold Flight.standing
      rw [if_pos ⟨guarded, passed⟩, if_pos counted]
    · cases hphase : f.phase <;> simp_all
  · cases hphase : f.phase with
    | incrementing rest =>
        rw [hphase] at ok
        refine .inr (.inl ?_)
        rw [standing_of_part ⟨guarded, ok _ gate⟩ counted, hphase]
        rfl
    | returned =>
        rw [hphase] at ok
        refine .inr (.inr ?_)
        rw [standing_of_part ⟨guarded, ok _ gate⟩ counted, hphase]
        rfl
    | checking rest => simp [hphase] at phase
    | handling => simp [hphase] at phase
    | refused e => simp [hphase] at phase
    | failed => simp [hphase] at phase

theorem along_peak (s : State) (acts : List Act) (h : peak W k s acts ≤ m) :
    Along (step W) (fun s a => (step W s a).1.count W k .held ≤ m) s acts := by
  induction acts generalizing s with
  | nil => trivial
  | cons a acts ih =>
      have later : peak W k (Billing.step W s a).1 acts ≤ m :=
        Nat.le_trans (Nat.le_max_right _ _) h
      refine ⟨?_, ih _ later⟩
      cases acts with
      | nil => exact later
      | cons b acts => exact Nat.le_trans (Nat.le_max_left _ _) later

theorem inv_start (n m : Nat) (new : s.flights = []) : Inv W k n m (s.used W k) s := by
  have none : ∀ standing, s.count W k standing = 0 := by
    intro standing
    unfold State.count
    rw [new, List.countP_nil]
  refine ⟨?_, ?_, ?_⟩
  · rw [none]
    exact Nat.le_refl _
  · rw [none, none]
    exact Nat.zero_le _
  · intro f mem
    rw [new] at mem
    cases mem

theorem inv_run (limited : Limited W k n) (new : s.flights = []) (acts : List Act) :
    Inv W k n (peak W k s acts) (s.used W k) (runState (step W) s acts) :=
  (along_peak s acts (Nat.le_refl _)).inv
    (fun _ a inv bound => inv.step limited a bound) (inv_start n _ new)

end Bound

/-- In every interleaving the guarded calls that succeed are at most what the counter leaves of
the limit, as many more as hold a place at once besides the first, and those whose increment
is lost. -/
theorem quota_overshoot {n : Nat} (limited : Limited W k n) (s : State) (new : s.flights = [])
    (acts : List Act) : (runState (step W) s acts).successes W k ≤
      (n - s.used W k) + (peak W k s acts - 1) + (runState (step W) s acts).count W k .lost := by
  have inv := inv_run limited new acts
  have bound := successes_le (W := W) (k := k) inv.fine
  have room := inv.room
  omega

/-! ### One invoice a month -/

def starter : Plan := ⟨"starter", [], [("invoices", limitInt 1)]⟩

def invoicing : World where
  store := some fun user => if user = 7 then .ok ⟨3, "starter"⟩ else .error "no subscription"
  catalog := ⟨[("starter", starter)]⟩
  month := fun _ => some 0
  counts := true

def invoices : Key := ⟨3, "invoices", some 0⟩

def createInvoice : Call where
  ctx := ⟨ActorUser, some ⟨7, 1, []⟩, none, some 5⟩
  gates := [⟨.quota, "invoices"⟩]
  dispatched := false

def unused : State := ⟨fun _ => 0, []⟩

/-- Both calls pass the check before either is counted. -/
def overtaking : List Act :=
  [.arrive createInvoice, .arrive createInvoice, .advance 0 true true, .advance 1 true true,
    .advance 0 true true, .advance 1 true true, .advance 0 true true, .advance 1 true true]

theorem invoices_limited : Limited invoicing invoices 1 := by
  intro lookupActive hstore user active hlookup _ plan value hplan hvalue
  cases hstore
  dsimp only at hlookup
  split at hlookup
  · cases hlookup
    have : plan = starter := by simpa [invoicing, starter] using hplan.symm
    subst this
    simpa [starter, invoices, List.lookup_cons] using hvalue.symm
  · cases hlookup

theorem quota_overshoot_invoices :
    Limited invoicing invoices 1 ∧ unused.flights = [] ∧
      (runState (step invoicing) unused overtaking).successes invoicing invoices ≤
        (1 - unused.used invoicing invoices) + (peak invoicing invoices unused overtaking - 1) +
          (runState (step invoicing) unused overtaking).count invoicing invoices .lost :=
  ⟨invoices_limited, rfl, quota_overshoot invoicing invoices invoices_limited unused rfl overtaking⟩

theorem quota_exceeded : Limited invoicing invoices 1 ∧ unused.used invoicing invoices = 0 ∧
    ¬ (runState (step invoicing) unused overtaking).successes invoicing invoices ≤ 1 :=
  ⟨invoices_limited, rfl, of_decide_eq_false rfl⟩

end Lazuli.Billing
