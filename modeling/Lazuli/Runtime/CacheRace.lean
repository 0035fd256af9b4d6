import Lazuli.General.Transition
import Lazuli.Runtime.Cache
import Lazuli.Runtime.CacheKey

/-!
Queries and commands around one cache (`run.go`: `RunList`, `RunLookup`,
`lookupQueryCache`, `storeQueryCache`; `handle.go`: the end of `Command.Handle`).

A query looks its key up, reads the database on a miss and stores what it read. A command
commits its transaction and then invalidates the queries it names. These are five separate
steps; nothing is locked from one to the next, and any number of queries and commands take
theirs in any order, while time passes and the library cleans its stores.

Three parts of the state are only there to be talked about: `steps` counts the steps taken,
a value carries the step it was read at, and `returned` lists the commands that have
invalidated, each with the step it committed at.

The invalidation of a command can fall between the read and the store of a query. Then the
value stored is older than the command and outlives its invalidation; `Unraced` is a store
to which that did not happen.
-/

namespace Lazuli.Runtime.CacheRace

open Lazuli.General

/-! ### The system -/

structure CacheSpec where
  ttl : Int
  deriving DecidableEq

/-- One call of a query. Without a `cache` it does not touch the cache. -/
structure QueryCall (A : Type) where
  ctx : Option Ctx
  name : QueryName
  args : A
  cache : Option CacheSpec

/-- One call of a command. `tx` is its transaction; `none` rolls back. -/
structure CommandCall (D : Type) where
  invalidates : List String
  tx : D → Option D

/-- A value with the step at which the database was read. -/
structure Stamped (V : Type) where
  value : V
  readAt : Nat
  deriving DecidableEq

/-- All calls of a run, and what they do outside the cache. `fetch` builds the statement,
runs it and scans the rows; `typed` is the type assertion on a cached value. -/
structure World (A V D : Type) where
  backing : Backing (Stamped V)
  hash : ArgsHash A
  queries : Nat → QueryCall A
  commands : Nat → CommandCall D
  fetch : QueryCall A → D → Option V
  typed : QueryCall A → V → Bool

inductive QueryPhase (V : Type) where
  | looking
  | reading
  | loaded (v : Stamped V)
  | answered
  deriving DecidableEq

inductive CommandPhase where
  | running
  | committed (committedAt : Nat)
  | answered
  deriving DecidableEq

/-- A command that has returned. -/
structure Returned where
  invalidates : List String
  committedAt : Nat
  deriving DecidableEq

variable {A V D : Type}

structure State (W : World A V D) where
  steps : Nat
  wall : Int
  db : D
  cache : Cache W.backing
  queries : Nat → QueryPhase V
  commands : Nat → CommandPhase
  returned : List Returned

inductive Act where
  | lookup (i : Nat)
  | read (i : Nat)
  | store (i : Nat)
  | commit (j : Nat)
  | invalidate (j : Nat)
  | tick (d : Nat)
  | sweep (ttl : Int)
  deriving DecidableEq

/-- A request has its own time, and falls back to the clock. -/
def requestTime (ctx : Option Ctx) (wall : Int) : Int := (ctx.bind Ctx.now).getD wall

/-- A value of another type counts as a miss. -/
def lookupQueryCache (W : World A V D) (cache : Cache W.backing) (q : QueryCall A)
    (wall : Int) : Cache W.backing × Option (Stamped V) :=
  match cacheKeyFor W.hash q.ctx q.name q.args with
  | none => (cache, none)
  | some key =>
      let got := cache.get key (requestTime q.ctx wall) wall
      (got.1, got.2.filter fun v => W.typed q v.value)

def storeQueryCache (W : World A V D) (cache : Cache W.backing) (q : QueryCall A)
    (v : Stamped V) (ttl wall : Int) : Cache W.backing :=
  match cacheKeyFor W.hash q.ctx q.name q.args with
  | none => cache
  | some key => cache.put key q.name.text v ttl (requestTime q.ctx wall) wall

def init (W : World A V D) (capacity wall : Int) (db : D) : State W where
  steps := 0
  wall := wall
  db := db
  cache := newCache W.backing capacity
  queries := fun _ => .looking
  commands := fun _ => .running
  returned := []

namespace State

variable {W : World A V D}

def setQuery (s : State W) (i : Nat) (p : QueryPhase V) : State W :=
  { s with queries := Function.update s.queries i p }

def setCommand (s : State W) (j : Nat) (p : CommandPhase) : State W :=
  { s with commands := Function.update s.commands j p }

@[simp] theorem setQuery_returned (s : State W) (i : Nat) (p : QueryPhase V) :
    (s.setQuery i p).returned = s.returned := rfl

@[simp] theorem setQuery_queries_self (s : State W) (i : Nat) (p : QueryPhase V) :
    (s.setQuery i p).queries i = p := Function.update_self ..

theorem setQuery_queries_of_ne (s : State W) {i j : Nat} (h : j ≠ i) (p : QueryPhase V) :
    (s.setQuery i p).queries j = s.queries j := Function.update_of_ne h ..

/-- A step of a call that is somewhere else does nothing. The answer is a hit. -/
def act (s : State W) : Act → State W × Option (Stamped V)
  | .lookup i =>
      match s.queries i with
      | .looking =>
          match (W.queries i).cache with
          | none => (s.setQuery i .reading, none)
          | some _ =>
              let found := lookupQueryCache W s.cache (W.queries i) s.wall
              let s := { s with cache := found.1 }
              match found.2 with
              | some v => (s.setQuery i .answered, some v)
              | none => (s.setQuery i .reading, none)
      | _ => (s, none)
  | .read i =>
      match s.queries i with
      | .reading =>
          match W.fetch (W.queries i) s.db with
          | some v => (s.setQuery i (.loaded ⟨v, s.steps⟩), none)
          | none => (s.setQuery i .answered, none)
      | _ => (s, none)
  | .store i =>
      match s.queries i with
      | .loaded v =>
          match (W.queries i).cache with
          | none => (s.setQuery i .answered, none)
          | some spec =>
              let cache := storeQueryCache W s.cache (W.queries i) v spec.ttl s.wall
              ({ s with cache := cache }.setQuery i .answered, none)
      | _ => (s, none)
  | .commit j =>
      match s.commands j with
      | .running =>
          match (W.commands j).tx s.db with
          | some db => ({ s with db := db }.setCommand j (.committed s.steps), none)
          | none => (s.setCommand j .answered, none)
      | _ => (s, none)
  | .invalidate j =>
      match s.commands j with
      | .committed committedAt =>
          let names := (W.commands j).invalidates
          let s := { s with
            cache := (s.cache.invalidateQueries names s.wall).1
            returned := ⟨names, committedAt⟩ :: s.returned }
          (s.setCommand j .answered, none)
      | _ => (s, none)
  | .tick d => ({ s with wall := s.wall + d }, none)
  | .sweep ttl => ({ s with cache := s.cache.sweep ttl s.wall }, none)

end State

def step (W : World A V D) (s : State W) (a : Act) : State W × Option (Stamped V) :=
  let next := s.act a
  ({ next.1 with steps := s.steps + 1 }, next.2)

/-! ### Freshness -/

/-- The value was not read before the commit of a returned command that names the query. -/
def Fresh {W : World A V D} (s : State W) (name : String) (v : Stamped V) : Prop :=
  ∀ r ∈ s.returned, name ∈ r.invalidates → r.committedAt ≤ v.readAt

instance {W : World A V D} (s : State W) (name : String) (v : Stamped V) :
    Decidable (Fresh s name v) :=
  inferInstanceAs (Decidable (∀ r ∈ s.returned, name ∈ r.invalidates → r.committedAt ≤ v.readAt))

/-- No lookup that starts now is answered with a value from before such a commit. -/
def NoStaleHit (W : World A V D) (s : State W) : Prop :=
  ∀ i v, (step W s (.lookup i)).2 = some v → Fresh s (W.queries i).name.text v

/-- What a call is about to store is fresh. -/
def FreshLoad {W : World A V D} (s : State W) (name : String) : QueryPhase V → Prop
  | .loaded v => Fresh s name v
  | _ => True

instance {W : World A V D} (s : State W) (name : String) : DecidablePred (FreshLoad s name)
  | .loaded v => inferInstanceAs (Decidable (Fresh s name v))
  | .looking | .reading | .answered => .isTrue trivial

/-- A store whose value no returned command that names the query has overtaken. -/
def Unraced (W : World A V D) (s : State W) : Act → Prop
  | .store i => FreshLoad s (W.queries i).name.text (s.queries i)
  | _ => True

instance (W : World A V D) (s : State W) : DecidablePred (Unraced W s)
  | .store i => inferInstanceAs (Decidable (FreshLoad s (W.queries i).name.text (s.queries i)))
  | .lookup _ | .read _ | .commit _ | .invalidate _ | .tick _ | .sweep _ => .isTrue trivial

/-- What the cache holds is fresh, and its keys name the queries of its entries. -/
def FreshCache {W : World A V D} (s : State W) : Prop :=
  ∀ key e, s.cache.holds s.wall key = some e →
    keyName key = e.queryName.toList ∧ Fresh s e.queryName e.value

variable {W : World A V D} {s s' : State W} {i : Nat} {v : Stamped V}

theorem freshCache_init (capacity wall : Int) (db : D) : FreshCache (init W capacity wall db) := by
  intro key e h
  have absent : (init W capacity wall db).cache.holds wall key = none :=
    Cache.not_holds_newCache capacity
  rw [show (init W capacity wall db).wall = wall from rfl, absent] at h
  cases h

/-- A step that returns no command, and after which the cache holds no more, is harmless. -/
theorem FreshCache.of_less (h : FreshCache s) (returned : s'.returned = s.returned)
    (less : ∀ key e, s'.cache.holds s'.wall key = some e → s.cache.holds s.wall key = some e) :
    FreshCache s' := by
  intro key e he
  obtain ⟨hname, hfresh⟩ := h key e (less key e he)
  refine ⟨hname, ?_⟩
  intro r hr
  rw [returned] at hr
  exact hfresh r hr

theorem holds_of_lookupQueryCache {cache : Cache W.backing} {q : QueryCall A} {wall wall' : Int}
    {key : String} {e : CacheEntry (Stamped V)}
    (h : (lookupQueryCache W cache q wall).1.holds wall' key = some e) :
    cache.holds wall' key = some e := by
  unfold lookupQueryCache at h
  split at h
  · exact h
  · exact Cache.holds_of_get h

/-- A hit is a value that the cache holds under the key of the call. -/
theorem lookup_hit (hit : (step W s (.lookup i)).2 = some v) :
    ∃ key e, cacheKeyFor W.hash (W.queries i).ctx (W.queries i).name (W.queries i).args =
      some key ∧ s.cache.holds s.wall key = some e ∧ e.value = v := by
  unfold step State.act lookupQueryCache at hit
  dsimp only at hit
  split at hit
  · split at hit
    · cases hit
    · split at hit
      next found hfound =>
        obtain rfl := Option.some.inj hit
        split at hfound
        · cases hfound
        next key hkey =>
          obtain ⟨hgot, -⟩ := Option.filter_eq_some_iff.mp hfound
          obtain ⟨e, hheld, hvalue, -⟩ := Cache.get_hit hgot
          exact ⟨key, e, hkey, hheld, hvalue⟩
      · cases hit
  · cases hit

/-! ### One step -/

theorem FreshCache.store (h : FreshCache s) (fresh : Fresh s (W.queries i).name.text v)
    (ttl : Int) :
    FreshCache { s with cache := storeQueryCache W s.cache (W.queries i) v ttl s.wall } := by
  intro key e he
  unfold storeQueryCache at he
  dsimp only at he
  split at he
  · exact h key e he
  next k hk =>
    rcases Cache.holds_put_cases he with ⟨rfl, rfl⟩ | ⟨-, hold⟩
    · exact ⟨keyName_cacheKeyFor hk, fresh⟩
    · exact h key e hold

theorem FreshCache.invalidate (h : FreshCache s) (names : List String) (committedAt : Nat) :
    FreshCache { s with
      cache := (s.cache.invalidateQueries names s.wall).1
      returned := ⟨names, committedAt⟩ :: s.returned } := by
  intro key e he
  obtain ⟨hheld, hnot⟩ := Cache.holds_of_invalidateQueries (Int.le_refl s.wall) he
  obtain ⟨hname, hfresh⟩ := h key e hheld
  refine ⟨hname, ?_⟩
  intro r hr
  cases hr with
  | head => exact fun hmem => absurd hmem hnot
  | tail _ hr => exact hfresh r hr

theorem FreshCache.act {a : Act} (h : FreshCache s) (unraced : Unraced W s a) :
    FreshCache (s.act a).1 := by
  unfold State.act
  cases a with
  | lookup i =>
      dsimp only
      split
      · split
        · exact h
        · split
          all_goals exact h.of_less rfl fun _ _ => holds_of_lookupQueryCache
      · exact h
  | read i =>
      dsimp only
      split
      · split <;> exact h
      · exact h
  | store i =>
      dsimp only
      split
      next v hload =>
        have fresh : Fresh s (W.queries i).name.text v := by
          simpa only [Unraced, hload, FreshLoad] using unraced
        split
        · exact h
        next spec hspec => exact h.store fresh spec.ttl
      · exact h
  | commit j =>
      dsimp only
      split
      · split <;> exact h
      · exact h
  | invalidate j =>
      dsimp only
      split
      next committedAt hphase => exact h.invalidate (W.commands j).invalidates committedAt
      · exact h
  | tick d =>
      have le : s.wall ≤ s.wall + d := by omega
      exact h.of_less rfl fun _ _ => Cache.holds_mono le
  | sweep ttl => exact h.of_less rfl fun _ _ => Cache.holds_of_sweep

/-- A hit is a value the cache holds under the query's own name. -/
theorem FreshCache.noStaleHit (h : FreshCache s) : NoStaleHit W s := by
  intro i v hit
  obtain ⟨key, e, hkey, hheld, rfl⟩ := lookup_hit hit
  obtain ⟨hname, hfresh⟩ := h key e hheld
  rw [keyName_cacheKeyFor hkey] at hname
  rw [String.toList_injective hname]
  exact hfresh

/-- A raced store is seen: a call of the same query that looks next is answered with the
stale value. -/
theorem not_noStaleHit_of_raced {i j : Nat} (raced : ¬ Unraced W s (.store i))
    {spec : CacheSpec} (cached : (W.queries i).cache = some spec) {key : String}
    (hkey : cacheKeyFor W.hash (W.queries i).ctx (W.queries i).name (W.queries i).args = some key)
    (typed : ∀ v, s.queries i = .loaded v → W.typed (W.queries i) v.value = true)
    (hj : s.queries j = .looking) (same : W.queries j = W.queries i) :
    ¬ NoStaleHit W (step W s (.store i)).1 := by
  unfold Unraced FreshLoad at raced
  dsimp only at raced
  split at raced
  next v hload =>
    have hne : j ≠ i := by
      rintro rfl
      rw [hj] at hload
      cases hload
    intro sound
    apply raced
    have hit : (step W (step W s (.store i)).1 (.lookup j)).2 = some v := by
      simp only [step, State.act, hload, cached, State.setQuery, Function.update_of_ne hne, hj,
        same, lookupQueryCache, storeQueryCache, hkey, Cache.get_put_self, typed v hload,
        Option.filter_some, if_true]
    have fresh := sound j v hit
    rw [same] at fresh
    intro r hr
    apply fresh r
    simp only [step, State.act, hload, cached, State.setQuery_returned]
    exact hr
  · exact absurd trivial raced

/-! ### Runs -/

/-- In a run without a raced store, a lookup that starts after a command has returned is
not answered with a value from before that command's commit. -/
theorem no_stale_hit (W : World A V D) (capacity wall : Int) (db : D) (acts : List Act)
    (unraced : Along (step W) (Unraced W) (init W capacity wall db) acts) :
    NoStaleHit W (runState (step W) (init W capacity wall db) acts) := by
  apply FreshCache.noStaleHit
  apply Along.inv _ (freshCache_init capacity wall db) unraced
  intro s a hfresh hunraced
  exact hfresh.act hunraced

/-- Two calls of one query and a command that invalidates it. The database is a number, the
query returns it and the command sets it to 1. -/
def note : World Unit Nat Nat where
  backing := .reference (Stamped Nat)
  hash := ⟨fun _ => some "00", fun _ _ _ _ _ => rfl, fun _ _ h => by
    obtain rfl := Option.some.inj h
    decide⟩
  queries := fun _ => ⟨none, ⟨"note.list", by decide⟩, (), some ⟨0⟩⟩
  commands := fun _ => ⟨["note.list"], fun _ => some 1⟩
  fetch := fun _ db => some db
  typed := fun _ _ => true

/-- Read, store, commit, invalidate: the second call reads again. -/
def inOrder : List Act :=
  [.lookup 0, .read 0, .store 0, .commit 0, .invalidate 0, .lookup 1, .read 1, .store 1]

/-- The command commits and invalidates between the read and the store. -/
def raced : List Act :=
  [.lookup 0, .read 0, .commit 0, .invalidate 0, .store 0]

theorem no_stale_hit_note : NoStaleHit note (runState (step note) (init note 8 0 0) inOrder) :=
  no_stale_hit note 8 0 0 inOrder (by decide +kernel)

theorem stale_hit : ¬ ∀ acts, NoStaleHit note (runState (step note) (init note 8 0 0) acts) := by
  intro sound
  have hit : (step note (runState (step note) (init note 8 0 0) raced) (.lookup 1)).2 =
      some ⟨0, 1⟩ := by decide +kernel
  have fresh := sound raced 1 ⟨0, 1⟩ hit
  revert fresh
  decide +kernel

end Lazuli.Runtime.CacheRace

/-!
Where a cached answer comes from.

In any run, whatever is interleaved, what the cache holds under a key was read from the database
for a call with that key.
-/

namespace Lazuli.Runtime.CacheRace

open Lazuli.General

variable {A V D : Type} {W : World A V D} {s s' : State W} {i : Nat} {v : Stamped V}

def callKey (W : World A V D) (i : Nat) : Option String :=
  cacheKeyFor W.hash (W.queries i).ctx (W.queries i).name (W.queries i).args

/-- The value is what a call like `i` reads from some database. -/
def ReadFor (W : World A V D) (i : Nat) (v : Stamped V) : Prop :=
  ∃ db, W.fetch (W.queries i) db = some v.value

structure Origin (s : State W) : Prop where
  loaded : ∀ i v, s.queries i = .loaded v → ReadFor W i v
  cached : ∀ key e, s.cache.holds s.wall key = some e →
    ∃ j, callKey W j = some key ∧ ReadFor W j e.value

theorem origin_init (capacity wall : Int) (db : D) : Origin (init W capacity wall db) where
  loaded i v h := by cases h
  cached key e h := by
    have absent : (init W capacity wall db).cache.holds wall key = none :=
      Cache.not_holds_newCache capacity
    rw [show (init W capacity wall db).wall = wall from rfl, absent] at h
    cases h

/-- A step after which no more is loaded and the cache holds no more. -/
theorem Origin.of_less (h : Origin s)
    (queries : ∀ i v, s'.queries i = .loaded v → s.queries i = .loaded v)
    (less : ∀ key e, s'.cache.holds s'.wall key = some e → s.cache.holds s.wall key = some e) :
    Origin s' where
  loaded i v hload := h.loaded i v (queries i v hload)
  cached key e hheld := h.cached key e (less key e hheld)

/-- A call that goes on to a phase in which nothing is loaded. -/
theorem loaded_of_setQuery {p : QueryPhase V} (idle : ∀ v, p ≠ .loaded v) (j : Nat)
    (h : (s.setQuery i p).queries j = .loaded v) : s.queries j = .loaded v := by
  by_cases hj : j = i
  · subst hj
    rw [State.setQuery_queries_self] at h
    exact absurd h (idle v)
  · rwa [State.setQuery_queries_of_ne s hj] at h

theorem Origin.setQuery (h : Origin s) {p : QueryPhase V} (idle : ∀ v, p ≠ .loaded v) :
    Origin (s.setQuery i p) :=
  h.of_less (fun j _ => loaded_of_setQuery idle j) fun _ _ held => held

theorem Origin.load (h : Origin s) {value : V} (read : W.fetch (W.queries i) s.db = some value) :
    Origin (s.setQuery i (.loaded ⟨value, s.steps⟩)) where
  loaded j v hload := by
    by_cases hj : j = i
    · subst hj
      rw [State.setQuery_queries_self] at hload
      cases hload
      exact ⟨s.db, read⟩
    · rw [State.setQuery_queries_of_ne s hj] at hload
      exact h.loaded j v hload
  cached := h.cached

theorem Origin.store (h : Origin s) (read : ReadFor W i v) (ttl : Int) :
    Origin { s with cache := storeQueryCache W s.cache (W.queries i) v ttl s.wall } where
  loaded := h.loaded
  cached key e held := by
    unfold storeQueryCache at held
    dsimp only at held
    split at held
    · exact h.cached key e held
    next k hk =>
      rcases Cache.holds_put_cases held with ⟨rfl, rfl⟩ | ⟨-, before⟩
      · exact ⟨i, hk, read⟩
      · exact h.cached key e before

/-- Whatever the step, the cache is filled from reads. -/
theorem Origin.act {a : Act} (h : Origin s) : Origin (s.act a).1 := by
  unfold State.act
  cases a with
  | lookup i =>
      dsimp only
      split
      · split
        · exact h.setQuery nofun
        · have looked : Origin { s with
              cache := (lookupQueryCache W s.cache (W.queries i) s.wall).1 } :=
            h.of_less (fun _ _ => id) fun _ _ => holds_of_lookupQueryCache
          split
          · exact looked.setQuery nofun
          · exact looked.setQuery nofun
      · exact h
  | read i =>
      dsimp only
      split
      · split
        next value read => exact h.load read
        · exact h.setQuery nofun
      · exact h
  | store i =>
      dsimp only
      split
      next v hload =>
        split
        · exact h.setQuery nofun
        next spec hspec => exact (h.store (h.loaded i v hload) spec.ttl).setQuery nofun
      · exact h
  | commit j =>
      dsimp only
      split
      · split
        · exact h.of_less (fun _ _ => id) fun _ _ => id
        · exact h.of_less (fun _ _ => id) fun _ _ => id
      · exact h
  | invalidate j =>
      dsimp only
      split
      next committedAt hphase =>
        exact h.of_less (fun _ _ => id) fun _ _ held =>
          (Cache.holds_of_invalidateQueries (Int.le_refl s.wall) held).1
      · exact h
  | tick d =>
      have le : s.wall ≤ s.wall + d := by omega
      exact h.of_less (fun _ _ => id) fun _ _ => Cache.holds_mono le
  | sweep ttl => exact h.of_less (fun _ _ => id) fun _ _ => Cache.holds_of_sweep

theorem Origin.step {a : Act} (h : Origin s) : Origin (step W s a).1 :=
  (h.act (a := a)).of_less (fun _ _ => id) fun _ _ => id

/-- A hit was read for a call with the key of the one it answers. -/
theorem Origin.hit (h : Origin s) (hit : (CacheRace.step W s (.lookup i)).2 = some v) :
    ∃ j key, callKey W i = some key ∧ callKey W j = some key ∧ ReadFor W j v := by
  obtain ⟨key, e, hkey, hheld, rfl⟩ := lookup_hit hit
  obtain ⟨j, hj, read⟩ := h.cached key e hheld
  exact ⟨j, key, hkey, hj, read⟩

end Lazuli.Runtime.CacheRace
