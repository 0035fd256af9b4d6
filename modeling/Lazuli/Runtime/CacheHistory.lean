import Lazuli.General.Transition
import Lazuli.Runtime.CacheRecency
import Mathlib.Data.List.Induction

/-!
The query cache against the history of its calls.

A history is a list of calls, each with the time of its request and the time of the library's
clock; the cleaner may come in between. What a lookup answers afterwards is told by the
history alone: by the last put of the key, by the invalidations since, and by the clocks.
Only one thing needs the cache itself, that an entry was the least recently used one when
room was needed: then the cache, or the store of its time to live, was full of keys used
later.
-/

namespace Lazuli.Runtime.CacheHistory

open Lazuli.General

variable {α : Type}

/-! ### Histories -/

inductive Op (α : Type) where
  | get (key : String)
  | put (key queryName : String) (value : α) (ttl : Int)
  | invalidateQueries (names : List String)
  | sweep (ttl : Int)

structure Call (α : Type) where
  op : Op α
  now : Int
  wall : Int

/-- The cache and the keys used so far, the latest first. -/
structure Session (B : Backing α) where
  cache : Cache B
  used : List String

variable {B : Backing α}

/-- A put is a use, and so is a lookup that hits. -/
def Session.step (s : Session B) (c : Call α) : Session B × Option α :=
  match c.op with
  | .get key =>
      let got := s.cache.get key c.now c.wall
      (⟨got.1, if got.2.isSome then key :: s.used else s.used⟩, got.2)
  | .put key queryName value ttl =>
      (⟨s.cache.put key queryName value ttl c.now c.wall, key :: s.used⟩, none)
  | .invalidateQueries names => (⟨(s.cache.invalidateQueries names c.wall).1, s.used⟩, none)
  | .sweep ttl => (⟨s.cache.sweep ttl c.wall, s.used⟩, none)

def opened (B : Backing α) (capacity : Int) : Session B := ⟨newCache B capacity, []⟩

def after (B : Backing α) (capacity : Int) (calls : List (Call α)) : Session B :=
  runState Session.step (opened B capacity) calls

/-- Neither clock goes back, up to the time asked about. -/
def InTimeOrder (calls : List (Call α)) (now wall : Int) : Prop :=
  calls.Pairwise (fun a b => a.now ≤ b.now ∧ a.wall ≤ b.wall) ∧
    ∀ c ∈ calls, c.now ≤ now ∧ c.wall ≤ wall

instance (calls : List (Call α)) (now wall : Int) : Decidable (InTimeOrder calls now wall) :=
  inferInstanceAs (Decidable (_ ∧ _))

/-! ### What a history says of a key -/

structure Put (α : Type) where
  key : String
  queryName : String
  value : α
  ttl : Int
  now : Int
  wall : Int

namespace Put

def call (p : Put α) : Call α := ⟨.put p.key p.queryName p.value p.ttl, p.now, p.wall⟩

def entry (p : Put α) : CacheEntry α := Cache.filedEntry p.queryName p.value p.ttl p.now

/-- The deadline in the library's store. -/
def deadline (p : Put α) : Option Int := deadlineAt (normalizeTTL p.ttl) p.wall

/-- The time of the put is over, by one of the clocks. -/
def Expired (p : Put α) (now wall : Int) : Prop :=
  passed (expiryAt p.now p.ttl) now = true ∨ passed p.deadline wall = true

end Put

def Call.putKey (c : Call α) : Option String :=
  match c.op with
  | .put key _ _ _ => some key
  | _ => none

def NeverPut (calls : List (Call α)) (key : String) : Prop := ∀ c ∈ calls, c.putKey ≠ some key

/-- `Q` held of a history that no put of the key has followed. -/
def Since (calls : List (Call α)) (key : String) (Q : List (Call α) → Prop) : Prop :=
  ∃ upTo rest, calls = upTo ++ rest ∧ NeverPut rest key ∧ Q upTo

def LastPut (calls : List (Call α)) (p : Put α) : Prop :=
  Since calls p.key fun upTo => ∃ before, upTo = before ++ [p.call]

/-- The call invalidates the query. -/
def Call.Names (c : Call α) (queryName : String) : Prop :=
  ∃ names, c.op = .invalidateQueries names ∧ queryName ∈ names

def Invalidated (calls : List (Call α)) (p : Put α) : Prop :=
  Since calls p.key fun upTo => ∃ before c, upTo = before ++ [c] ∧ c.Names p.queryName

/-- All the room there is was taken by keys used later. -/
def Evicted (B : Backing α) (capacity : Int) (calls : List (Call α)) (p : Put α) : Prop :=
  Since calls p.key fun upTo =>
    (after B capacity upTo).cache.Crowded (after B capacity upTo).used (normalizeTTL p.ttl) p.key

/-- What a cache answers is what its history says. -/
structure Refines (B : Backing α) (capacity : Int) (calls : List (Call α)) (now wall : Int) :
    Prop where
  hit : ∀ key v, ((after B capacity calls).cache.get key now wall).2 = some v →
    ∃ p : Put α, p.key = key ∧ LastPut calls p ∧ p.value = v ∧ ¬ p.Expired now wall ∧
      ¬ Invalidated calls p
  bounded : ∀ keys : List String, keys.Nodup →
    (∀ key ∈ keys, ((after B capacity calls).cache.get key now wall).2.isSome) →
    keys.length ≤ if capacity ≤ 0 then 1024 else capacity.toNat
  miss : ∀ key, ((after B capacity calls).cache.get key now wall).2 = none →
    NeverPut calls key ∨ ∃ p : Put α, p.key = key ∧ LastPut calls p ∧
      (p.Expired now wall ∨ Invalidated calls p ∨ Evicted B capacity calls p)

/-! ### One call more -/

variable {calls : List (Call α)} {c : Call α} {p : Put α} {key : String} {capacity : Int}
  {now wall now' wall' : Int}

theorem after_concat (capacity : Int) (calls : List (Call α)) (c : Call α) :
    after B capacity (calls ++ [c]) = ((after B capacity calls).step c).1 := by
  unfold after
  rw [runState_append]
  rfl

theorem InTimeOrder.concat (ordered : InTimeOrder (calls ++ [c]) now wall) :
    InTimeOrder calls c.now c.wall ∧ c.now ≤ now ∧ c.wall ≤ wall := by
  obtain ⟨pairs, bound⟩ := ordered
  obtain ⟨before, -, last⟩ := List.pairwise_append.mp pairs
  refine ⟨⟨before, fun b hb => last b hb c List.mem_cons_self⟩, ?_⟩
  exact bound c (List.mem_append_right _ List.mem_cons_self)

theorem InTimeOrder.later (ordered : InTimeOrder calls now wall) (hnow : now ≤ now')
    (hwall : wall ≤ wall') : InTimeOrder calls now' wall' := by
  refine ⟨ordered.1, fun c hc => ?_⟩
  obtain ⟨le, le'⟩ := ordered.2 c hc
  exact ⟨Int.le_trans le hnow, Int.le_trans le' hwall⟩

theorem neverPut_concat : NeverPut (calls ++ [c]) key ↔ NeverPut calls key ∧ c.putKey ≠ some key := by
  unfold NeverPut
  simp only [List.forall_mem_append, List.forall_mem_singleton]

theorem since_concat {Q : List (Call α) → Prop} : Since (calls ++ [c]) key Q ↔
    Q (calls ++ [c]) ∨ c.putKey ≠ some key ∧ Since calls key Q := by
  constructor
  · rintro ⟨upTo, rest, split, quiet, hQ⟩
    rcases List.eq_nil_or_concat rest with rfl | ⟨rest, last, rfl⟩
    · rw [List.append_nil] at split
      exact .inl (split ▸ hQ)
    · rw [List.concat_eq_append, ← List.append_assoc] at split
      obtain ⟨rfl, same⟩ := List.append_inj' split rfl
      obtain rfl := List.singleton_inj.mp same
      rw [List.concat_eq_append] at quiet
      obtain ⟨quiet, other⟩ := neverPut_concat.mp quiet
      exact .inr ⟨other, upTo, rest, rfl, quiet, hQ⟩
  · rintro (hQ | ⟨other, upTo, rest, rfl, quiet, hQ⟩)
    · exact ⟨calls ++ [c], [], (List.append_nil _).symm, fun _ h => absurd h List.not_mem_nil, hQ⟩
    · refine ⟨upTo, rest ++ [c], List.append_assoc .., ?_, hQ⟩
      exact neverPut_concat.mpr ⟨quiet, other⟩

theorem lastPut_concat :
    LastPut (calls ++ [c]) p ↔ c = p.call ∨ c.putKey ≠ some p.key ∧ LastPut calls p := by
  unfold LastPut
  rw [since_concat]
  apply or_congr_left
  constructor
  · rintro ⟨before, split⟩
    exact List.singleton_inj.mp (List.append_inj' split rfl).2
  · rintro rfl
    exact ⟨calls, rfl⟩

theorem invalidated_concat : Invalidated (calls ++ [c]) p ↔
    c.Names p.queryName ∨ c.putKey ≠ some p.key ∧ Invalidated calls p := by
  unfold Invalidated
  rw [since_concat]
  apply or_congr_left
  constructor
  · rintro ⟨before, last, split, names⟩
    rwa [List.singleton_inj.mp (List.append_inj' split rfl).2]
  · intro names
    exact ⟨calls, c, rfl, names⟩

theorem Put.Expired.later (expired : p.Expired now wall) (hnow : now ≤ now')
    (hwall : wall ≤ wall') : p.Expired now' wall' := by
  rcases expired with own | library
  · exact .inl (passed_mono hnow own)
  · exact .inr (passed_mono hwall library)

/-! ### What every history keeps -/

def Session.Ranked (s : Session B) : Prop := s.cache.Ranked s.used

theorem Session.Ranked.step {s : Session B} (ranked : s.Ranked) (c : Call α) :
    (s.step c).1.Ranked := by
  obtain ⟨op, now, wall⟩ := c
  cases op with
  | get key => exact Cache.Ranked.get ranked
  | put key queryName value ttl => exact Cache.Ranked.put ranked ..
  | invalidateQueries names => exact Cache.Ranked.within ranked Cache.within_invalidateQueries
  | sweep ttl => exact Cache.Ranked.within ranked Cache.within_sweep

theorem ranked_opened (B : Backing α) (capacity : Int) : (opened B capacity).Ranked where
  orderSize := B.lru.size_new _ _
  bounded := by
    show (B.lru.contents (B.lru.new _ _)).keys.length ≤ _
    rw [B.lru.contents_new]
    exact Nat.zero_le _
  order := by
    show Recent.Ranked _ _ (B.lru.contents (B.lru.new _ _))
    rw [B.lru.contents_new]
    exact Recent.ranked_empty
  storeSize h := by cases h
  storeTtl h := by cases h
  filed h := by cases h
  stores h := by cases h

theorem ranked_after (B : Backing α) (capacity : Int) (calls : List (Call α)) :
    (after B capacity calls).Ranked :=
  (Along.trivial Session.step _ calls).inv (fun _ c ranked _ => ranked.step c)
    (ranked_opened B capacity)

theorem capacity_step (s : Session B) (c : Call α) :
    (s.step c).1.cache.capacity = s.cache.capacity := by
  obtain ⟨op, now, wall⟩ := c
  cases op with
  | get key => exact Cache.get_capacity ..
  | put key queryName value ttl => exact Cache.put_capacity ..
  | invalidateQueries names => exact Cache.within_invalidateQueries.capacity
  | sweep ttl => exact Cache.within_sweep.capacity

theorem capacity_after (B : Backing α) (capacity : Int) (calls : List (Call α)) :
    (after B capacity calls).cache.capacity =
      if capacity ≤ 0 then 1024 else capacity.toNat :=
  (Along.trivial Session.step _ calls).inv
    (I := fun s : Session B => s.cache.capacity = if capacity ≤ 0 then 1024 else capacity.toNat)
    (fun s c same _ => (capacity_step s c).trans same) rfl

/-! ### What is held was put last -/

/-- The entry is that of the last put of its key, in its time and not invalidated since. -/
def Vouched (calls : List (Call α)) (wall : Int) (key : String) (e : CacheEntry α) : Prop :=
  ∃ p : Put α, p.key = key ∧ LastPut calls p ∧ e = p.entry ∧ passed p.deadline wall = false ∧
    ¬ Invalidated calls p

theorem Vouched.concat {e : CacheEntry α} (vouched : Vouched calls wall key e)
    (quiet : c.putKey ≠ some key) (kept : ¬ c.Names e.queryName) :
    Vouched (calls ++ [c]) wall key e := by
  obtain ⟨p, rfl, last, rfl, alive, valid⟩ := vouched
  refine ⟨p, rfl, lastPut_concat.mpr (.inr ⟨quiet, last⟩), rfl, alive, ?_⟩
  intro invalid
  rcases invalidated_concat.mp invalid with names | ⟨-, before⟩
  · exact kept names
  · exact valid before

theorem Vouched.put (alive : passed p.deadline wall = false) :
    Vouched (calls ++ [p.call]) wall p.key p.entry := by
  refine ⟨p, rfl, lastPut_concat.mpr (.inl rfl), rfl, alive, ?_⟩
  intro invalid
  rcases invalidated_concat.mp invalid with ⟨names, isInvalidate, -⟩ | ⟨other, -⟩
  · cases isInvalidate
  · exact other rfl

/-- What a session holds after a call is the entry of that put, or was held before and is not
of a query the call invalidates. -/
theorem holds_step {s : Session B} (ranked : s.Ranked) (hwall : c.wall ≤ wall) {e : CacheEntry α}
    (h : (s.step c).1.cache.holds wall key = some e) :
    (∃ p : Put α, c = p.call ∧ p.key = key ∧ e = p.entry ∧ passed p.deadline wall = false) ∨
      c.putKey ≠ some key ∧ ¬ c.Names e.queryName ∧ s.cache.holds wall key = some e := by
  obtain ⟨op, now', wall'⟩ := c
  cases op with
  | get asked =>
      refine .inr ⟨(Option.some_ne_none key).symm, ?_, Cache.holds_of_get h⟩
      rintro ⟨names, isInvalidate, -⟩
      cases isInvalidate
  | put put queryName value ttl =>
      rcases Cache.holds_put_cases h with ⟨rfl, rfl⟩ | ⟨ne, old⟩
      · have keeps : (s.cache.put key queryName value ttl now' wall').Keeps _ _ _ :=
          Cache.Keeps.put_self ranked
        exact .inl ⟨⟨key, queryName, value, ttl, now', wall'⟩, rfl, rfl, rfl, keeps.alive h⟩
      · refine .inr ⟨fun same => ne (Option.some.inj same).symm, ?_, old⟩
        rintro ⟨names, isInvalidate, -⟩
        cases isInvalidate
  | invalidateQueries names =>
      obtain ⟨old, unnamed⟩ := Cache.holds_of_invalidateQueries hwall h
      refine .inr ⟨(Option.some_ne_none key).symm, ?_, old⟩
      rintro ⟨names', isInvalidate, named⟩
      cases isInvalidate
      exact unnamed named
  | sweep ttl =>
      refine .inr ⟨(Option.some_ne_none key).symm, ?_, Cache.holds_of_sweep h⟩
      rintro ⟨names, isInvalidate, -⟩
      cases isInvalidate

theorem vouched_after {e : CacheEntry α} (ordered : InTimeOrder calls now wall)
    (h : (after B capacity calls).cache.holds wall key = some e) : Vouched calls wall key e := by
  induction calls using List.reverseRecOn generalizing now with
  | nil =>
      have opened : (newCache B capacity).holds wall key = some e := h
      rw [Cache.not_holds_newCache] at opened
      cases opened
  | append_singleton calls c ih =>
      obtain ⟨before, hnow, hwall⟩ := ordered.concat
      rw [after_concat] at h
      rcases holds_step (ranked_after B capacity calls) hwall h with
        ⟨p, rfl, rfl, rfl, alive⟩ | ⟨quiet, unnamed, old⟩
      · exact Vouched.put alive
      · exact (ih (before.later (Int.le_refl _) hwall) old).concat quiet unnamed

/-! ### What was put last is kept -/

/-- The key was never put, or its last put is kept, or there is a reason why not. -/
def Explained (B : Backing α) (capacity : Int) (calls : List (Call α)) (now wall : Int)
    (key : String) : Prop :=
  NeverPut calls key ∨ ∃ p : Put α, p.key = key ∧ LastPut calls p ∧
    ((after B capacity calls).cache.Keeps key p.entry p.deadline ∨
      p.Expired now wall ∨ Invalidated calls p ∨ Evicted B capacity calls p)

/-- What a call on something else does to a kept entry. -/
theorem keeps_step {s : Session B} (ranked : s.Ranked)
    (keeps : s.cache.Keeps p.key p.entry p.deadline) (quiet : c.putKey ≠ some p.key) :
    (s.step c).1.cache.Keeps p.key p.entry p.deadline ∨ p.Expired c.now c.wall ∨
      c.Names p.queryName ∨
      (s.step c).1.cache.Crowded (s.step c).1.used (normalizeTTL p.ttl) p.key := by
  obtain ⟨op, now', wall'⟩ := c
  cases op with
  | get asked =>
      by_cases miss : p.key = asked ∧ (s.cache.get asked now' wall').2 = none
      · obtain ⟨rfl, miss⟩ := miss
        exact .inr (.inl (keeps.miss miss))
      · refine .inl (keeps.sameAt (Cache.get_sameAt ?_))
        exact not_and_or.mp miss
  | put put queryName value ttl =>
      have ne : p.key ≠ put := fun same => quiet (congrArg some same.symm)
      rcases Cache.Keeps.put ranked keeps ne with stays | crowded
      · exact .inl stays
      · exact .inr (.inr (.inr crowded))
  | invalidateQueries names =>
      rcases keeps.invalidateQueries with stays | named
      · exact .inl stays
      · exact .inr (.inr (.inl ⟨names, rfl, named⟩))
  | sweep ttl =>
      rcases keeps.sweep with stays | late
      · exact .inl stays
      · exact .inr (.inl (.inr late))

theorem exists_put_of_putKey (h : c.putKey = some key) : ∃ p : Put α, p.key = key ∧ c = p.call := by
  obtain ⟨op, now', wall'⟩ := c
  cases op with
  | put put queryName value ttl =>
      exact ⟨⟨put, queryName, value, ttl, now', wall'⟩, Option.some.inj h, rfl⟩
  | get _ => cases h
  | invalidateQueries _ => cases h
  | sweep _ => cases h

theorem explained_after (ordered : InTimeOrder calls now wall) (key : String) :
    Explained B capacity calls now wall key := by
  induction calls using List.reverseRecOn generalizing now wall with
  | nil => exact .inl fun _ h => absurd h List.not_mem_nil
  | append_singleton calls c ih =>
      obtain ⟨before, hnow, hwall⟩ := ordered.concat
      have ranked := ranked_after B capacity calls
      by_cases put : c.putKey = some key
      · obtain ⟨p, rfl, rfl⟩ := exists_put_of_putKey put
        refine .inr ⟨p, rfl, lastPut_concat.mpr (.inl rfl), .inl ?_⟩
        rw [after_concat]
        exact Cache.Keeps.put_self ranked
      rcases ih before with never | ⟨p, rfl, last, reason⟩
      · exact .inl (neverPut_concat.mpr ⟨never, put⟩)
      refine .inr ⟨p, rfl, lastPut_concat.mpr (.inr ⟨put, last⟩), ?_⟩
      rcases reason with keeps | expired | invalid | evicted
      · rw [after_concat]
        rcases keeps_step ranked keeps put with stays | expired | names | crowded
        · exact .inl stays
        · exact .inr (.inl (expired.later hnow hwall))
        · exact .inr (.inr (.inl (invalidated_concat.mpr (.inl names))))
        · rw [← after_concat] at crowded
          exact .inr (.inr (.inr (since_concat.mpr (.inl crowded))))
      · exact .inr (.inl (expired.later hnow hwall))
      · exact .inr (.inr (.inl (invalidated_concat.mpr (.inr ⟨put, invalid⟩))))
      · exact .inr (.inr (.inr (since_concat.mpr (.inr ⟨put, evicted⟩))))

/-! ### The cache refines the timed map -/

/-- The keys that hit are listed, and the order has a bound. -/
theorem hits_bounded (B : Backing α) (capacity : Int) (calls : List (Call α)) (now wall : Int)
    {keys : List String} (nodup : keys.Nodup)
    (hits : ∀ key ∈ keys, ((after B capacity calls).cache.get key now wall).2.isSome) :
    keys.length ≤ if capacity ≤ 0 then 1024 else capacity.toNat := by
  have listed : keys ⊆ (B.lru.contents (after B capacity calls).cache.order).keys := by
    intro key hkey
    obtain ⟨v, hit⟩ := Option.isSome_iff_exists.mp (hits key hkey)
    obtain ⟨e, held, -, -⟩ := Cache.get_hit hit
    obtain ⟨entry, -, hentry, -, -⟩ := Cache.holds_some.mp held
    exact AList.mem_keys.mp (Cache.mem_order_of_peek hentry)
  have bounded := (ranked_after B capacity calls).bounded
  rw [capacity_after] at bounded
  exact Nat.le_trans (List.subperm_of_subset nodup listed).length_le bounded

/-- **The query cache refines a timed map.** For calls in the order of their times, a lookup
that hits has the value of the last put of its key, which has not expired and was not
invalidated since; no more keys hit than there is room for; and a lookup that misses was
never put, or expired, or was invalidated, or made room for keys used later. -/
theorem cache_refines (B : Backing α) (capacity : Int) {calls : List (Call α)} {now wall : Int}
    (ordered : InTimeOrder calls now wall) : Refines B capacity calls now wall where
  hit := by
    intro key v hit
    obtain ⟨e, held, value, alive⟩ := Cache.get_hit hit
    obtain ⟨p, rfl, last, rfl, inTime, valid⟩ := vouched_after ordered held
    refine ⟨p, rfl, last, value, ?_, valid⟩
    rintro (own | library)
    · have alive : passed (expiryAt p.now p.ttl) now = false := alive
      rw [alive] at own
      cases own
    · rw [inTime] at library
      cases library
  bounded := fun _ => hits_bounded B capacity calls now wall
  miss := by
    intro key miss
    rcases explained_after ordered key with never | ⟨p, rfl, last, keeps | reason⟩
    · exact .inl never
    · exact .inr ⟨p, rfl, last, .inl (keeps.miss miss)⟩
    · exact .inr ⟨p, rfl, last, reason⟩

/-- Two places: `b` makes room for `d`, which is then invalidated. -/
def busyCalls : List (Call Nat) :=
  [⟨.put "a" "orders" 1 0, 0, 0⟩, ⟨.put "b" "orders" 2 (-1), 1, 1⟩, ⟨.get "a", 2, 2⟩,
    ⟨.put "d" "users" 3 10, 3, 3⟩, ⟨.invalidateQueries ["users"], 4, 4⟩]

theorem cache_refines_busy : Refines (Backing.reference Nat) 2 busyCalls 5 5 :=
  cache_refines (Backing.reference Nat) 2 (by decide)

example : ["a", "b", "d"].map (fun key =>
    ((after (Backing.reference Nat) 2 busyCalls).cache.get key 5 5).2) = [some 1, none, none] := by
  decide

end Lazuli.Runtime.CacheHistory
