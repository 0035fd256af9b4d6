import Lazuli.General.Recency
import Mathlib.Logic.Function.Basic

/-!
The query cache (`runtime/go/lazuli/cache.go`, `cache_store.go`, `cache_invalidate.go`,
`cache_ttl.go`).

A cache keeps its keys in one least recently used order and its entries in one expirable
store for each time to live; both are library maps, taken with the effects they document.
Every operation runs under one lock, hence in one step. Two clocks are read: `now` is the
time of the request, and `wall` is the time the library reads itself. Durations and times
are integer nanoseconds, and Go's zero time is `none`.

`Cache.holds` is the map a cache stands for: what `get` can answer. An operation is known
by what it does to `holds`.
-/

namespace Lazuli.Runtime

open Lazuli.General

structure CacheEntry (α : Type) where
  queryName : String
  value : α
  expiresAt : Option Int
  ttl : Int
  deriving DecidableEq

/-- The library maps a cache is built from. -/
structure Backing (α : Type) where
  lru : Lru String (CacheEntry α)
  expirable : Expirable String (CacheEntry α)

def Backing.reference (α : Type) : Backing α :=
  ⟨.reference String (CacheEntry α), .reference String (CacheEntry α)⟩

structure Cache {α : Type} (B : Backing α) where
  capacity : Nat
  capacity_pos : 0 < capacity
  order : B.lru.State
  stores : Int → Option B.expirable.State

def defaultCacheTTL : Int := 60 * 1000000000

/-- A negative time to live means for ever, which the library writes as zero. -/
def normalizeTTL (ttl : Int) : Int :=
  if ttl = 0 then defaultCacheTTL else if ttl < 0 then 0 else ttl

def expiryAt (now ttl : Int) : Option Int :=
  if ttl = 0 then some (now + defaultCacheTTL) else if ttl < 0 then none else some (now + ttl)

variable {α : Type} {B : Backing α}

def newCache (B : Backing α) (capacity : Int) : Cache B :=
  let size := if capacity ≤ 0 then 1024 else capacity.toNat
  have size_pos : 0 < size := by
    show 0 < if capacity ≤ 0 then 1024 else capacity.toNat
    split <;> omega
  { capacity := size
    capacity_pos := size_pos
    order := B.lru.new size size_pos
    stores := fun _ => none }

namespace Cache

def onStore (c : Cache B) (ttl : Int) (f : B.expirable.State → B.expirable.State) : Cache B :=
  { c with stores := Function.update c.stores ttl ((c.stores ttl).map f) }

/-- Makes the store of a time to live on first use. -/
def storeLocked (c : Cache B) (ttl : Int) : Cache B :=
  match c.stores ttl with
  | some _ => c
  | none =>
      let store := B.expirable.new c.capacity c.capacity_pos ttl
      { c with stores := Function.update c.stores ttl (some store) }

def removeKeyLocked (c : Cache B) (key : String) (ttl : Int) : Cache B :=
  onStore { c with order := B.lru.remove c.order key } ttl fun store =>
    B.expirable.remove store key

def get (c : Cache B) (key : String) (now wall : Int) : Cache B × Option α :=
  let used := B.lru.get c.order key
  let c := { c with order := used.1 }
  match used.2 with
  | none => (c, none)
  | some entry =>
      match c.stores entry.ttl with
      | none => ({ c with order := B.lru.remove c.order key }, none)
      | some store =>
          let found := (B.expirable.get wall store key).2
          let c := c.onStore entry.ttl fun store => (B.expirable.get wall store key).1
          match found with
          | none => ({ c with order := B.lru.remove c.order key }, none)
          | some entry =>
              if passed entry.expiresAt now then (c.removeKeyLocked key entry.ttl, none)
              else (c, some entry.value)

/-- A key that moves to another time to live leaves its old store. -/
def forgetOther (c : Cache B) (key : String) (ttl : Int) : Cache B :=
  match B.lru.peek c.order key with
  | some old => if old.ttl ≠ ttl then c.removeKeyLocked key old.ttl else c
  | none => c

/-- A new key takes the place of the oldest one when the cache is full. -/
def makeRoom (c : Cache B) (key : String) : Cache B :=
  match B.lru.peek c.order key with
  | some _ => c
  | none =>
      if c.capacity ≤ B.lru.len c.order then
        match B.lru.getOldest c.order with
        | some (oldKey, old) => c.removeKeyLocked oldKey old.ttl
        | none => c
      else c

/-- The end of `put`: the entry goes into the order and into the store of its time to
live. -/
def write (c : Cache B) (key : String) (entry : CacheEntry α) (wall : Int) : Cache B :=
  let c := { c with order := B.lru.add c.order key entry }
  (c.storeLocked entry.ttl).onStore entry.ttl fun store =>
    B.expirable.add wall store key entry

def put (c : Cache B) (key queryName : String) (value : α) (ttl now wall : Int) : Cache B :=
  let entry : CacheEntry α := ⟨queryName, value, expiryAt now ttl, normalizeTTL ttl⟩
  ((c.forgetOther key entry.ttl).makeRoom key).write key entry wall

/-- The body of the loop of `invalidateQueries`. -/
def invalidateKey (names : List String) (wall : Int) (acc : Cache B × Nat) (key : String) :
    Cache B × Nat :=
  match B.lru.peek acc.1.order key with
  | none => acc
  | some entry =>
      match acc.1.stores entry.ttl with
      | none => acc
      | some store =>
          match B.expirable.peek wall store key with
          | none => acc
          | some entry =>
              if entry.queryName ∈ names then
                (acc.1.removeKeyLocked key entry.ttl, acc.2 + 1)
              else acc

/-- The second result is the number of entries dropped. -/
def invalidateQueries (c : Cache B) (names : List String) (wall : Int) : Cache B × Nat :=
  if names = [] then (c, 0)
  else (B.lru.keys c.order).foldl (invalidateKey names wall) (c, 0)

/-- The library's cleaner at work on the store of one time to live. -/
def sweep (c : Cache B) (ttl wall : Int) : Cache B :=
  c.onStore ttl (B.expirable.sweep wall)

section Fields

variable (c : Cache B) (ttl : Int) (f : B.expirable.State → B.expirable.State)

@[simp] theorem onStore_order : (c.onStore ttl f).order = c.order := rfl

@[simp] theorem onStore_stores_self : (c.onStore ttl f).stores ttl = (c.stores ttl).map f :=
  Function.update_self ttl _ _

theorem onStore_stores_of_ne {t : Int} (h : t ≠ ttl) : (c.onStore ttl f).stores t = c.stores t :=
  Function.update_of_ne h _ _

@[simp] theorem storeLocked_order : (c.storeLocked ttl).order = c.order := by
  unfold storeLocked
  split <;> rfl

@[simp] theorem storeLocked_stores_self : (c.storeLocked ttl).stores ttl =
    some ((c.stores ttl).getD (B.expirable.new c.capacity c.capacity_pos ttl)) := by
  unfold storeLocked
  cases h : c.stores ttl with
  | some store => exact h
  | none => exact Function.update_self ttl _ _

theorem storeLocked_stores_of_ne {t : Int} (h : t ≠ ttl) :
    (c.storeLocked ttl).stores t = c.stores t := by
  unfold storeLocked
  split
  · rfl
  · exact Function.update_of_ne h _ _

variable (key : String) (entry : CacheEntry α) (wall : Int)

@[simp] theorem write_order :
    (c.write key entry wall).order = B.lru.add c.order key entry := by
  simp [write]

@[simp] theorem write_stores_self : (c.write key entry wall).stores entry.ttl =
    some (B.expirable.add wall ((c.stores entry.ttl).getD
      (B.expirable.new c.capacity c.capacity_pos entry.ttl)) key entry) := by
  simp [write]

theorem write_stores_of_ne {t : Int} (h : t ≠ entry.ttl) :
    (c.write key entry wall).stores t = c.stores t := by
  unfold write
  rw [onStore_stores_of_ne _ _ _ h, storeLocked_stores_of_ne _ _ h]

end Fields

/-! ### The map a cache stands for -/

/-- The entry of a key that is in the order and alive in its store. -/
def holds (c : Cache B) (wall : Int) (key : String) : Option (CacheEntry α) :=
  (B.lru.peek c.order key).bind fun entry =>
    (c.stores entry.ttl).bind fun store => B.expirable.peek wall store key

variable {c : Cache B} {key k queryName : String} {e : CacheEntry α} {value : α}
  {names : List String} {ttl now wall wall' : Int}

theorem holds_some : c.holds wall key = some e ↔ ∃ entry store,
    B.lru.peek c.order key = some entry ∧ c.stores entry.ttl = some store ∧
      B.expirable.peek wall store key = some e := by
  simp only [holds, Option.bind_eq_some_iff]
  constructor
  · rintro ⟨entry, hentry, store, hstore, he⟩
    exact ⟨entry, store, hentry, hstore, he⟩
  · rintro ⟨entry, store, hentry, hstore, he⟩
    exact ⟨entry, hentry, store, hstore, he⟩

/-- As time goes by a cache can only hold less. -/
theorem holds_mono (le : wall ≤ wall') (h : c.holds wall' k = some e) :
    c.holds wall k = some e := by
  obtain ⟨entry, store, hentry, hstore, he⟩ := holds_some.mp h
  exact holds_some.mpr ⟨entry, store, hentry, hstore, Expirable.peek_mono le he⟩

theorem not_holds_newCache (capacity : Int) : (newCache B capacity).holds wall k = none := by
  unfold holds newCache
  rw [Lru.peek_new]
  rfl

/-- A change of one store that answers no more than before. -/
theorem holds_of_onStore {f : B.expirable.State → B.expirable.State}
    (less : ∀ store, B.expirable.peek wall (f store) k = some e →
      B.expirable.peek wall store k = some e)
    (h : (c.onStore ttl f).holds wall k = some e) : c.holds wall k = some e := by
  obtain ⟨entry, store, hentry, hstore, he⟩ := holds_some.mp h
  by_cases httl : entry.ttl = ttl
  · subst httl
    rw [onStore_stores_self] at hstore
    obtain ⟨before, hbefore, rfl⟩ := Option.map_eq_some_iff.mp hstore
    exact holds_some.mpr ⟨entry, before, hentry, hbefore, less before he⟩
  · rw [onStore_stores_of_ne _ _ _ httl] at hstore
    exact holds_some.mpr ⟨entry, store, hentry, hstore, he⟩

theorem holds_of_sweep (h : (c.sweep ttl wall').holds wall k = some e) :
    c.holds wall k = some e :=
  holds_of_onStore (fun _ => Expirable.peek_sweep) h

/-- A key that leaves the order is gone, and no other key comes to light. -/
theorem holds_of_remove
    (h : ({ c with order := B.lru.remove c.order key } : Cache B).holds wall k = some e) :
    k ≠ key ∧ c.holds wall k = some e := by
  obtain ⟨entry, store, hentry, hstore, he⟩ := holds_some.mp h
  by_cases hk : k = key
  · subst hk
    rw [Lru.peek_remove_self] at hentry
    cases hentry
  · rw [Lru.peek_remove_of_ne _ hk] at hentry
    exact ⟨hk, holds_some.mpr ⟨entry, store, hentry, hstore, he⟩⟩

theorem holds_of_removeKeyLocked (h : (c.removeKeyLocked key ttl).holds wall k = some e) :
    k ≠ key ∧ c.holds wall k = some e := by
  apply holds_of_remove
  apply holds_of_onStore _ h
  intro store he
  by_cases hk : k = key
  · subst hk
    rw [Expirable.peek_remove_self] at he
    cases he
  · rwa [Expirable.peek_remove_of_ne _ _ hk] at he

/-! ### Reading -/

theorem holds_of_use (h : ({ c with order := (B.lru.get c.order key).1 } : Cache B).holds wall k =
    some e) : c.holds wall k = some e := by
  obtain ⟨entry, store, hentry, hstore, he⟩ := holds_some.mp h
  rw [Lru.peek_get] at hentry
  exact holds_some.mpr ⟨entry, store, hentry, hstore, he⟩

/-- A lookup drops entries, and adds none. -/
theorem holds_of_get (h : (c.get key now wall).1.holds wall' k = some e) :
    c.holds wall' k = some e := by
  have look {store : B.expirable.State} {entry : CacheEntry α}
      (he : B.expirable.peek wall' (B.expirable.get wall store key).1 k = some entry) :
      B.expirable.peek wall' store k = some entry := by
    rwa [Expirable.peek_get] at he
  unfold get at h
  dsimp only at h
  split at h
  · exact holds_of_use h
  · split at h
    · exact holds_of_use (holds_of_remove h).2
    · split at h
      · exact holds_of_use (holds_of_onStore (fun _ => look) (holds_of_remove h).2)
      · split at h
        · exact holds_of_use (holds_of_onStore (fun _ => look) (holds_of_removeKeyLocked h).2)
        · exact holds_of_use (holds_of_onStore (fun _ => look) h)

/-- A hit is an entry the cache holds and whose own time has not come. -/
theorem get_hit (h : (c.get key now wall).2 = some value) :
    ∃ e, c.holds wall key = some e ∧ e.value = value ∧ passed e.expiresAt now = false := by
  unfold get at h
  dsimp only at h
  split at h
  · cases h
  next entry hentry =>
    rw [Lru.get_eq_peek] at hentry
    split at h
    · cases h
    next store hstore =>
      split at h
      · cases h
      next found hfound =>
        rw [B.expirable.get_eq] at hfound
        split at h
        · cases h
        next alive =>
          refine ⟨found, holds_some.mpr ⟨entry, store, hentry, hstore, hfound⟩, ?_, ?_⟩
          · exact Option.some.inj h
          · exact Bool.eq_false_iff.mpr alive

/-- What the cache holds and whose own time has not come is a hit. -/
theorem get_of_holds (h : c.holds wall key = some e) (alive : passed e.expiresAt now = false) :
    (c.get key now wall).2 = some e.value := by
  obtain ⟨entry, store, hentry, hstore, he⟩ := holds_some.mp h
  unfold get
  simp only [Lru.get_eq_peek, hentry, hstore, B.expirable.get_eq, he, alive]
  rfl

/-! ### Writing -/

theorem holds_of_forgetOther (h : (c.forgetOther key ttl).holds wall k = some e) :
    c.holds wall k = some e := by
  unfold forgetOther at h
  split at h
  · split at h
    · exact (holds_of_removeKeyLocked h).2
    · exact h
  · exact h

theorem holds_of_makeRoom (h : (c.makeRoom key).holds wall k = some e) :
    c.holds wall k = some e := by
  unfold makeRoom at h
  split at h
  · exact h
  · split at h
    · split at h
      · exact (holds_of_removeKeyLocked h).2
      · exact h
    · exact h

/-- What the store of an entry's time to live answers after the write. -/
theorem peek_write_store {entry : CacheEntry α} {store : B.expirable.State}
    (hstore : (c.write key entry wall).stores entry.ttl = some store)
    (he : B.expirable.peek wall' store k = some e) :
    k = key ∧ e = entry ∨ k ≠ key ∧ ∃ before, c.stores entry.ttl = some before ∧
      B.expirable.peek wall' before k = some e := by
  rw [write_stores_self] at hstore
  obtain rfl := Option.some.inj hstore
  rcases Expirable.peek_add_cases he with new | ⟨hk, old⟩
  · exact .inl new
  · refine .inr ⟨hk, ?_⟩
    cases hbefore : c.stores entry.ttl with
    | some before =>
        rw [hbefore] at old
        exact ⟨before, rfl, old⟩
    | none =>
        rw [hbefore, Option.getD_none, Expirable.peek_new] at old
        cases old

/-- After a write, a key has the new entry, or it is another key and has what it had. -/
theorem holds_write_cases {entry : CacheEntry α}
    (h : (c.write key entry wall).holds wall' k = some e) :
    k = key ∧ e = entry ∨ k ≠ key ∧ c.holds wall' k = some e := by
  obtain ⟨found, store, hfound, hstore, he⟩ := holds_some.mp h
  rw [write_order] at hfound
  rcases Lru.peek_add_cases hfound with ⟨rfl, rfl⟩ | ⟨hk, hold⟩
  · rcases peek_write_store hstore he with new | ⟨hne, -⟩
    · exact .inl new
    · exact absurd rfl hne
  · refine .inr ⟨hk, ?_⟩
    by_cases httl : found.ttl = entry.ttl
    · rw [httl] at hstore
      rcases peek_write_store hstore he with ⟨heq, -⟩ | ⟨-, before, hbefore, hpeek⟩
      · exact absurd heq hk
      · exact holds_some.mpr ⟨found, before, hold, httl ▸ hbefore, hpeek⟩
    · rw [write_stores_of_ne _ _ _ _ httl] at hstore
      exact holds_some.mpr ⟨found, store, hold, hstore, he⟩

/-- A written entry is held. -/
theorem holds_write_self (entry : CacheEntry α) :
    (c.write key entry wall).holds wall key = some entry := by
  apply holds_some.mpr
  refine ⟨entry, _, ?_, write_stores_self .., Expirable.peek_add_self ..⟩
  rw [write_order, Lru.peek_add_self]

/-- After a put, a key has the new entry, or it is another key and has what it had. -/
theorem holds_put_cases (h : (c.put key queryName value ttl now wall).holds wall' k = some e) :
    k = key ∧ e = ⟨queryName, value, expiryAt now ttl, normalizeTTL ttl⟩ ∨
      k ≠ key ∧ c.holds wall' k = some e := by
  rcases holds_write_cases h with new | ⟨hk, old⟩
  · exact .inl new
  · exact .inr ⟨hk, holds_of_forgetOther (holds_of_makeRoom old)⟩

theorem holds_put_self : (c.put key queryName value ttl now wall).holds wall key =
    some ⟨queryName, value, expiryAt now ttl, normalizeTTL ttl⟩ :=
  holds_write_self _

theorem not_passed_expiryAt (now ttl : Int) : passed (expiryAt now ttl) now = false := by
  unfold expiryAt defaultCacheTTL
  split
  · exact decide_eq_false (by omega)
  · split
    · rfl
    · exact decide_eq_false (by omega)

/-- A lookup right after a put, with the time of the put, hits. -/
theorem get_put_self : ((c.put key queryName value ttl now wall).get key now wall).2 =
    some value :=
  get_of_holds holds_put_self (not_passed_expiryAt now ttl)

/-! ### Invalidation -/

theorem holds_of_invalidateKey {acc : Cache B × Nat} (le : wall ≤ wall')
    (h : (invalidateKey names wall acc key).1.holds wall' k = some e) :
    acc.1.holds wall' k = some e ∧ (k = key → e.queryName ∉ names) := by
  unfold invalidateKey at h
  have absent (hnone : acc.1.holds wall key = none) (hk : k = key)
      (hheld : acc.1.holds wall' k = some e) : e.queryName ∉ names := by
    rw [hk] at hheld
    rw [holds_mono le hheld] at hnone
    cases hnone
  split at h
  next hentry => exact ⟨h, fun hk => absent (by simp [holds, hentry]) hk h⟩
  next entry hentry =>
    split at h
    next hstore => exact ⟨h, fun hk => absent (by simp [holds, hentry, hstore]) hk h⟩
    next store hstore =>
      split at h
      next hfound => exact ⟨h, fun hk => absent (by simp [holds, hentry, hstore, hfound]) hk h⟩
      next found hfound =>
        split at h
        · obtain ⟨hk, hheld⟩ := holds_of_removeKeyLocked h
          exact ⟨hheld, fun heq => absurd heq hk⟩
        next hname =>
          refine ⟨h, ?_⟩
          rintro rfl
          have hnow := holds_mono le h
          rw [holds_some.mpr ⟨entry, store, hentry, hstore, hfound⟩] at hnow
          obtain rfl := Option.some.inj hnow
          exact hname

theorem holds_of_foldl_invalidateKey {keys : List String} {acc : Cache B × Nat}
    (le : wall ≤ wall') (h : (keys.foldl (invalidateKey names wall) acc).1.holds wall' k = some e) :
    acc.1.holds wall' k = some e ∧ (k ∈ keys → e.queryName ∉ names) := by
  induction keys generalizing acc with
  | nil => exact ⟨h, fun hk => absurd hk List.not_mem_nil⟩
  | cons key keys ih =>
      obtain ⟨hafter, hrest⟩ := ih h
      obtain ⟨hbefore, hkey⟩ := holds_of_invalidateKey le hafter
      refine ⟨hbefore, ?_⟩
      intro hk
      cases hk with
      | head => exact hkey rfl
      | tail _ hk => exact hrest hk

/-- What an invalidation leaves was there before, and belongs to no query it names. -/
theorem holds_of_invalidateQueries (le : wall ≤ wall')
    (h : (c.invalidateQueries names wall).1.holds wall' k = some e) :
    c.holds wall' k = some e ∧ e.queryName ∉ names := by
  unfold invalidateQueries at h
  split at h
  next hnames =>
    rw [hnames]
    exact ⟨h, List.not_mem_nil⟩
  · obtain ⟨hbefore, hkeys⟩ := holds_of_foldl_invalidateKey le h
    obtain ⟨entry, -, hentry, -⟩ := holds_some.mp hbefore
    exact ⟨hbefore, hkeys (Lru.mem_keys_of_peek hentry)⟩

end Cache

end Lazuli.Runtime
