import Lazuli.General.Recency
import Lazuli.Runtime.Cache

/-!
What a cache keeps, and in which order.

A key counts in the store of a time to live when the order lists it under that time to live.
`Cache.Ranked` says that the order, and each store in front of the keys that count there, is
sorted by last use; a use is a put, or a get that hits. Whatever else sits in a store is a
rest that the order has forgotten, and the cleaner or the bound of the store takes it away.

`Cache.Keeps` is an entry that is in both places. An operation on another key leaves it
there, unless room is needed: then the order, or the store, is full of keys used later.
-/

namespace Lazuli.Runtime

open Lazuli.General

variable {α : Type} {B : Backing α}

namespace Cache

/-- What the store of a time to live has under a key, expired or not. -/
def stored (c : Cache B) (ttl : Int) (key : String) : Option (Deadlined (CacheEntry α)) :=
  (c.stores ttl).bind fun store => (B.expirable.contents store).lookup key

/-- The key is listed under this time to live. -/
def Current (c : Cache B) (ttl : Int) (key : String) : Prop :=
  ∃ entry, B.lru.peek c.order key = some entry ∧ entry.ttl = ttl

structure Ranked (c : Cache B) (used : List String) : Prop where
  orderSize : B.lru.size c.order = c.capacity
  bounded : (B.lru.contents c.order).keys.length ≤ c.capacity
  order : (B.lru.contents c.order).Ranked used fun _ => True
  storeSize : ∀ {ttl store}, c.stores ttl = some store → B.expirable.size store = c.capacity
  storeTtl : ∀ {ttl store}, c.stores ttl = some store → B.expirable.ttl store = ttl
  filed : ∀ {ttl key d}, c.stored ttl key = some d → d.value.ttl = ttl
  stores : ∀ {ttl store}, c.stores ttl = some store →
    (B.expirable.contents store).Ranked used (c.Current ttl)

/-- The order and the store of its time to live both have the entry. -/
structure Keeps (c : Cache B) (key : String) (entry : CacheEntry α) (deadline : Option Int) :
    Prop where
  listed : B.lru.peek c.order key = some entry
  present : c.stored entry.ttl key = some ⟨entry, deadline⟩

/-- The order, or the store of this time to live, is full of keys used after `key`. -/
def Crowded (c : Cache B) (used : List String) (ttl : Int) (key : String) : Prop :=
  Crowds c.capacity used (B.lru.contents c.order).keys key ∨
    ∃ store, c.stores ttl = some store ∧
      Crowds c.capacity used (B.expirable.contents store).keys key

variable {c c' c'' : Cache B} {key k : String} {e entry : CacheEntry α} {deadline : Option Int}
  {used names : List String} {ttl now wall : Int}

/-! ### Fewer entries -/

/-- `c'` has nothing that `c` has not, in the same order. -/
structure Within (c' c : Cache B) : Prop where
  capacity : c'.capacity = c.capacity
  orderSize : B.lru.size c'.order = B.lru.size c.order
  order : (B.lru.contents c'.order).entries.Sublist (B.lru.contents c.order).entries
  stores : ∀ {ttl store'}, c'.stores ttl = some store' → ∃ store, c.stores ttl = some store ∧
    B.expirable.size store' = B.expirable.size store ∧
    B.expirable.ttl store' = B.expirable.ttl store ∧
    (B.expirable.contents store').entries.Sublist (B.expirable.contents store).entries

theorem Within.refl (c : Cache B) : Within c c :=
  ⟨rfl, rfl, .refl _, fun h => ⟨_, h, rfl, rfl, .refl _⟩⟩

theorem Within.trans (second : Within c'' c') (first : Within c' c) : Within c'' c where
  capacity := second.capacity.trans first.capacity
  orderSize := second.orderSize.trans first.orderSize
  order := second.order.trans first.order
  stores h := by
    obtain ⟨store', h', size', ttl', sub'⟩ := second.stores h
    obtain ⟨store, h, size, ttl, sub⟩ := first.stores h'
    exact ⟨store, h, size'.trans size, ttl'.trans ttl, sub'.trans sub⟩

theorem Within.current (within : Within c' c) (h : c'.Current ttl k) : c.Current ttl k := by
  obtain ⟨entry, listed, same⟩ := h
  refine ⟨entry, ?_, same⟩
  rw [B.lru.peek_eq] at listed ⊢
  exact Recent.lookup_of_sublist within.order listed

theorem Within.stored {d : Deadlined (CacheEntry α)} (within : Within c' c)
    (h : c'.stored ttl k = some d) : c.stored ttl k = some d := by
  obtain ⟨store', hstore', found⟩ := Option.bind_eq_some_iff.mp h
  obtain ⟨store, hstore, -, -, sub⟩ := within.stores hstore'
  exact Option.bind_eq_some_iff.mpr ⟨store, hstore, Recent.lookup_of_sublist sub found⟩

theorem Ranked.within (ranked : c.Ranked used) (within : Within c' c) : c'.Ranked used where
  orderSize := by rw [within.orderSize, ranked.orderSize, within.capacity]
  bounded := by
    have le := within.order.length_le
    rw [← Recent.length_keys, ← Recent.length_keys] at le
    rw [within.capacity]
    exact Nat.le_trans le ranked.bounded
  order := ranked.order.sublist (within.order.map Sigma.fst)
  storeSize h := by
    obtain ⟨store, h, size, -, -⟩ := within.stores h
    rw [size, ranked.storeSize h, within.capacity]
  storeTtl h := by
    obtain ⟨store, h, -, ttl, -⟩ := within.stores h
    rw [ttl, ranked.storeTtl h]
  filed h := ranked.filed (within.stored h)
  stores h := by
    obtain ⟨store, h, -, -, sub⟩ := within.stores h
    exact ((ranked.stores h).sublist (sub.map Sigma.fst)).fewer fun _ => within.current

/-- A change of one store that takes entries away. -/
theorem within_onStore {f : B.expirable.State → B.expirable.State}
    (size : ∀ store, B.expirable.size (f store) = B.expirable.size store)
    (same : ∀ store, B.expirable.ttl (f store) = B.expirable.ttl store)
    (sub : ∀ store, c.stores ttl = some store →
      (B.expirable.contents (f store)).entries.Sublist (B.expirable.contents store).entries) :
    Within (c.onStore ttl f) c where
  capacity := rfl
  orderSize := rfl
  order := .refl _
  stores := by
    intro t store' h
    by_cases ht : t = ttl
    · subst ht
      rw [onStore_stores_self] at h
      obtain ⟨store, before, rfl⟩ := Option.map_eq_some_iff.mp h
      exact ⟨store, before, size store, same store, sub store before⟩
    · rw [onStore_stores_of_ne _ _ _ ht] at h
      exact ⟨store', h, rfl, rfl, .refl _⟩

/-- The key leaves the order. -/
abbrev unlist (c : Cache B) (key : String) : Cache B :=
  { c with order := B.lru.remove c.order key }

theorem within_unlist : Within (c.unlist key) c where
  capacity := rfl
  orderSize := B.lru.size_remove _ _
  order := by
    show (B.lru.contents (B.lru.remove c.order key)).entries.Sublist _
    rw [B.lru.contents_remove]
    exact Recent.erase_sublist _ key
  stores h := ⟨_, h, rfl, rfl, .refl _⟩

theorem within_removeStore :
    Within (c.onStore ttl fun store => B.expirable.remove store key) c := by
  apply within_onStore
  · exact fun store => B.expirable.size_remove store key
  · exact fun store => B.expirable.ttl_remove store key
  · intro store _
    rw [B.expirable.contents_remove]
    exact Recent.erase_sublist _ key

theorem within_removeKeyLocked : Within (c.removeKeyLocked key ttl) c :=
  within_removeStore.trans within_unlist

theorem within_sweep : Within (c.sweep ttl wall) c :=
  within_onStore (fun _ => B.expirable.size_sweep _ _) (fun _ => B.expirable.ttl_sweep _ _)
    fun _ _ => B.expirable.sweep_sublist _ _

/-! ### The same entry -/

/-- Nothing has happened to `k`. -/
structure SameAt (k : String) (c' c : Cache B) : Prop where
  order : B.lru.peek c'.order k = B.lru.peek c.order k
  stored : ∀ ttl, c'.stored ttl k = c.stored ttl k

theorem SameAt.refl (k : String) (c : Cache B) : SameAt k c c := ⟨rfl, fun _ => rfl⟩

theorem SameAt.trans (second : SameAt k c'' c') (first : SameAt k c' c) : SameAt k c'' c :=
  ⟨second.order.trans first.order, fun ttl => (second.stored ttl).trans (first.stored ttl)⟩

theorem Keeps.sameAt (keeps : c.Keeps k e deadline) (same : SameAt k c' c) :
    c'.Keeps k e deadline :=
  ⟨same.order.trans keeps.listed, (same.stored e.ttl).trans keeps.present⟩

theorem sameAt_onStore {f : B.expirable.State → B.expirable.State}
    (same : ∀ store, (B.expirable.contents (f store)).lookup k =
      (B.expirable.contents store).lookup k) : SameAt k (c.onStore ttl f) c where
  order := rfl
  stored := by
    intro t
    unfold stored
    by_cases ht : t = ttl
    · subst ht
      rw [onStore_stores_self, Option.bind_map]
      exact congrArg _ (funext same)
    · rw [onStore_stores_of_ne _ _ _ ht]

/-- The key is marked as used in the order. -/
abbrev listedUse (c : Cache B) (key : String) : Cache B :=
  { c with order := (B.lru.get c.order key).1 }

/-- The key is marked as used in its store. -/
abbrev storedUse (c : Cache B) (key : String) (ttl wall : Int) : Cache B :=
  c.onStore ttl fun store => (B.expirable.get wall store key).1

theorem sameAt_use : SameAt k (c.listedUse key) c :=
  ⟨Lru.peek_get _ _ _, fun _ => rfl⟩

theorem sameAt_unlist (hk : k ≠ key) : SameAt k (c.unlist key) c :=
  ⟨Lru.peek_remove_of_ne _ hk, fun _ => rfl⟩

theorem sameAt_removeKeyLocked (hk : k ≠ key) : SameAt k (c.removeKeyLocked key ttl) c := by
  refine SameAt.trans (sameAt_onStore ?_) (sameAt_unlist hk)
  intro store
  rw [B.expirable.contents_remove, AList.lookup_erase_ne hk]

theorem sameAt_look : SameAt k (c.storedUse key ttl wall) c := by
  apply sameAt_onStore
  intro store
  rw [B.expirable.contents_get]
  split
  · rw [Recent.lookup_touch]
  · rfl

/-! ### Reading -/

/-- An entry that is kept and has not expired is held. -/
theorem Keeps.holds (keeps : c.Keeps k e deadline) (alive : passed deadline wall = false) :
    c.holds wall k = some e := by
  obtain ⟨store, hstore, found⟩ := Option.bind_eq_some_iff.mp keeps.present
  refine holds_some.mpr ⟨e, store, keeps.listed, hstore, ?_⟩
  rw [B.expirable.peek_eq, found, Option.bind_some, Deadlined.alive, alive]
  rfl

/-- What is held of a kept entry is that entry, before its deadline. -/
theorem Keeps.alive (keeps : c.Keeps k e deadline) (h : c.holds wall k = some entry) :
    passed deadline wall = false := by
  obtain ⟨listed, store, hlisted, hstore, found⟩ := holds_some.mp h
  obtain rfl := Option.some.inj (keeps.listed.symm.trans hlisted)
  obtain ⟨store', hstore', present⟩ := Option.bind_eq_some_iff.mp keeps.present
  obtain rfl := Option.some.inj (hstore.symm.trans hstore')
  rw [B.expirable.peek_eq, present, Option.bind_some, Deadlined.alive] at found
  split at found
  · cases found
  next alive => exact Bool.eq_false_iff.mpr alive

/-- A kept entry is only missed when one of the clocks has passed its time. -/
theorem Keeps.miss (keeps : c.Keeps key e deadline) (miss : (c.get key now wall).2 = none) :
    passed e.expiresAt now = true ∨ passed deadline wall = true := by
  by_contra alive
  obtain ⟨own, library⟩ := not_or.mp alive
  have hit := get_of_holds (keeps.holds (Bool.eq_false_iff.mpr library))
    (Bool.eq_false_iff.mpr own)
  rw [miss] at hit
  cases hit

/-- The ways of a lookup. -/
inductive Lookup (c : Cache B) (key : String) (now wall : Int) : Cache B × Option α → Prop where
  | unlisted : B.lru.peek c.order key = none → Lookup c key now wall (c.listedUse key, none)
  | noStore {entry : CacheEntry α} : B.lru.peek c.order key = some entry →
      c.stores entry.ttl = none →
      Lookup c key now wall ((c.listedUse key).unlist key, none)
  | absent {entry : CacheEntry α} {store : B.expirable.State} :
      B.lru.peek c.order key = some entry → c.stores entry.ttl = some store →
      B.expirable.peek wall store key = none →
      Lookup c key now wall (((c.listedUse key).storedUse key entry.ttl wall).unlist key, none)
  | late {entry found : CacheEntry α} {store : B.expirable.State} :
      B.lru.peek c.order key = some entry → c.stores entry.ttl = some store →
      B.expirable.peek wall store key = some found → passed found.expiresAt now = true →
      Lookup c key now wall
        (((c.listedUse key).storedUse key entry.ttl wall).removeKeyLocked key found.ttl, none)
  | hit {entry found : CacheEntry α} {store : B.expirable.State} :
      B.lru.peek c.order key = some entry → c.stores entry.ttl = some store →
      B.expirable.peek wall store key = some found → passed found.expiresAt now = false →
      Lookup c key now wall
        ((c.listedUse key).storedUse key entry.ttl wall, some found.value)

theorem get_lookup (c : Cache B) (key : String) (now wall : Int) :
    Lookup c key now wall (c.get key now wall) := by
  unfold get
  dsimp only
  split
  next hentry =>
    rw [Lru.get_eq_peek] at hentry
    exact .unlisted hentry
  next entry hentry =>
    rw [Lru.get_eq_peek] at hentry
    split
    next hstore => exact .noStore hentry hstore
    next store hstore =>
      rw [B.expirable.get_eq]
      split
      next hfound => exact .absent hentry hstore hfound
      next found hfound =>
        split
        next late => exact .late hentry hstore hfound late
        next alive => exact .hit hentry hstore hfound (Bool.eq_false_iff.mpr alive)

theorem get_capacity (c : Cache B) (key : String) (now wall : Int) :
    (c.get key now wall).1.capacity = c.capacity := by
  have look := c.get_lookup key now wall
  generalize c.get key now wall = got at look ⊢
  cases look <;> rfl

theorem get_sameAt (h : k ≠ key ∨ (c.get key now wall).2 ≠ none) :
    SameAt k (c.get key now wall).1 c := by
  have look := c.get_lookup key now wall
  generalize c.get key now wall = got at look h ⊢
  cases look with
  | unlisted _ => exact sameAt_use
  | noStore _ _ =>
      have hk : k ≠ key := h.resolve_right (absurd rfl)
      exact (sameAt_unlist hk).trans sameAt_use
  | absent _ _ _ =>
      have hk : k ≠ key := h.resolve_right (absurd rfl)
      exact ((sameAt_unlist hk).trans sameAt_look).trans sameAt_use
  | late _ _ _ _ =>
      have hk : k ≠ key := h.resolve_right (absurd rfl)
      exact ((sameAt_removeKeyLocked hk).trans sameAt_look).trans sameAt_use
  | hit _ _ _ _ => exact sameAt_look.trans sameAt_use

theorem within_use_unlist : Within ((c.listedUse key).unlist key) c where
  capacity := rfl
  orderSize := (B.lru.size_remove _ _).trans (B.lru.size_get _ _)
  order := by
    show (B.lru.contents (B.lru.remove (B.lru.get c.order key).1 key)).entries.Sublist _
    rw [B.lru.contents_remove, B.lru.contents_get]
    exact Recent.erase_touch_sublist _ key
  stores h := ⟨_, h, rfl, rfl, .refl _⟩

theorem within_use (unlisted : B.lru.peek c.order key = none) : Within (c.listedUse key) c where
  capacity := rfl
  orderSize := B.lru.size_get _ _
  order := by
    show (B.lru.contents (B.lru.get c.order key).1).entries.Sublist _
    rw [B.lru.peek_eq] at unlisted
    rw [B.lru.contents_get, Recent.touch, unlisted]
  stores h := ⟨_, h, rfl, rfl, .refl _⟩

theorem within_look (absent : ∀ store, c.stores ttl = some store →
    B.expirable.peek wall store key = none) : Within (c.storedUse key ttl wall) c := by
  apply within_onStore
  · exact fun store => B.expirable.size_get wall store key
  · exact fun store => B.expirable.ttl_get wall store key
  · intro store hstore
    rw [B.expirable.contents_get, absent store hstore]
    exact .refl _

theorem onStore_onStore (c : Cache B) (ttl : Int) (f g : B.expirable.State → B.expirable.State) :
    (c.onStore ttl f).onStore ttl g = c.onStore ttl fun store => g (f store) := by
  unfold onStore
  dsimp only
  rw [Function.update_self, Function.update_idem, Option.map_map]
  rfl

theorem within_look_remove :
    Within ((c.storedUse key ttl wall).onStore ttl fun store => B.expirable.remove store key) c := by
  rw [onStore_onStore]
  apply within_onStore
  · exact fun store => (B.expirable.size_remove _ _).trans (B.expirable.size_get _ _ _)
  · exact fun store => (B.expirable.ttl_remove _ _).trans (B.expirable.ttl_get _ _ _)
  · intro store _
    rw [B.expirable.contents_remove, B.expirable.contents_get]
    split
    · exact Recent.erase_touch_sublist _ key
    · exact Recent.erase_sublist _ key

/-- What a store answers is filed under its time to live. -/
theorem Ranked.answered_ttl (ranked : c.Ranked used) {store : B.expirable.State}
    (hstore : c.stores ttl = some store) (h : B.expirable.peek wall store k = some e) :
    e.ttl = ttl := by
  rw [B.expirable.peek_eq] at h
  obtain ⟨d, present, living⟩ := Option.bind_eq_some_iff.mp h
  have filed := ranked.filed (Option.bind_eq_some_iff.mpr ⟨store, hstore, present⟩)
  unfold Deadlined.alive at living
  split at living
  · cases living
  · rw [← Option.some.inj living]
    exact filed

theorem within_get (ranked : c.Ranked used) (miss : (c.get key now wall).2 = none) :
    Within (c.get key now wall).1 c := by
  have look := c.get_lookup key now wall
  generalize c.get key now wall = got at look miss ⊢
  cases look with
  | unlisted hentry => exact within_use hentry
  | noStore _ _ => exact within_use_unlist
  | @absent entry store _ hstore hfound =>
      have none_there : ∀ s, ((c.listedUse key).unlist key).stores entry.ttl = some s →
          B.expirable.peek wall s key = none := by
        intro s hs
        obtain rfl := Option.some.inj (hstore.symm.trans hs)
        exact hfound
      exact (within_look none_there).trans within_use_unlist
  | late _ hstore hfound _ =>
      rw [ranked.answered_ttl hstore hfound]
      exact (within_look_remove (c := (c.listedUse key).unlist key)).trans within_use_unlist
  | hit _ _ _ _ => cases miss

theorem mem_order_of_peek (h : B.lru.peek c.order k = some e) : k ∈ B.lru.contents c.order := by
  rw [B.lru.peek_eq] at h
  rw [← AList.lookup_isSome, h]
  rfl

/-- The stores after a hit: that of the key has it in front, the others are as they were. -/
theorem storedUse_stores {t : Int} {store : B.expirable.State}
    (h : (c.storedUse key ttl wall).stores t = some store) :
    ∃ before, c.stores t = some before ∧ B.expirable.size store = B.expirable.size before ∧
      B.expirable.ttl store = B.expirable.ttl before ∧
      (t = ttl ∧ store = (B.expirable.get wall before key).1 ∨ t ≠ ttl ∧ store = before) := by
  by_cases ht : t = ttl
  · subst ht
    rw [onStore_stores_self] at h
    obtain ⟨before, hbefore, rfl⟩ := Option.map_eq_some_iff.mp h
    exact ⟨before, hbefore, B.expirable.size_get .., B.expirable.ttl_get .., .inl ⟨rfl, rfl⟩⟩
  · rw [onStore_stores_of_ne _ _ _ ht] at h
    exact ⟨store, h, rfl, rfl, .inr ⟨ht, rfl⟩⟩

theorem Ranked.hit (ranked : c.Ranked used) {store : B.expirable.State}
    (hentry : B.lru.peek c.order key = some entry) (hstore : c.stores entry.ttl = some store)
    (hfound : B.expirable.peek wall store key = some e) :
    ((c.listedUse key).storedUse key entry.ttl wall).Ranked (key :: used) := by
  have same (b : String) : SameAt b ((c.listedUse key).storedUse key entry.ttl wall) c :=
    sameAt_look.trans sameAt_use
  have current {t : Int} {b : String}
      (h : ((c.listedUse key).storedUse key entry.ttl wall).Current t b) : c.Current t b := by
    obtain ⟨found, listed, httl⟩ := h
    exact ⟨found, (same b).order.symm.trans listed, httl⟩
  refine ⟨(B.lru.size_get _ _).trans ranked.orderSize, ?_, ?_, ?_, ?_, ?_, ?_⟩
  · show (B.lru.contents (B.lru.get c.order key).1).keys.length ≤ c.capacity
    rw [B.lru.contents_get, Recent.length_touch]
    exact ranked.bounded
  · show (B.lru.contents (B.lru.get c.order key).1).Ranked _ _
    rw [B.lru.contents_get]
    exact ranked.order.touch (mem_order_of_peek hentry) fun _ _ h => h
  · intro t store' h
    obtain ⟨before, hbefore, size, -, -⟩ := storedUse_stores h
    exact size.trans (ranked.storeSize hbefore)
  · intro t store' h
    obtain ⟨before, hbefore, -, httl, -⟩ := storedUse_stores h
    exact httl.trans (ranked.storeTtl hbefore)
  · intro t b d h
    rw [(same b).stored] at h
    exact ranked.filed h
  · intro t store' h
    obtain ⟨before, hbefore, -, -, ⟨rfl, rfl⟩ | ⟨ht, rfl⟩⟩ := storedUse_stores h
    · have hbefore : c.stores entry.ttl = some before := hbefore
      obtain rfl := Option.some.inj (hstore.symm.trans hbefore)
      have present : key ∈ B.expirable.contents store := by
        rw [B.expirable.peek_eq] at hfound
        obtain ⟨d, there, -⟩ := Option.bind_eq_some_iff.mp hfound
        rw [← AList.lookup_isSome, there]
        rfl
      rw [B.expirable.contents_get, hfound]
      exact (ranked.stores hstore).touch present fun _ _ => current
    · apply Recent.Ranked.elsewhere (ranked.stores hbefore)
      intro b hb
      refine ⟨?_, current hb⟩
      -- the key itself counts in the store of its own time to live only
      rintro rfl
      obtain ⟨listed, hlisted, rfl⟩ := current hb
      obtain rfl := Option.some.inj (hentry.symm.trans hlisted)
      exact ht rfl

/-- A hit is a use, and a miss is none. -/
theorem Ranked.get (ranked : c.Ranked used) :
    (c.get key now wall).1.Ranked
      (if (c.get key now wall).2.isSome then key :: used else used) := by
  cases hit : (c.get key now wall).2 with
  | none => exact ranked.within (within_get ranked hit)
  | some v =>
      have look := c.get_lookup key now wall
      generalize c.get key now wall = got at look hit ⊢
      cases look with
      | hit hentry hstore hfound _ => exact ranked.hit hentry hstore hfound
      | unlisted _ => cases hit
      | noStore _ _ => cases hit
      | absent _ _ _ => cases hit
      | late _ _ _ _ => cases hit

/-! ### Invalidating and cleaning -/

theorem within_invalidateKey {acc : Cache B × Nat} :
    Within (invalidateKey names wall acc key).1 acc.1 := by
  unfold invalidateKey
  split
  · exact .refl _
  · split
    · exact .refl _
    · split
      · exact .refl _
      · split
        · exact within_removeKeyLocked
        · exact .refl _

theorem within_invalidateQueries : Within (c.invalidateQueries names wall).1 c := by
  have fold (keys : List String) (acc : Cache B × Nat) :
      Within (keys.foldl (invalidateKey names wall) acc).1 acc.1 := by
    induction keys generalizing acc with
    | nil => exact .refl _
    | cons key keys ih => exact (ih _).trans within_invalidateKey
  unfold invalidateQueries
  split
  · exact .refl _
  · exact fold _ (c, 0)

/-- What a store answers for a kept entry is that entry. -/
theorem Keeps.answered (keeps : c.Keeps k e deadline) {store : B.expirable.State}
    (hstore : c.stores e.ttl = some store) {found : CacheEntry α}
    (h : B.expirable.peek wall store k = some found) : found = e := by
  obtain ⟨store', hstore', present⟩ := Option.bind_eq_some_iff.mp keeps.present
  obtain rfl := Option.some.inj (hstore.symm.trans hstore')
  rw [B.expirable.peek_eq, present, Option.bind_some, Deadlined.alive] at h
  split at h
  · cases h
  · exact (Option.some.inj h).symm

theorem Keeps.invalidateKey {acc : Cache B × Nat} (keeps : acc.1.Keeps k e deadline)
    (key : String) :
    (invalidateKey names wall acc key).1.Keeps k e deadline ∨ e.queryName ∈ names := by
  unfold Cache.invalidateKey
  split
  · exact .inl keeps
  next listed hlisted =>
    split
    · exact .inl keeps
    next store hstore =>
      split
      · exact .inl keeps
      next found hfound =>
        split
        next named =>
          by_cases hk : k = key
          · subst hk
            obtain rfl := Option.some.inj (keeps.listed.symm.trans hlisted)
            rw [keeps.answered hstore hfound] at named
            exact .inr named
          · exact .inl (keeps.sameAt (sameAt_removeKeyLocked hk))
        · exact .inl keeps

/-- A kept entry stays, unless its query is named. -/
theorem Keeps.invalidateQueries (keeps : c.Keeps k e deadline) :
    (c.invalidateQueries names wall).1.Keeps k e deadline ∨ e.queryName ∈ names := by
  have fold (keys : List String) (acc : Cache B × Nat) (keeps : acc.1.Keeps k e deadline) :
      (keys.foldl (Cache.invalidateKey names wall) acc).1.Keeps k e deadline ∨
        e.queryName ∈ names := by
    induction keys generalizing acc with
    | nil => exact .inl keeps
    | cons key keys ih =>
        rcases keeps.invalidateKey key with stays | named
        · exact ih _ stays
        · exact .inr named
  unfold Cache.invalidateQueries
  split
  · exact .inl keeps
  · exact fold _ (c, 0) keeps

/-- The cleaner takes a kept entry away only after its deadline. -/
theorem Keeps.sweep (keeps : c.Keeps k e deadline) :
    (c.sweep ttl wall).Keeps k e deadline ∨ passed deadline wall = true := by
  by_cases late : passed deadline wall = true
  · exact .inr late
  refine .inl ⟨keeps.listed, ?_⟩
  obtain ⟨store, hstore, present⟩ := Option.bind_eq_some_iff.mp keeps.present
  by_cases httl : e.ttl = ttl
  · subst httl
    have answered : B.expirable.peek wall (B.expirable.sweep wall store) k = some e := by
      rw [B.expirable.sweep_keeps, B.expirable.peek_eq, present, Option.bind_some,
        Deadlined.alive, if_neg late]
    rw [B.expirable.peek_eq] at answered
    obtain ⟨d, there, -⟩ := Option.bind_eq_some_iff.mp answered
    have same := Recent.lookup_of_sublist (B.expirable.sweep_sublist wall store) there
    obtain rfl := Option.some.inj (present.symm.trans same)
    unfold stored Cache.sweep
    rw [onStore_stores_self, hstore]
    exact there
  · unfold stored Cache.sweep
    rw [onStore_stores_of_ne _ _ _ httl]
    exact keeps.present

/-! ### Writing -/

theorem within_forgetOther : Within (c.forgetOther key ttl) c := by
  unfold forgetOther
  split
  · split
    · exact within_removeKeyLocked
    · exact .refl _
  · exact .refl _

theorem sameAt_forgetOther (hk : k ≠ key) : SameAt k (c.forgetOther key ttl) c := by
  unfold forgetOther
  split
  · split
    · exact sameAt_removeKeyLocked hk
    · exact .refl ..
  · exact .refl ..

theorem within_makeRoom : Within (c.makeRoom key) c := by
  unfold makeRoom
  split
  · exact .refl _
  · split
    · split
      · exact within_removeKeyLocked
      · exact .refl _
    · exact .refl _

/-- The keys of the order once `key` is in front. -/
abbrev keysWith (c : Cache B) (key : String) : List String :=
  key :: (B.lru.contents c.order).keys.erase key

theorem not_mem_order (new : B.lru.peek c.order key = none) :
    key ∉ (B.lru.contents c.order).keys := by
  rw [← AList.mem_keys, ← AList.lookup_eq_none, ← B.lru.peek_eq]
  exact new

/-- A new key in the place of the oldest one fills the order. -/
theorem Ranked.replace_oldest (ranked : c.Ranked used) {oldKey : String} {old : CacheEntry α}
    (new : B.lru.peek c.order key = none) (full : c.capacity ≤ B.lru.len c.order)
    (hold : B.lru.getOldest c.order = some (oldKey, old)) :
    (c.removeKeyLocked oldKey old.ttl).keysWith key =
      key :: (B.lru.contents c.order).keys.erase oldKey ∧
    ((c.removeKeyLocked oldKey old.ttl).keysWith key).length = c.capacity := by
  rw [B.lru.getOldest_eq] at hold
  obtain ⟨present, -⟩ := ranked.order.oldest hold trivial
  have there : oldKey ∈ (B.lru.contents c.order).keys := by
    rw [← AList.mem_keys, ← AList.lookup_isSome, present]
    rfl
  have keys : (c.removeKeyLocked oldKey old.ttl).keysWith key =
      key :: (B.lru.contents c.order).keys.erase oldKey := by
    show key :: (B.lru.contents (B.lru.remove c.order oldKey)).keys.erase key = _
    rw [B.lru.contents_remove, AList.keys_erase, List.erase_of_not_mem]
    exact fun h => not_mem_order new (List.mem_of_mem_erase h)
  refine ⟨keys, ?_⟩
  rw [B.lru.len_eq, ← Recent.length_keys] at full
  rw [keys, List.length_cons, List.length_erase_of_mem there]
  have positive := List.length_pos_of_mem there
  have bounded := ranked.bounded
  omega

/-- `makeRoom` leaves a kept entry alone, or it was the oldest of a full order. -/
theorem Keeps.makeRoom (ranked : c.Ranked used) (keeps : c.Keeps k e deadline) (hk : k ≠ key) :
    (c.makeRoom key).Keeps k e deadline ∨
      Crowds c.capacity (key :: used) ((c.makeRoom key).keysWith key) k := by
  unfold Cache.makeRoom
  split
  · exact .inl keeps
  next new =>
    split
    next full =>
      split
      next oldKey old hold =>
        by_cases heq : k = oldKey
        · subst heq
          obtain ⟨keys, length⟩ := ranked.replace_oldest new full hold
          rw [B.lru.getOldest_eq] at hold
          obtain ⟨-, before⟩ := ranked.order.oldest hold trivial
          refine .inr ⟨length, ?_⟩
          intro o ho
          rw [keys] at ho
          rcases List.mem_cons.mp ho with rfl | ho
          · exact usedAfter_now hk
          · obtain ⟨ne, listed⟩ := (AList.keys_nodup _).mem_erase_iff.mp ho
            exact (before o listed ne).cons hk
        · exact .inl (keeps.sameAt (sameAt_removeKeyLocked heq))
      · exact .inl keeps
    · exact .inl keeps

/-- There is room for the key. -/
theorem Ranked.makeRoom_room (ranked : c.Ranked used) (key : String) :
    ((c.makeRoom key).keysWith key).length ≤ c.capacity := by
  unfold Cache.makeRoom
  split
  next old hold =>
    have there : key ∈ (B.lru.contents c.order).keys := AList.mem_keys.mp (mem_order_of_peek hold)
    rw [keysWith, List.length_cons, List.length_erase_of_mem there]
    have positive := List.length_pos_of_mem there
    have bounded := ranked.bounded
    omega
  next new =>
    split
    next full =>
      split
      next oldKey old hold => exact Nat.le_of_eq (ranked.replace_oldest new full hold).2
      next hold =>
        rw [B.lru.getOldest_eq, Recent.oldest, Option.map_eq_none_iff,
          List.getLast?_eq_none_iff] at hold
        rw [B.lru.len_eq, hold, List.length_nil] at full
        have positive := c.capacity_pos
        omega
    next room =>
      rw [B.lru.len_eq, ← Recent.length_keys] at room
      rw [keysWith, List.erase_of_not_mem (not_mem_order new), List.length_cons]
      omega

@[simp] theorem write_capacity (c : Cache B) (key : String) (entry : CacheEntry α) (wall : Int) :
    (c.write key entry wall).capacity = c.capacity := by
  have made (c : Cache B) (ttl : Int) : (c.storeLocked ttl).capacity = c.capacity := by
    unfold storeLocked
    split <;> rfl
  exact made _ _

theorem contents_write_order : B.lru.contents (c.write key entry wall).order =
    Recent.newest (B.lru.size c.order) ((B.lru.contents c.order).insert key entry) := by
  rw [write_order, B.lru.contents_add]

/-- With room for the key, the order drops nothing. -/
theorem contents_write_of_room (ranked : c.Ranked used)
    (room : (c.keysWith key).length ≤ c.capacity) :
    B.lru.contents (c.write key entry wall).order = (B.lru.contents c.order).insert key entry := by
  rw [contents_write_order, ranked.orderSize]
  apply Recent.newest_eq_self
  rw [AList.keys_insert]
  exact room

/-- The store of the entry's time to live, as it was before the write. -/
theorem Ranked.write_store (ranked : c.Ranked used) {store : B.expirable.State}
    (h : (c.write key entry wall).stores entry.ttl = some store) :
    ∃ before : Recent String (Deadlined (CacheEntry α)),
      before.Ranked used (c.Current entry.ttl) ∧
      (∀ b, before.lookup b = c.stored entry.ttl b) ∧
      B.expirable.size store = c.capacity ∧ B.expirable.ttl store = entry.ttl ∧
      B.expirable.contents store = Recent.newest c.capacity
        (before.insert key ⟨entry, deadlineAt entry.ttl wall⟩) := by
  rw [write_stores_self] at h
  obtain rfl := Option.some.inj h
  rw [B.expirable.size_add, B.expirable.ttl_add, B.expirable.contents_add]
  cases hstore : c.stores entry.ttl with
  | some before =>
      rw [Option.getD_some, ranked.storeSize hstore, ranked.storeTtl hstore]
      refine ⟨B.expirable.contents before, ranked.stores hstore, ?_, rfl, rfl, rfl⟩
      intro b
      rw [stored, hstore, Option.bind_some]
  | none =>
      rw [Option.getD_none, B.expirable.size_new, B.expirable.ttl_new, B.expirable.contents_new]
      refine ⟨∅, Recent.ranked_empty, ?_, rfl, rfl, rfl⟩
      intro b
      rw [stored, hstore, Option.bind_none, AList.lookup_empty]

theorem current_write {t : Int} {b : String} (h : (c.write key entry wall).Current t b) :
    b = key ∧ t = entry.ttl ∨ b ≠ key ∧ c.Current t b := by
  obtain ⟨found, listed, rfl⟩ := h
  rw [write_order] at listed
  rcases Lru.peek_add_cases listed with ⟨rfl, rfl⟩ | ⟨ne, old⟩
  · exact .inl ⟨rfl, rfl⟩
  · exact .inr ⟨ne, found, old, rfl⟩

theorem Ranked.write (ranked : c.Ranked used) (key : String) (entry : CacheEntry α) (wall : Int) :
    (c.write key entry wall).Ranked (key :: used) := by
  refine ⟨?_, ?_, ?_, ?_, ?_, ?_, ?_⟩
  · rw [write_order, B.lru.size_add, write_capacity]
    exact ranked.orderSize
  · rw [contents_write_order, write_capacity, ranked.orderSize]
    exact Recent.length_newest_le _ _
  · rw [contents_write_order]
    exact (ranked.order.insert fun _ _ h => h).newest _
  · intro t store h
    by_cases ht : t = entry.ttl
    · subst ht
      obtain ⟨-, -, -, size, -, -⟩ := ranked.write_store h
      rw [size, write_capacity]
    · rw [write_stores_of_ne _ _ _ _ ht] at h
      rw [ranked.storeSize h, write_capacity]
  · intro t store h
    by_cases ht : t = entry.ttl
    · subst ht
      obtain ⟨-, -, -, -, same, -⟩ := ranked.write_store h
      exact same
    · rw [write_stores_of_ne _ _ _ _ ht] at h
      exact ranked.storeTtl h
  · intro t b d h
    obtain ⟨store, hstore, found⟩ := Option.bind_eq_some_iff.mp h
    by_cases ht : t = entry.ttl
    · subst ht
      obtain ⟨before, -, same, -, -, contents⟩ := ranked.write_store hstore
      rw [contents] at found
      rcases Recent.lookup_insert_cases (Recent.lookup_newest found) with ⟨-, rfl⟩ | ⟨-, old⟩
      · rfl
      · exact ranked.filed (same b ▸ old)
    · rw [write_stores_of_ne _ _ _ _ ht] at hstore
      exact ranked.filed (Option.bind_eq_some_iff.mpr ⟨store, hstore, found⟩)
  · intro t store h
    by_cases ht : t = entry.ttl
    · subst ht
      obtain ⟨before, order, -, -, -, contents⟩ := ranked.write_store h
      rw [contents]
      refine (order.insert ?_).newest _
      intro b hb current
      exact ((current_write current).resolve_left fun new => hb new.1).2
    · rw [write_stores_of_ne _ _ _ _ ht] at h
      apply (ranked.stores h).elsewhere
      intro b current
      exact (current_write current).resolve_left fun new => ht new.2

theorem Keeps.write_self (ranked : c.Ranked used) (key : String) (entry : CacheEntry α)
    (wall : Int) : (c.write key entry wall).Keeps key entry (deadlineAt entry.ttl wall) := by
  constructor
  · rw [write_order, Lru.peek_add_self]
  · obtain ⟨before, -, -, -, -, contents⟩ := ranked.write_store (write_stores_self ..)
    apply Option.bind_eq_some_iff.mpr
    refine ⟨_, write_stores_self .., ?_⟩
    rw [contents]
    exact Recent.lookup_newest_insert c.capacity_pos _ _ _

/-- A write leaves a kept entry of another key alone, or its store is full of keys used
later. -/
theorem Keeps.write (ranked : c.Ranked used) (keeps : c.Keeps k e deadline) (hk : k ≠ key)
    (room : (c.keysWith key).length ≤ c.capacity) :
    (c.write key entry wall).Keeps k e deadline ∨
      (c.write key entry wall).Crowded (key :: used) e.ttl k := by
  have listed : B.lru.peek (c.write key entry wall).order k = some e := by
    rw [B.lru.peek_eq, contents_write_of_room ranked room, AList.lookup_insert_ne hk,
      ← B.lru.peek_eq]
    exact keeps.listed
  by_cases httl : e.ttl = entry.ttl
  · obtain ⟨store, hstore⟩ : ∃ store, (c.write key entry wall).stores entry.ttl = some store :=
      ⟨_, write_stores_self ..⟩
    obtain ⟨before, order, same, -, -, contents⟩ := ranked.write_store hstore
    rw [← httl] at hstore
    have old : (before.insert key ⟨entry, deadlineAt entry.ttl wall⟩).lookup k =
        some ⟨e, deadline⟩ := by
      rw [AList.lookup_insert_ne hk, same, ← httl]
      exact keeps.present
    cases found : (Recent.newest c.capacity
        (before.insert key ⟨entry, deadlineAt entry.ttl wall⟩)).lookup k with
    | some d =>
        obtain rfl := Option.some.inj (old.symm.trans (Recent.lookup_newest found))
        refine .inl ⟨listed, Option.bind_eq_some_iff.mpr ⟨store, hstore, ?_⟩⟩
        rw [contents]
        exact found
    | none =>
        have ranked' : Recent.Ranked (key :: used) (c.Current entry.ttl)
            (before.insert key ⟨entry, deadlineAt entry.ttl wall⟩) := order.insert fun _ _ h => h
        refine .inr (.inr ⟨store, hstore, ?_⟩)
        rw [contents, write_capacity]
        exact ranked'.crowds ⟨e, keeps.listed, httl⟩ old found
  · refine .inl ⟨listed, ?_⟩
    unfold stored
    rw [write_stores_of_ne _ _ _ _ httl]
    exact keeps.present

/-! ### The whole put -/

variable {queryName : String} {value : α}

/-- What `put` files under the key. -/
def filedEntry (queryName : String) (value : α) (ttl now : Int) : CacheEntry α :=
  ⟨queryName, value, expiryAt now ttl, normalizeTTL ttl⟩

theorem within_prepared : Within ((c.forgetOther key ttl).makeRoom key) c :=
  within_makeRoom.trans within_forgetOther

theorem put_capacity (c : Cache B) (key queryName : String) (value : α) (ttl now wall : Int) :
    (c.put key queryName value ttl now wall).capacity = c.capacity := by
  unfold put
  rw [write_capacity]
  exact within_prepared.capacity

theorem Ranked.put (ranked : c.Ranked used) (key queryName : String) (value : α)
    (ttl now wall : Int) :
    (c.put key queryName value ttl now wall).Ranked (key :: used) :=
  (ranked.within within_prepared).write ..

theorem Keeps.put_self (ranked : c.Ranked used) :
    (c.put key queryName value ttl now wall).Keeps key (filedEntry queryName value ttl now)
      (deadlineAt (normalizeTTL ttl) wall) :=
  Keeps.write_self (ranked.within within_prepared) ..

/-- A put leaves a kept entry of another key alone, or everything in the order, or in its
store, was used later. -/
theorem Keeps.put (ranked : c.Ranked used) (keeps : c.Keeps k e deadline) (hk : k ≠ key) :
    (c.put key queryName value ttl now wall).Keeps k e deadline ∨
      (c.put key queryName value ttl now wall).Crowded (key :: used) e.ttl k := by
  have forgotten : (c.forgetOther key (normalizeTTL ttl)).Ranked used :=
    ranked.within within_forgetOther
  have prepared : ((c.forgetOther key (normalizeTTL ttl)).makeRoom key).Ranked used :=
    ranked.within within_prepared
  have capacity : ((c.forgetOther key (normalizeTTL ttl)).makeRoom key).capacity =
      (c.forgetOther key (normalizeTTL ttl)).capacity := within_makeRoom.capacity
  have room := forgotten.makeRoom_room key
  rw [← capacity] at room
  rcases (keeps.sameAt (sameAt_forgetOther hk)).makeRoom forgotten hk with stays | crowds
  · exact stays.write prepared hk room
  · refine .inr (.inl ?_)
    unfold Cache.put
    rw [contents_write_of_room prepared room, AList.keys_insert, write_capacity, capacity]
    exact crowds

end Cache

end Lazuli.Runtime
