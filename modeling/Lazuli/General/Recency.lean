import Mathlib.Data.List.AList

/-!
Bounded maps that keep what was used last.

The contents of such a map are an association list, most recently used first. Two
interfaces are described by what each operation does to the contents: `Lru`, which drops
the least recently used entry when it is full, and `Expirable`, whose entries also have a
deadline. How they store their contents is left open; `Lru.reference` and
`Expirable.reference` are the contents themselves.

An entry that has passed its deadline is never answered, and may disappear at any time.
-/

namespace Lazuli.General

/-! ### The contents -/

/-- Keys with their values, most recently used first. -/
abbrev Recent (κ ν : Type) := AList fun _ : κ => ν

namespace Recent

variable {κ ν : Type}

/-- The `n` most recently used entries. -/
def newest (n : Nat) (l : Recent κ ν) : Recent κ ν :=
  ⟨l.entries.take n, l.nodupKeys.sublist (List.take_sublist n l.entries)⟩

def oldest (l : Recent κ ν) : Option (κ × ν) :=
  l.entries.getLast?.map fun entry => (entry.1, entry.2)

variable [DecidableEq κ]

/-- Use of a key makes it the most recent one. -/
def touch (k : κ) (l : Recent κ ν) : Recent κ ν :=
  match l.lookup k with
  | none => l
  | some v => l.insert k v

theorem lookup_of_sublist {l l' : Recent κ ν} (sub : l.entries.Sublist l'.entries) {k : κ}
    {v : ν} (h : l.lookup k = some v) : l'.lookup k = some v :=
  AList.mem_lookup_iff.mpr (sub.subset (AList.mem_lookup_iff.mp h))

theorem lookup_newest {n : Nat} {l : Recent κ ν} {k : κ} {v : ν}
    (h : (newest n l).lookup k = some v) : l.lookup k = some v :=
  lookup_of_sublist (List.take_sublist n l.entries) h

/-- The newest entry of all survives every positive bound. -/
theorem lookup_newest_insert {n : Nat} (hn : 0 < n) (k : κ) (v : ν) (l : Recent κ ν) :
    (newest n (l.insert k v)).lookup k = some v := by
  obtain ⟨m, rfl⟩ := Nat.exists_eq_add_one_of_ne_zero (Nat.ne_of_gt hn)
  apply AList.mem_lookup_iff.mpr
  show Sigma.mk k v ∈ (l.insert k v).entries.take (m + 1)
  rw [AList.entries_insert, List.take_succ_cons]
  exact List.mem_cons_self

theorem lookup_insert_cases {l : Recent κ ν} {k k' : κ} {v v' : ν}
    (h : (l.insert k v).lookup k' = some v') :
    k' = k ∧ v' = v ∨ k' ≠ k ∧ l.lookup k' = some v' := by
  by_cases hk : k' = k
  · subst hk
    rw [AList.lookup_insert] at h
    exact .inl ⟨rfl, (Option.some.inj h).symm⟩
  · rw [AList.lookup_insert_ne hk] at h
    exact .inr ⟨hk, h⟩

@[simp] theorem lookup_touch (k k' : κ) (l : Recent κ ν) :
    (touch k l).lookup k' = l.lookup k' := by
  unfold touch
  cases h : l.lookup k with
  | none => rfl
  | some v =>
      by_cases hk : k' = k
      · subst hk
        rw [AList.lookup_insert, h]
      · exact AList.lookup_insert_ne hk

end Recent

/-! ### Least recently used -/

/-- A map of at most `size` entries. `get` uses a key and `peek` does not. -/
structure Lru (κ ν : Type) [DecidableEq κ] where
  State : Type
  new : (n : Nat) → 0 < n → State
  get : State → κ → State × Option ν
  peek : State → κ → Option ν
  add : State → κ → ν → State
  remove : State → κ → State
  /-- The keys, least recently used first. -/
  keys : State → List κ
  len : State → Nat
  getOldest : State → Option (κ × ν)
  size : State → Nat
  contents : State → Recent κ ν
  size_pos : ∀ s, 0 < size s
  size_new : ∀ n hn, size (new n hn) = n
  size_get : ∀ s k, size (get s k).1 = size s
  size_add : ∀ s k v, size (add s k v) = size s
  size_remove : ∀ s k, size (remove s k) = size s
  contents_new : ∀ n hn, contents (new n hn) = ∅
  get_eq : ∀ s k, (get s k).2 = (contents s).lookup k
  contents_get : ∀ s k, contents (get s k).1 = (contents s).touch k
  peek_eq : ∀ s k, peek s k = (contents s).lookup k
  contents_add : ∀ s k v, contents (add s k v) = Recent.newest (size s) ((contents s).insert k v)
  contents_remove : ∀ s k, contents (remove s k) = (contents s).erase k
  keys_eq : ∀ s, keys s = (contents s).keys.reverse
  len_eq : ∀ s, len s = (contents s).entries.length
  getOldest_eq : ∀ s, getOldest s = (contents s).oldest

namespace Lru

variable {κ ν : Type} [DecidableEq κ] {L : Lru κ ν} {s : L.State} {k k' : κ} {v v' : ν}

@[simp] theorem peek_new (n : Nat) (hn : 0 < n) (k : κ) : L.peek (L.new n hn) k = none := by
  rw [L.peek_eq, L.contents_new]
  exact AList.lookup_empty k

theorem get_eq_peek (s : L.State) (k : κ) : (L.get s k).2 = L.peek s k := by
  rw [L.get_eq, L.peek_eq]

@[simp] theorem peek_get (s : L.State) (k k' : κ) : L.peek (L.get s k).1 k' = L.peek s k' := by
  rw [L.peek_eq, L.peek_eq, L.contents_get, Recent.lookup_touch]

@[simp] theorem peek_add_self (s : L.State) (k : κ) (v : ν) : L.peek (L.add s k v) k = some v := by
  rw [L.peek_eq, L.contents_add]
  exact Recent.lookup_newest_insert (L.size_pos s) k v _

theorem peek_add_cases (h : L.peek (L.add s k v) k' = some v') :
    k' = k ∧ v' = v ∨ k' ≠ k ∧ L.peek s k' = some v' := by
  rw [L.peek_eq, L.contents_add] at h
  rw [L.peek_eq]
  exact Recent.lookup_insert_cases (Recent.lookup_newest h)

@[simp] theorem peek_remove_self (s : L.State) (k : κ) : L.peek (L.remove s k) k = none := by
  rw [L.peek_eq, L.contents_remove]
  exact AList.lookup_erase k _

theorem peek_remove_of_ne (s : L.State) (h : k' ≠ k) :
    L.peek (L.remove s k) k' = L.peek s k' := by
  rw [L.peek_eq, L.peek_eq, L.contents_remove]
  exact AList.lookup_erase_ne h

theorem mem_keys_of_peek (h : L.peek s k = some v) : k ∈ L.keys s := by
  rw [L.peek_eq] at h
  rw [L.keys_eq, List.mem_reverse, ← AList.mem_keys, ← AList.lookup_isSome, h]
  rfl

/-- The contents and their bound. -/
def reference (κ ν : Type) [DecidableEq κ] : Lru κ ν where
  State := {n : Nat // 0 < n} × Recent κ ν
  new n hn := (⟨n, hn⟩, ∅)
  get s k := ((s.1, s.2.touch k), s.2.lookup k)
  peek s k := s.2.lookup k
  add s k v := (s.1, Recent.newest s.1 (s.2.insert k v))
  remove s k := (s.1, s.2.erase k)
  keys s := s.2.keys.reverse
  len s := s.2.entries.length
  getOldest s := s.2.oldest
  size s := s.1
  contents s := s.2
  size_pos s := s.1.2
  size_new _ _ := rfl
  size_get _ _ := rfl
  size_add _ _ _ := rfl
  size_remove _ _ := rfl
  contents_new _ _ := rfl
  get_eq _ _ := rfl
  contents_get _ _ := rfl
  peek_eq _ _ := rfl
  contents_add _ _ _ := rfl
  contents_remove _ _ := rfl
  keys_eq _ := rfl
  len_eq _ := rfl
  getOldest_eq _ := rfl

end Lru

/-! ### With deadlines -/

/-- A value with the time after which it is not to be used; `none` is never. -/
structure Deadlined (ν : Type) where
  value : ν
  deadline : Option Int
  deriving DecidableEq

/-- The deadline lies before `now`. -/
def passed : Option Int → Int → Bool
  | none, _ => false
  | some deadline, now => decide (deadline < now)

theorem passed_mono {deadline : Option Int} {now now' : Int} (le : now ≤ now')
    (h : passed deadline now = true) : passed deadline now' = true := by
  cases deadline with
  | none => cases h
  | some d =>
      have before : d < now := of_decide_eq_true h
      exact decide_eq_true (by omega)

/-- A time to live of zero or less turns expiry off. -/
def deadlineAt (ttl now : Int) : Option Int := if ttl ≤ 0 then none else some (now + ttl)

theorem not_passed_deadlineAt (ttl now : Int) : passed (deadlineAt ttl now) now = false := by
  unfold deadlineAt
  split
  · rfl
  · exact decide_eq_false (by omega)

/-- The value, while its deadline lasts. -/
def Deadlined.alive {ν : Type} (now : Int) (v : Deadlined ν) : Option ν :=
  if passed v.deadline now then none else some v.value

theorem Deadlined.alive_mono {ν : Type} {d : Deadlined ν} {v : ν} {now now' : Int}
    (le : now ≤ now') (h : d.alive now' = some v) : d.alive now = some v := by
  unfold Deadlined.alive at h ⊢
  cases hp : passed d.deadline now with
  | true =>
      rw [passed_mono le hp] at h
      cases h
  | false =>
      split at h
      · cases h
      · exact h

/-- A map whose entries live for the same time `ttl` each. Every operation that looks at
an entry compares its deadline with the clock; `sweep` is the cleaner that runs by
itself. -/
structure Expirable (κ ν : Type) [DecidableEq κ] where
  State : Type
  new : (n : Nat) → 0 < n → (ttl : Int) → State
  get : (now : Int) → State → κ → State × Option ν
  peek : (now : Int) → State → κ → Option ν
  add : (now : Int) → State → κ → ν → State
  remove : State → κ → State
  sweep : (now : Int) → State → State
  size : State → Nat
  ttl : State → Int
  contents : State → Recent κ (Deadlined ν)
  size_pos : ∀ s, 0 < size s
  size_new : ∀ n hn t, size (new n hn t) = n
  size_get : ∀ now s k, size (get now s k).1 = size s
  size_add : ∀ now s k v, size (add now s k v) = size s
  size_remove : ∀ s k, size (remove s k) = size s
  size_sweep : ∀ now s, size (sweep now s) = size s
  ttl_new : ∀ n hn t, ttl (new n hn t) = t
  ttl_get : ∀ now s k, ttl (get now s k).1 = ttl s
  ttl_add : ∀ now s k v, ttl (add now s k v) = ttl s
  ttl_remove : ∀ s k, ttl (remove s k) = ttl s
  ttl_sweep : ∀ now s, ttl (sweep now s) = ttl s
  contents_new : ∀ n hn t, contents (new n hn t) = ∅
  peek_eq : ∀ now s k, peek now s k = ((contents s).lookup k).bind (Deadlined.alive now)
  get_eq : ∀ now s k, (get now s k).2 = peek now s k
  contents_get : ∀ now s k, contents (get now s k).1 =
    if (peek now s k).isSome then (contents s).touch k else contents s
  contents_add : ∀ now s k v, contents (add now s k v) =
    Recent.newest (size s) ((contents s).insert k ⟨v, deadlineAt (ttl s) now⟩)
  contents_remove : ∀ s k, contents (remove s k) = (contents s).erase k
  /-- The cleaner takes away only what has passed its deadline. -/
  sweep_sublist : ∀ now s, (contents (sweep now s)).entries.Sublist (contents s).entries
  sweep_keeps : ∀ now s k, peek now (sweep now s) k = peek now s k

namespace Expirable

variable {κ ν : Type} [DecidableEq κ] {E : Expirable κ ν} {s : E.State} {k k' : κ} {v v' : ν}
  {now now' : Int}

/-- What is not answered now will not be answered later. -/
theorem peek_mono (le : now ≤ now') (h : E.peek now' s k = some v) : E.peek now s k = some v := by
  rw [E.peek_eq] at h ⊢
  obtain ⟨d, present, living⟩ := Option.bind_eq_some_iff.mp h
  exact Option.bind_eq_some_iff.mpr ⟨d, present, Deadlined.alive_mono le living⟩

@[simp] theorem peek_new (n : Nat) (hn : 0 < n) (ttl : Int) (k : κ) :
    E.peek now (E.new n hn ttl) k = none := by
  rw [E.peek_eq, E.contents_new, AList.lookup_empty]
  rfl

@[simp] theorem peek_get (now now' : Int) (s : E.State) (k k' : κ) :
    E.peek now' (E.get now s k).1 k' = E.peek now' s k' := by
  rw [E.peek_eq, E.peek_eq, E.contents_get]
  split
  · rw [Recent.lookup_touch]
  · rfl

theorem peek_add_self (now : Int) (s : E.State) (k : κ) (v : ν) :
    E.peek now (E.add now s k v) k = some v := by
  rw [E.peek_eq, E.contents_add, Recent.lookup_newest_insert (E.size_pos s), Option.bind_some,
    Deadlined.alive, not_passed_deadlineAt]
  rfl

theorem peek_add_cases (h : E.peek now' (E.add now s k v) k' = some v') :
    k' = k ∧ v' = v ∨ k' ≠ k ∧ E.peek now' s k' = some v' := by
  rw [E.peek_eq, E.contents_add] at h
  obtain ⟨d, present, living⟩ := Option.bind_eq_some_iff.mp h
  rcases Recent.lookup_insert_cases (Recent.lookup_newest present) with ⟨rfl, rfl⟩ | ⟨hk, old⟩
  · refine .inl ⟨rfl, ?_⟩
    unfold Deadlined.alive at living
    split at living
    · cases living
    · exact (Option.some.inj living).symm
  · refine .inr ⟨hk, ?_⟩
    rw [E.peek_eq, old]
    exact living

@[simp] theorem peek_remove_self (now : Int) (s : E.State) (k : κ) :
    E.peek now (E.remove s k) k = none := by
  rw [E.peek_eq, E.contents_remove, AList.lookup_erase]
  rfl

theorem peek_remove_of_ne (now : Int) (s : E.State) (h : k' ≠ k) :
    E.peek now (E.remove s k) k' = E.peek now s k' := by
  rw [E.peek_eq, E.peek_eq, E.contents_remove, AList.lookup_erase_ne h]

theorem peek_sweep (h : E.peek now' (E.sweep now s) k = some v) : E.peek now' s k = some v := by
  rw [E.peek_eq] at h ⊢
  obtain ⟨d, present, living⟩ := Option.bind_eq_some_iff.mp h
  exact Option.bind_eq_some_iff.mpr
    ⟨d, Recent.lookup_of_sublist (E.sweep_sublist now s) present, living⟩

/-- The contents, their bound and their time to live, with a cleaner that never runs. -/
def reference (κ ν : Type) [DecidableEq κ] : Expirable κ ν where
  State := {n : Nat // 0 < n} × Int × Recent κ (Deadlined ν)
  new n hn ttl := (⟨n, hn⟩, ttl, ∅)
  get now s k :=
    let found := (s.2.2.lookup k).bind (Deadlined.alive now)
    ((s.1, s.2.1, if found.isSome then s.2.2.touch k else s.2.2), found)
  peek now s k := (s.2.2.lookup k).bind (Deadlined.alive now)
  add now s k v := (s.1, s.2.1, Recent.newest s.1 (s.2.2.insert k ⟨v, deadlineAt s.2.1 now⟩))
  remove s k := (s.1, s.2.1, s.2.2.erase k)
  sweep _ s := s
  size s := s.1
  ttl s := s.2.1
  contents s := s.2.2
  size_pos s := s.1.2
  size_new _ _ _ := rfl
  size_get _ _ _ := rfl
  size_add _ _ _ _ := rfl
  size_remove _ _ := rfl
  size_sweep _ _ := rfl
  ttl_new _ _ _ := rfl
  ttl_get _ _ _ := rfl
  ttl_add _ _ _ _ := rfl
  ttl_remove _ _ := rfl
  ttl_sweep _ _ := rfl
  contents_new _ _ _ := rfl
  peek_eq _ _ _ := rfl
  get_eq _ _ _ := rfl
  contents_get _ _ _ := rfl
  contents_add _ _ _ _ := rfl
  contents_remove _ _ := rfl
  sweep_sublist _ _ := List.Sublist.refl _
  sweep_keeps _ _ _ := rfl

end Expirable

end Lazuli.General

/-!
Which of two keys was used last.

The uses of a run are a list of keys, the latest first. A bounded map that puts what is used
in front keeps its keys in the order of their last use, and what it drops for want of room
was used before everything it keeps.

A map can hold a key whose later uses it did not see. `Recent.Ranked` therefore asks for the
order only in front of the keys that count.
-/

namespace Lazuli.General

section Uses

variable {κ : Type} [DecidableEq κ] {used : List κ} {k a b : κ}

/-- The last use of `a` came after the last use of `b`. -/
def UsedAfter (used : List κ) (a b : κ) : Prop := used.idxOf a < used.idxOf b

instance (used : List κ) (a b : κ) : Decidable (UsedAfter used a b) :=
  inferInstanceAs (Decidable (used.idxOf a < used.idxOf b))

/-- The key used now is the latest of all. -/
theorem usedAfter_now (h : b ≠ k) : UsedAfter (k :: used) k b := by
  unfold UsedAfter
  rw [List.idxOf_cons_self, List.idxOf_cons_ne _ h.symm]
  exact Nat.succ_pos _

/-- The use of another key leaves a later use later. -/
theorem UsedAfter.cons (h : UsedAfter used a b) (hb : b ≠ k) : UsedAfter (k :: used) a b := by
  by_cases ha : a = k
  · subst ha
    exact usedAfter_now hb
  · unfold UsedAfter at h ⊢
    rw [List.idxOf_cons_ne _ (Ne.symm ha), List.idxOf_cons_ne _ hb.symm]
    exact Nat.succ_lt_succ h

/-- As many keys as there is room for, each used after `k`. -/
def Crowds (n : Nat) (used keys : List κ) (k : κ) : Prop :=
  keys.length = n ∧ ∀ o ∈ keys, UsedAfter used o k

instance (n : Nat) (used keys : List κ) (k : κ) : Decidable (Crowds n used keys k) :=
  inferInstanceAs (Decidable (_ ∧ ∀ o ∈ keys, UsedAfter used o k))

end Uses

namespace Recent

variable {κ ν : Type} {l : Recent κ ν} {k b : κ} {v : ν} {n : Nat}

/-! ### Keys -/

theorem keys_newest (n : Nat) (l : Recent κ ν) : (newest n l).keys = l.keys.take n :=
  List.map_take.symm ▸ rfl

theorem length_keys (l : Recent κ ν) : l.keys.length = l.entries.length := List.length_map _

theorem length_newest_le (n : Nat) (l : Recent κ ν) : (newest n l).keys.length ≤ n := by
  rw [keys_newest]
  exact List.length_take_le n _

theorem newest_eq_self (h : l.keys.length ≤ n) : newest n l = l := by
  apply AList.ext
  rw [length_keys] at h
  exact List.take_of_length_le h

variable [DecidableEq κ]

/-- What the bound drops stands behind everything it keeps, and it keeps all it can. -/
theorem dropped (h : l.lookup k = some v) (gone : (newest n l).lookup k = none) :
    (newest n l).keys.length = n ∧ ∃ rest, l.keys = (newest n l).keys ++ rest ∧ k ∈ rest := by
  have present : k ∈ l.keys := by
    rw [← AList.mem_keys, ← AList.lookup_isSome, h]
    rfl
  have absent : k ∉ l.keys.take n := by
    rw [← keys_newest, ← AList.mem_keys]
    exact AList.lookup_eq_none.mp gone
  have split := List.take_append_drop n l.keys
  rw [keys_newest]
  refine ⟨?_, l.keys.drop n, split.symm, ?_⟩
  · by_contra short
    have all : l.keys.take n = l.keys := by
      apply List.take_of_length_le
      rw [List.length_take] at short
      omega
    rw [all] at absent
    exact absent present
  · rw [← split] at present
    exact (List.mem_append.mp present).resolve_left absent

theorem keys_touch (k : κ) (l : Recent κ ν) :
    (touch k l).keys = if k ∈ l then k :: l.keys.erase k else l.keys := by
  unfold touch
  cases h : l.lookup k with
  | none => rw [if_neg (AList.lookup_eq_none.mp h)]
  | some v =>
      have present : k ∈ l := by
        rw [← AList.lookup_isSome, h]
        rfl
      rw [if_pos present, AList.keys_insert]

theorem length_touch (k : κ) (l : Recent κ ν) : (touch k l).keys.length = l.keys.length := by
  rw [keys_touch]
  split
  next present =>
    rw [List.length_cons, List.length_erase_of_mem (AList.mem_keys.mp present)]
    exact Nat.sub_add_cancel (List.length_pos_of_mem (AList.mem_keys.mp present))
  · rfl

theorem erase_sublist (l : Recent κ ν) (k : κ) : (l.erase k).entries.Sublist l.entries :=
  List.kerase_sublist k l.entries

/-- A use that is taken back leaves the others in their order. -/
theorem erase_touch_sublist (l : Recent κ ν) (k : κ) :
    ((touch k l).erase k).entries.Sublist l.entries := by
  unfold touch
  split
  · exact erase_sublist l k
  next v _ =>
    have same : ((l.insert k v).erase k).entries = l.entries.kerase k := by
      show (l.insert k v).entries.kerase k = _
      rw [AList.entries_insert]
      exact List.kerase_cons_eq (s := (⟨k, v⟩ : Sigma fun _ : κ => ν)) rfl
    rw [same]
    exact erase_sublist l k

/-! ### In the order of use -/

variable {used : List κ} {P Q : κ → Prop}

/-- Whatever stands in front of a key that counts was used after it. -/
def Ranked (used : List κ) (P : κ → Prop) (l : Recent κ ν) : Prop :=
  l.keys.Pairwise fun a b => P b → UsedAfter used a b

theorem ranked_empty : Ranked used P (∅ : Recent κ ν) := List.Pairwise.nil

theorem Ranked.sublist {l' : Recent κ ν} (ranked : Ranked used P l)
    (sub : l'.keys.Sublist l.keys) : Ranked used P l' :=
  List.Pairwise.sublist sub ranked

theorem Ranked.fewer (ranked : Ranked used P l) (fewer : ∀ b, Q b → P b) : Ranked used Q l :=
  List.Pairwise.imp (fun rank hb => rank (fewer _ hb)) ranked

theorem Ranked.newest (ranked : Ranked used P l) (n : Nat) : Ranked used P (newest n l) :=
  ranked.sublist (by rw [keys_newest]; exact List.take_sublist n _)

/-- A key is used that counts for nothing here, or has no place here. -/
theorem Ranked.elsewhere (ranked : Ranked used P l) (apart : ∀ b, Q b → b ≠ k ∧ P b) :
    Ranked (k :: used) Q l :=
  List.Pairwise.imp (fun rank hb => (rank (apart _ hb).2).cons (apart _ hb).1) ranked

theorem Ranked.front (ranked : Ranked used P l) (others : ∀ b, b ≠ k → Q b → P b) :
    (k :: l.keys.erase k).Pairwise fun a b => Q b → UsedAfter (k :: used) a b := by
  have ne {b : κ} (hb : b ∈ l.keys.erase k) : b ≠ k := (l.keys_nodup.mem_erase_iff.mp hb).1
  refine List.pairwise_cons.mpr ⟨fun b hb _ => usedAfter_now (ne hb), ?_⟩
  have kept : (l.keys.erase k).Pairwise fun a b => P b → UsedAfter used a b :=
    List.Pairwise.sublist List.erase_sublist ranked
  refine List.Pairwise.imp_of_mem ?_ kept
  intro a b _ hb rank hQ
  exact (rank (others b (ne hb) hQ)).cons (ne hb)

theorem Ranked.insert (ranked : Ranked used P l) (others : ∀ b, b ≠ k → Q b → P b) :
    Ranked (k :: used) Q (l.insert k v) := by
  unfold Ranked
  rw [AList.keys_insert]
  exact ranked.front others

theorem Ranked.touch (ranked : Ranked used P l) (present : k ∈ l)
    (others : ∀ b, b ≠ k → Q b → P b) : Ranked (k :: used) Q (touch k l) := by
  unfold Ranked
  rw [keys_touch, if_pos present]
  exact ranked.front others

/-- What is dropped for want of room was used before all that stays. -/
theorem Ranked.crowds (ranked : Ranked used P l) (counts : P k) (h : l.lookup k = some v)
    (gone : (Recent.newest n l).lookup k = none) :
    Crowds n used (Recent.newest n l).keys k := by
  obtain ⟨full, rest, split, behind⟩ := dropped h gone
  refine ⟨full, ?_⟩
  intro o ho
  unfold Ranked at ranked
  rw [split] at ranked
  exact (List.pairwise_append.mp ranked).2.2 o ho k behind counts

/-- The oldest key was used before all others. -/
theorem Ranked.oldest (ranked : Ranked used P l) (h : l.oldest = some (k, v)) (counts : P k) :
    l.lookup k = some v ∧ ∀ o ∈ l.keys, o ≠ k → UsedAfter used o k := by
  obtain ⟨entry, last, same⟩ := Option.map_eq_some_iff.mp h
  obtain rfl : entry = ⟨k, v⟩ := by
    obtain ⟨_, _⟩ := entry
    obtain ⟨rfl, rfl⟩ := Prod.mk.inj same
    rfl
  obtain ⟨front, split⟩ := List.getLast?_eq_some_iff.mp last
  constructor
  · apply AList.mem_lookup_iff.mpr
    rw [split]
    exact List.mem_append_right _ List.mem_cons_self
  · have keys : l.keys = front.keys ++ [k] := by
      unfold AList.keys
      rw [split]
      exact List.map_append
    intro o ho ne
    unfold Ranked at ranked
    rw [keys] at ho ranked
    rcases List.mem_append.mp ho with before | here
    · exact (List.pairwise_append.mp ranked).2.2 o before k List.mem_cons_self counts
    · exact absurd (List.mem_singleton.mp here) ne

end Recent

end Lazuli.General
