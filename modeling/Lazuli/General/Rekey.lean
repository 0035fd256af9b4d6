import Mathlib.Data.List.Induction
import Mathlib.Data.List.Nodup

/-!
Values with named members, written again under other names.

A value is an atom, a list of values, or members under keys. `mapKeys` renames every key at every
depth. `rekey` builds the renamed value member by member, as a program does that writes each
member into a fresh map: a later member takes the place of an earlier one under the same key, and
a key in `lost` is not written at all. `rekey_mapKeys_iff` says when nothing is lost on the way.
-/

namespace Lazuli.General

/-! ### Writing into a fresh map -/

section Assemble

variable {κ β : Type*} [DecidableEq κ]

/-- The member takes the place of one under the same key, or goes behind the others. -/
def setKey (members : List (κ × β)) (k : κ) (b : β) : List (κ × β) :=
  if k ∈ members.map Prod.fst then
    members.map fun member => if member.1 = k then (k, b) else member
  else members ++ [(k, b)]

/-- One member is written. A lost key leaves no trace. -/
def writeMember (lost : κ → Bool) (members : List (κ × β)) (member : κ × β) : List (κ × β) :=
  if lost member.1 then members else setKey members member.1 member.2

def assemble (lost : κ → Bool) (members : List (κ × β)) : List (κ × β) :=
  members.foldl (writeMember lost) []

variable {lost : κ → Bool} {members : List (κ × β)}

theorem assemble_append_singleton (member : κ × β) :
    assemble lost (members ++ [member]) = writeMember lost (assemble lost members) member := by
  simp [assemble]

theorem length_writeMember_le (lost : κ → Bool) (members : List (κ × β)) (member : κ × β) :
    (writeMember lost members member).length ≤ members.length + 1 := by
  unfold writeMember setKey
  split
  · omega
  · split <;> simp

/-- A member that makes the map longer is written behind it. -/
theorem writeMember_of_length {member : κ × β}
    (h : (writeMember lost members member).length = members.length + 1) :
    lost member.1 = false ∧ member.1 ∉ members.map Prod.fst ∧
      writeMember lost members member = members ++ [member] := by
  unfold writeMember setKey at h ⊢
  split at h
  · omega
  · rename_i kept
    split at h
    · simp at h
    · rename_i fresh
      exact ⟨by simpa using kept, fresh, by rw [if_neg kept, if_neg fresh]⟩

theorem writeMember_of_fresh {member : κ × β} (kept : lost member.1 = false)
    (fresh : member.1 ∉ members.map Prod.fst) :
    writeMember lost members member = members ++ [member] := by
  rw [writeMember, if_neg (by simp [kept]), setKey, if_neg fresh]

theorem length_assemble_le (lost : κ → Bool) (members : List (κ × β)) :
    (assemble lost members).length ≤ members.length := by
  induction members using List.reverseRecOn with
  | nil => simp [assemble]
  | append_singleton members member ih =>
      rw [assemble_append_singleton, List.length_append]
      exact Nat.le_trans (length_writeMember_le _ _ member) (by simpa using ih)

/-- Members under different keys are all written, in their order. -/
theorem assemble_eq_self (kept : ∀ member ∈ members, lost member.1 = false)
    (nodup : (members.map Prod.fst).Nodup) : assemble lost members = members := by
  induction members using List.reverseRecOn with
  | nil => rfl
  | append_singleton members member ih =>
      rw [List.map_append, List.map_singleton, ← List.concat_eq_append,
        List.nodup_concat] at nodup
      have before := ih (fun m hm => kept m (List.mem_append_left _ hm)) nodup.2
      rw [assemble_append_singleton, before]
      exact writeMember_of_fresh (kept member (by simp)) nodup.1

/-- As many members come out as go in only when each of them is written behind the others. -/
theorem assemble_of_length (h : (assemble lost members).length = members.length) :
    assemble lost members = members ∧ ∀ member ∈ members, lost member.1 = false := by
  induction members using List.reverseRecOn with
  | nil => exact ⟨rfl, by simp⟩
  | append_singleton members member ih =>
      rw [assemble_append_singleton, List.length_append, List.length_singleton] at h
      have shorter := length_assemble_le lost members
      have grows := length_writeMember_le lost (assemble lost members) member
      obtain ⟨before, kept⟩ := ih (by omega)
      rw [before] at h
      obtain ⟨last, -, written⟩ := writeMember_of_length h
      refine ⟨by rw [assemble_append_singleton, before, written], fun m hm => ?_⟩
      rcases List.mem_append.mp hm with hm | hm
      · exact kept m hm
      · rwa [List.mem_singleton.mp hm]

end Assemble

/-! ### Values -/

inductive Json (κ α : Type*) where
  | atom (a : α)
  | array (items : List (Json κ α))
  | object (members : List (κ × Json κ α))

namespace Json

variable {κ κ' κ'' α : Type*}

/-- Induction with a hypothesis for every item and for every member. -/
@[elab_as_elim, induction_eliminator]
theorem ind {motive : Json κ α → Prop} (atom : ∀ a, motive (.atom a))
    (array : ∀ items, (∀ item ∈ items, motive item) → motive (.array items))
    (object : ∀ members, (∀ member ∈ members, motive member.2) → motive (.object members))
    (v : Json κ α) : motive v :=
  @Json.rec κ α motive (fun items => ∀ item ∈ items, motive item)
    (fun members => ∀ member ∈ members, motive member.2) (fun member => motive member.2)
    atom array object
    (by simp) (fun _ _ first rest => List.forall_mem_cons.mpr ⟨first, rest⟩)
    (by simp) (fun _ _ first rest => List.forall_mem_cons.mpr ⟨first, rest⟩)
    (fun _ _ h => h) v

mutual

/-- The value with every key renamed. -/
def mapKeys (f : κ → κ') : Json κ α → Json κ' α
  | .atom a => .atom a
  | .array items => .array (mapItems f items)
  | .object members => .object (mapMembers f members)

def mapItems (f : κ → κ') : List (Json κ α) → List (Json κ' α)
  | [] => []
  | item :: items => mapKeys f item :: mapItems f items

def mapMembers (f : κ → κ') : List (κ × Json κ α) → List (κ' × Json κ' α)
  | [] => []
  | (k, v) :: members => (f k, mapKeys f v) :: mapMembers f members

end

section Rekey

variable [DecidableEq κ']

mutual

/-- The value built again, each member written under its new key. -/
def rekey (lost : κ' → Bool) (f : κ → κ') : Json κ α → Json κ' α
  | .atom a => .atom a
  | .array items => .array (rekeyItems lost f items)
  | .object members => .object (assemble lost (rekeyMembers lost f members))

def rekeyItems (lost : κ' → Bool) (f : κ → κ') : List (Json κ α) → List (Json κ' α)
  | [] => []
  | item :: items => rekey lost f item :: rekeyItems lost f items

def rekeyMembers (lost : κ' → Bool) (f : κ → κ') :
    List (κ × Json κ α) → List (κ' × Json κ' α)
  | [] => []
  | (k, v) :: members => (f k, rekey lost f v) :: rekeyMembers lost f members

end

end Rekey

mutual

/-- The keys at every depth. -/
def keysOf : Json κ α → List κ
  | .atom _ => []
  | .array items => keysOfItems items
  | .object members => keysOfMembers members

def keysOfItems : List (Json κ α) → List κ
  | [] => []
  | item :: items => keysOf item ++ keysOfItems items

def keysOfMembers : List (κ × Json κ α) → List κ
  | [] => []
  | (k, v) :: members => k :: (keysOf v ++ keysOfMembers members)

end

/-- In every object the members stand under different keys once the keys are renamed. -/
inductive Distinct (g : κ → κ') : Json κ α → Prop
  | atom (a : α) : Distinct g (.atom a)
  | array {items : List (Json κ α)} (items_distinct : ∀ item ∈ items, Distinct g item) :
      Distinct g (.array items)
  | object {members : List (κ × Json κ α)} (nodup : (members.map fun m => g m.1).Nodup)
      (members_distinct : ∀ member ∈ members, Distinct g member.2) : Distinct g (.object members)

section Equations

variable (f : κ → κ') (items : List (Json κ α)) (members : List (κ × Json κ α))

theorem mapItems_eq : mapItems f items = items.map (mapKeys f) := by
  induction items with
  | nil => rfl
  | cons item items ih => rw [mapItems, ih, List.map_cons]

theorem mapMembers_eq : mapMembers f members = members.map fun m => (f m.1, mapKeys f m.2) := by
  induction members with
  | nil => rfl
  | cons member members ih => rw [mapMembers, ih, List.map_cons]

theorem rekeyItems_eq [DecidableEq κ'] (lost : κ' → Bool) :
    rekeyItems lost f items = items.map (rekey lost f) := by
  induction items with
  | nil => rfl
  | cons item items ih => rw [rekeyItems, ih, List.map_cons]

theorem rekeyMembers_eq [DecidableEq κ'] (lost : κ' → Bool) :
    rekeyMembers lost f members = members.map fun m => (f m.1, rekey lost f m.2) := by
  induction members with
  | nil => rfl
  | cons member members ih => rw [rekeyMembers, ih, List.map_cons]

@[simp] theorem mapKeys_id (v : Json κ α) : mapKeys id v = v := by
  induction v with
  | atom a => rfl
  | array items ih =>
      rw [mapKeys, mapItems_eq, List.map_congr_left ih, List.map_id']
  | object members ih =>
      have same : ∀ member ∈ members, (id member.1, mapKeys id member.2) = id member :=
        fun member hmember => Prod.ext rfl (ih member hmember)
      rw [mapKeys, mapMembers_eq, List.map_congr_left same, List.map_id]

variable {items} {members}

theorem mem_keysOf_array {k : κ} : k ∈ keysOf (.array items) ↔ ∃ item ∈ items, k ∈ keysOf item := by
  rw [keysOf]
  induction items with
  | nil => simp [keysOfItems]
  | cons item items ih => rw [keysOfItems, List.mem_append, ih, List.exists_mem_cons_iff]

theorem mem_keysOf_object {k : κ} :
    k ∈ keysOf (.object members) ↔ ∃ member ∈ members, k = member.1 ∨ k ∈ keysOf member.2 := by
  rw [keysOf]
  induction members with
  | nil => simp [keysOfMembers]
  | cons member members ih =>
      rw [keysOfMembers, List.mem_cons, List.mem_append, ih, List.exists_mem_cons_iff, or_assoc]

end Equations

/-! ### When nothing is lost -/

section Faithful

variable [DecidableEq κ''] {lost : κ'' → Bool} {f : κ' → κ''} {s top : κ → κ'} {g : κ → κ''}

/-- Of an object, with its own renaming at the top. -/
theorem rekey_object_iff {members : List (κ × Json κ α)}
    (nodup : (members.map fun m => g m.1).Nodup)
    (inner : ∀ member ∈ members, rekey lost f (mapKeys s member.2) = mapKeys g member.2 ↔
      ∀ k ∈ keysOf member.2, f (s k) = g k ∧ lost (g k) = false) :
    rekey lost f (.object (members.map fun m => (top m.1, mapKeys s m.2))) =
        mapKeys g (.object members) ↔
      ∀ member ∈ members, (f (top member.1) = g member.1 ∧ lost (g member.1) = false) ∧
        ∀ k ∈ keysOf member.2, f (s k) = g k ∧ lost (g k) = false := by
  rw [rekey, mapKeys, rekeyMembers_eq, mapMembers_eq, List.map_map, object.injEq]
  constructor
  · intro h member hmember
    have all := assemble_of_length (by rw [h]; simp)
    rw [all.1] at h
    have same := List.map_inj_left.mp h member hmember
    have kept := all.2 _ (List.mem_map_of_mem hmember)
    simp only [Function.comp_apply, Prod.mk.injEq] at same kept
    exact ⟨⟨same.1, same.1 ▸ kept⟩, (inner member hmember).mp same.2⟩
  · intro h
    have same : ∀ member ∈ members,
        ((fun m => (f m.1, rekey lost f m.2)) ∘ fun m => (top m.1, mapKeys s m.2)) member =
          (g member.1, mapKeys g member.2) := by
      intro member hmember
      obtain ⟨⟨key, -⟩, below⟩ := h member hmember
      exact Prod.ext key ((inner member hmember).mpr below)
    rw [List.map_congr_left same]
    refine assemble_eq_self (fun member hmember => ?_) (by rwa [List.map_map])
    obtain ⟨source, hsource, rfl⟩ := List.mem_map.mp hmember
    exact (h source hsource).1.2

/-- Exactly the keys of `g` come out when each key finds its own and none of them is lost. -/
theorem rekey_mapKeys_iff {v : Json κ α} (h : Distinct g v) :
    rekey lost f (mapKeys s v) = mapKeys g v ↔
      ∀ k ∈ keysOf v, f (s k) = g k ∧ lost (g k) = false := by
  induction v with
  | atom a => simp [mapKeys, rekey, keysOf]
  | array items ih =>
      cases h with
      | array distinct =>
      have inner := fun item hitem => ih item hitem (distinct item hitem)
      rw [mapKeys, mapKeys, rekey, rekeyItems_eq, mapItems_eq, mapItems_eq, List.map_map,
        array.injEq, List.map_inj_left]
      simp only [mem_keysOf_array]
      constructor
      · rintro same k ⟨item, hitem, hk⟩
        exact (inner item hitem).mp (same item hitem) k hk
      · exact fun same item hitem => (inner item hitem).mpr fun k hk => same k ⟨item, hitem, hk⟩
  | object members ih =>
      cases h with
      | object nodup distinct =>
      have inner := fun member hmember => ih member hmember (distinct member hmember)
      rw [mapKeys, mapMembers_eq, rekey_object_iff nodup inner]
      simp only [mem_keysOf_object]
      constructor
      · rintro same k ⟨member, hmember, rfl | hk⟩
        · exact (same member hmember).1
        · exact (same member hmember).2 k hk
      · exact fun same member hmember =>
          ⟨same _ ⟨member, hmember, .inl rfl⟩, fun k hk => same k ⟨member, hmember, .inr hk⟩⟩

end Faithful

end Json

end Lazuli.General
