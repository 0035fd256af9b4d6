import Mathlib
import Lazuli.General.CamelCase
import Lazuli.General.Lookup
import Lazuli.General.Rekey

/-!
The keys on the wire (`case-mapper.ts` in the runtime, `naming.rs` in `lazuli_codegen_ts`,
`format.rs` and `sdk.rs` in the TypeScript generator).

The Go side reads and writes every field under its own name. A caller of the SDK has the field
under its SDK key instead, and the client renames the keys of every body: on the way out with
`camelToWireDeep`, on the way in with `snakeToCamelDeep`. A slot that the plain caser would not
give its name back is pinned in the `fields` map of the command. The map is made from the slots
alone and is applied at every depth.
-/

namespace Lazuli.Sdk.WireKeys

open Lazuli.General

abbrev Key := List Char

/-! ### The casers -/

/-- The SDK key of a name (`lower_camel_export`). -/
def lowerCamelExport (s : Key) : Key :=
  CamelCase.camel ((s.splitOnP fun c => c = '_' || c = '-').filter (· ≠ []))

/-- An underscore in front of every capital but a first one. -/
def camelToSnakeKey (key : Key) : Key := SnakeCase.snake (fun _ => true) key

/-- The generator's port of `camelToSnakeKey` (`camel_to_snake_wire`). -/
def camelToSnakeWire (key : Key) : Key := camelToSnakeKey key

/-- The loop of `snakeToCamelKey`. An underscore at either end of the key stays. -/
def snakeToCamelFrom (first upper : Bool) : Key → Key
  | [] => []
  | ch :: rest =>
      if ch = '_' ∧ first = false ∧ rest ≠ [] then snakeToCamelFrom false true rest
      else (if upper then ch.toUpper else ch) :: snakeToCamelFrom false false rest

def snakeToCamelKey (key : Key) : Key := snakeToCamelFrom true false key

/-! ### The pinned keys -/

/-- The entries of `wire_key_fields_literal`. -/
def wireKeyFields (fieldNames : List Key) : List (Key × Key) :=
  fieldNames.filterMap fun tag =>
    let sdkKey := lowerCamelExport tag
    if camelToSnakeWire sdkKey = tag then none else some (sdkKey, tag)

/-- A spec that pins nothing has no map. -/
def wireKeyFieldsLiteral (fieldNames : List Key) : Option (List (Key × Key)) :=
  if wireKeyFields fieldNames = [] then none else some (wireKeyFields fieldNames)

/-- A property of an object literal. The last entry of a name is the one that counts. -/
def property (fields : List (Key × Key)) (k : Key) : Option Key := fields.reverse.lookup k

/-- The key a key of the body is sent under (`mapKey` in `camelToWireDeep`). -/
def wireKey (fields : Option (List (Key × Key))) (k : Key) : Key :=
  match fields with
  | none => camelToSnakeKey k
  | some fields => (property fields k).getD (camelToSnakeKey k)

/-! ### The bodies -/

section Bodies

variable {α : Type*}

/-- To assign `out["__proto__"]` sets the prototype of `out` and writes no member. -/
def setsPrototype (k : Key) : Bool := k = "__proto__".toList

def deepRekey (value : Json Key α) (mapKey : Key → Key) : Json Key α :=
  value.rekey setsPrototype mapKey

def camelToWireDeep (value : Json Key α) (fields : Option (List (Key × Key))) : Json Key α :=
  deepRekey value (wireKey fields)

def snakeToCamelDeep (value : Json Key α) : Json Key α := deepRekey value snakeToCamelKey

end Bodies

/-! ### The declared types -/

/-- A name of the DSL. -/
def isIdentifier (s : Key) : Bool :=
  s.head?.any (fun c => c.isAlpha || c = '_') && s.all fun c => c.isAlphanum || c = '_'

/-- The types with names in them. What is in a scalar is of no account here. -/
inductive Ty where
  | scalar
  | many (item : Ty)
  | record (name : Key)
  deriving DecidableEq

structure Field where
  name : Key
  type : Ty

/-- The fields of each record. -/
abbrev Records := Key → List Field

/-- Identifiers, and no two with the same SDK key. -/
structure Keyed (fields : List Field) : Prop where
  identifiers : ∀ field ∈ fields, isIdentifier field.name = true
  sdkKeys : (fields.map fun field => lowerCamelExport field.name).Nodup

section Values

variable {α : Type*}

/-- The values of a type, under the names of the DSL: an object has members under names of the
record's fields, each once. A field that may be left out may also hold `null`, an atom. -/
inductive HasType (records : Records) : Json Key α → Ty → Prop
  | atom (a : α) (t : Ty) : HasType records (.atom a) t
  | array {items : List (Json Key α)} {t : Ty} (typed : ∀ item ∈ items, HasType records item t) :
      HasType records (.array items) (.many t)
  | object {members : List (Key × Json Key α)} {name : Key} (nodup : (members.map Prod.fst).Nodup)
      (named : ∀ member ∈ members, member.1 ∈ (records name).map Field.name)
      (typed : ∀ member ∈ members, ∀ field ∈ records name, field.name = member.1 →
        HasType records member.2 field.type) : HasType records (.object members) (.record name)

/-- The members of an input with these slots. -/
structure InputOf (records : Records) (slots : List Field)
    (members : List (Key × Json Key α)) : Prop where
  nodup : (members.map Prod.fst).Nodup
  named : ∀ member ∈ members, member.1 ∈ slots.map Field.name
  typed : ∀ member ∈ members, ∀ slot ∈ slots, slot.name = member.1 →
    HasType records member.2 slot.type

/-- What a caller of the command gives: SDK keys at every depth. -/
def commandInput (members : List (Key × Json Key α)) : Json Key α :=
  .object (members.map fun m => (lowerCamelExport m.1, m.2.mapKeys lowerCamelExport))

/-- What a caller of the query gives: the arguments are declared under their own names. -/
def queryInput (members : List (Key × Json Key α)) : Json Key α :=
  .object (members.map fun m => (m.1, m.2.mapKeys lowerCamelExport))

/-- The body arrives under the names that the Go tags have. -/
def Sends (slots : List Field) (input : Json Key α) (members : List (Key × Json Key α)) : Prop :=
  camelToWireDeep input (wireKeyFieldsLiteral (slots.map Field.name)) = .object members

/-- The response arrives under the keys that the TypeScript type has. -/
def Receives (response : Json Key α) : Prop :=
  snakeToCamelDeep response = response.mapKeys lowerCamelExport

end Values

/-! ### SDK keys, character by character -/

section Camel

/-- A name or a part of one: what an identifier is made of. -/
def Named (s : Key) : Prop := ∀ c ∈ s, c.isAlphanum = true ∨ c = '_'

/-- The rest of an SDK key. After an underscore the next character is a capital. -/
def camelAfter (upper : Bool) : Key → Key
  | [] => []
  | c :: rest =>
      if c = '_' ∨ c = '-' then camelAfter true rest
      else (if upper then c.toUpper else c) :: camelAfter false rest

variable {c : Char} {s : Key}

theorem Named.tail (h : Named (c :: s)) : Named s := fun d hd => h d (List.mem_cons_of_mem _ hd)

theorem Named.separator_iff (h : Named (c :: s)) : c = '_' ∨ c = '-' ↔ c = '_' := by
  constructor
  · rintro (rfl | rfl)
    · rfl
    · rcases h '-' List.mem_cons_self with alphanum | same
      · cases alphanum
      · exact same
  · exact .inl

theorem Named.isAlphanum (h : Named (c :: s)) (hc : c ≠ '_') : c.isAlphanum = true :=
  (h c List.mem_cons_self).resolve_right hc

theorem splitOnP_camelAfter (s : Key) :
    ∃ word words, (s.splitOnP fun c => c = '_' || c = '-') = word :: words ∧
      camelAfter false s = word ++ CamelCase.upperCamel words ∧
      camelAfter true s = CamelCase.capital word ++ CamelCase.upperCamel words := by
  induction s with
  | nil => exact ⟨[], [], by simp, rfl, rfl⟩
  | cons c s ih =>
      obtain ⟨word, words, split, plain, capital⟩ := ih
      rw [List.splitOnP_cons_eq_if_modifyHead, split]
      by_cases hc : c = '_' ∨ c = '-'
      · refine ⟨[], word :: words, if_pos (by simpa using hc), ?_, ?_⟩
        · simpa [camelAfter, hc] using capital
        · simpa [camelAfter, hc, CamelCase.capital] using capital
      · refine ⟨c :: word, words, ?_, ?_, ?_⟩
        · rw [if_neg (by simpa using hc)]
          rfl
        · simp [camelAfter, hc, plain]
        · simp [camelAfter, hc, plain, CamelCase.capital]

theorem upperCamel_filter (ws : List (List Char)) :
    CamelCase.upperCamel (ws.filter (· ≠ [])) = CamelCase.upperCamel ws := by
  induction ws with
  | nil => rfl
  | cons w ws ih =>
      rw [CamelCase.upperCamel_cons, ← ih]
      by_cases hw : w = []
      · simp [hw, CamelCase.capital]
      · simp [hw]

theorem lowerCamelExport_separator (h : c = '_' ∨ c = '-') :
    lowerCamelExport (c :: s) = lowerCamelExport s := by
  rw [lowerCamelExport, List.splitOnP_cons_eq_if_modifyHead, if_pos (by simpa using h)]
  simp [lowerCamelExport]

theorem lowerCamelExport_cons (h : ¬ (c = '_' ∨ c = '-')) :
    lowerCamelExport (c :: s) = c :: camelAfter false s := by
  obtain ⟨word, words, split, plain, -⟩ := splitOnP_camelAfter s
  rw [lowerCamelExport, List.splitOnP_cons_eq_if_modifyHead, if_neg (by simpa using h), split,
    List.modifyHead_cons, List.filter_cons_of_pos (by simp), CamelCase.camel_cons,
    upperCamel_filter, plain, List.cons_append]

theorem isAlphanum_toUpper (h : c.isAlphanum = true) : c.toUpper.isAlphanum = true := by
  by_cases lower : c.isLower = true
  · simp [Char.isAlphanum, Char.isAlpha, lower]
  · rwa [Char.toUpper_eq_of_not_isLower lower]

theorem isAlphanum_camelAfter (h : Named s) (upper : Bool) :
    ∀ c ∈ camelAfter upper s, c.isAlphanum = true := by
  induction s generalizing upper with
  | nil => simp [camelAfter]
  | cons c s ih =>
      rw [camelAfter]
      by_cases hc : c = '_' ∨ c = '-'
      · rw [if_pos hc]
        exact ih h.tail true
      · rw [if_neg hc, List.forall_mem_cons]
        have alphanum := h.isAlphanum fun same => hc (.inl same)
        refine ⟨?_, ih h.tail false⟩
        cases upper with
        | false => exact alphanum
        | true => exact isAlphanum_toUpper alphanum

/-- An SDK key has no underscore. -/
theorem isAlphanum_lowerCamelExport (h : Named s) :
    ∀ c ∈ lowerCamelExport s, c.isAlphanum = true := by
  induction s with
  | nil => simp [lowerCamelExport, CamelCase.camel]
  | cons c s ih =>
      by_cases hc : c = '_' ∨ c = '-'
      · rw [lowerCamelExport_separator hc]
        exact ih h.tail
      · rw [lowerCamelExport_cons hc, List.forall_mem_cons]
        exact ⟨h.isAlphanum fun same => hc (.inl same), isAlphanum_camelAfter h.tail false⟩

theorem underscore_notMem_lowerCamelExport (h : Named s) : '_' ∉ lowerCamelExport s :=
  fun hmem => absurd (isAlphanum_lowerCamelExport h _ hmem) (by simp)

/-- A name without underscores is its own SDK key. -/
theorem lowerCamelExport_eq_self (h : Named s) (plain : '_' ∉ s) : lowerCamelExport s = s := by
  have word : (s.splitOnP fun c => c = '_' || c = '-') = [s] := by
    refine List.splitOnP_eq_singleton fun c hc => ?_
    rcases h c hc with alphanum | rfl
    · simp only [Bool.or_eq_false_iff, decide_eq_false_iff_not]
      constructor <;> rintro rfl <;> cases alphanum
    · exact absurd hc plain
  rw [lowerCamelExport, word]
  cases s with
  | nil => rfl
  | cons c s => simp

end Camel

/-! ### On the way in -/

section Inbound

variable {c : Char} {s : Key}

theorem snakeToCamelFrom_eq (h : Named s) (ends : s.getLast? ≠ some '_') (upper : Bool) :
    snakeToCamelFrom false upper s = camelAfter upper s := by
  induction s generalizing upper with
  | nil => rfl
  | cons c s ih =>
      have ends' : s.getLast? ≠ some '_' := by
        cases s with
        | nil => simp
        | cons d s => simpa using ends
      rw [snakeToCamelFrom, camelAfter]
      by_cases hc : c = '_'
      · have more : s ≠ [] := by
          rintro rfl
          simp [hc] at ends
        rw [if_pos ⟨hc, rfl, more⟩, if_pos (.inl hc)]
        exact ih h.tail ends' true
      · rw [if_neg (fun both => hc both.1), if_neg (mt h.separator_iff.mp hc),
          ih h.tail ends' false]

/-- The last character of a name is written, whatever it is. -/
theorem underscore_mem_snakeToCamelFrom (ends : s.getLast? = some '_') (first upper : Bool) :
    '_' ∈ snakeToCamelFrom first upper s := by
  induction s generalizing first upper with
  | nil => simp at ends
  | cons c s ih =>
      rw [snakeToCamelFrom]
      cases s with
      | nil =>
          obtain rfl : c = '_' := by simpa using ends
          cases upper <;> simp [Char.toUpper_eq_of_not_isLower]
      | cons d s =>
          have ends' : (d :: s).getLast? = some '_' := by simpa using ends
          split
          · exact ih ends' false true
          · exact List.mem_cons_of_mem _ (ih ends' false false)

/-- The client and the generator agree on the names without an underscore at an end. -/
theorem snakeToCamelKey_eq_iff (h : Named s) :
    snakeToCamelKey s = lowerCamelExport s ↔ s.head? ≠ some '_' ∧ s.getLast? ≠ some '_' := by
  constructor
  · intro same
    have none := underscore_notMem_lowerCamelExport h
    rw [← same] at none
    constructor
    · intro opens
      cases s with
      | nil => simp at opens
      | cons c s =>
          obtain rfl : c = '_' := by simpa using opens
          simp [snakeToCamelKey, snakeToCamelFrom] at none
    · exact fun ends => none (underscore_mem_snakeToCamelFrom ends true false)
  · rintro ⟨opens, ends⟩
    cases s with
    | nil => rfl
    | cons c s =>
        have hc : c ≠ '_' := fun same => opens (by simp [same])
        have ends' : s.getLast? ≠ some '_' := by
          cases s with
          | nil => simp
          | cons d s => simpa using ends
        rw [snakeToCamelKey, snakeToCamelFrom, if_neg (by simp),
          lowerCamelExport_cons (mt h.separator_iff.mp hc), snakeToCamelFrom_eq h.tail ends']
        rfl

end Inbound

/-! ### On the way out -/

section Outbound

variable {c : Char} {s : Key}

/-- Behind every underscore stands a small letter. -/
def Follows (s : Key) : Prop :=
  ∀ pre post, s = pre ++ '_' :: post → ∃ c ∈ post.head?, c.isLower = true

/-- A name in snake case. -/
structure Snake (s : Key) : Prop where
  small : ∀ c ∈ s, c.isUpper = false
  opens : s.head? ≠ some '_'
  follows : Follows s

theorem Follows.tail (h : Follows (c :: s)) : Follows s := fun pre post split =>
  h (c :: pre) post (by rw [split, List.cons_append])

theorem Follows.opens (h : Follows ('_' :: s)) : ∃ c ∈ s.head?, c.isLower = true := h [] s rfl

theorem Follows.cons (h : Follows s) (hc : c = '_' → ∃ d ∈ s.head?, d.isLower = true) :
    Follows (c :: s) := by
  intro pre post split
  cases pre with
  | nil =>
      obtain ⟨rfl, rfl⟩ := List.cons.inj split
      exact hc rfl
  | cons p pre => exact h pre post (List.cons.inj split).2

theorem toLower_toUpper_of_isLower (h : c.isLower = true) : c.toUpper.toLower = c := by
  rw [Char.toLower_toUpper_eq_toLower]
  exact Char.toLower_eq_of_not_isUpper (Char.not_isUpper_of_isLower h)

/-- What the one caser takes out, the other puts back. -/
theorem snakeAfter_camelAfter (prev : Char) (h : Named s) (small : ∀ c ∈ s, c.isUpper = false)
    (follows : Follows s) :
    SnakeCase.snakeAfter (fun _ => true) prev (camelAfter false s) = s ∧
      ((∃ c ∈ s.head?, c.isLower = true) →
        SnakeCase.snakeAfter (fun _ => true) prev (camelAfter true s) = '_' :: s) := by
  induction s generalizing prev with
  | nil => simp [camelAfter, SnakeCase.snakeAfter]
  | cons c s ih =>
      have below := fun prev => ih prev h.tail (fun d hd => small d (List.mem_cons_of_mem _ hd))
        follows.tail
      constructor
      · rw [camelAfter]
        by_cases hc : c = '_'
        · subst hc
          rw [if_pos (.inl rfl)]
          exact (below prev).2 follows.opens
        · have hupper := small c List.mem_cons_self
          rw [if_neg (mt h.separator_iff.mp hc), SnakeCase.snakeAfter]
          simp [hupper, (below _).1, Char.toLower_eq_of_not_isUpper]
      · rintro ⟨d, hd, lower⟩
        obtain rfl : c = d := by simpa using hd
        have hc : ¬ (c = '_' ∨ c = '-') := by
          rintro (rfl | rfl) <;> cases lower
        have hupper : c.toUpper.isUpper = true := by
          rw [Char.isUpper_toUpper_eq_isAlpha]
          simp [Char.isAlpha, lower]
        rw [camelAfter, if_neg hc, SnakeCase.snakeAfter]
        simp [hupper, (below _).1, toLower_toUpper_of_isLower lower]

theorem follows_snakeAfter (prev : Char) (h : ∀ c ∈ s, c.isAlphanum = true) :
    Follows (SnakeCase.snakeAfter (fun _ => true) prev s) := by
  induction s generalizing prev with
  | nil => exact fun pre post split => by simp [SnakeCase.snakeAfter] at split
  | cons c s ih =>
      have hc := SnakeCase.toLower_ne_underscore (h c List.mem_cons_self)
      have rest : Follows (c.toLower :: SnakeCase.snakeAfter (fun _ => true) c s) :=
        (ih c fun d hd => h d (List.mem_cons_of_mem _ hd)).cons fun same => absurd same hc
      rw [SnakeCase.snakeAfter]
      cases hupper : c.isUpper with
      | false => simpa using rest
      | true =>
          simp only [Bool.true_and, if_true, List.singleton_append]
          refine rest.cons fun _ => ⟨c.toLower, rfl, ?_⟩
          rw [Char.isLower_toLower_eq_isAlpha]
          simp [Char.isAlpha, hupper]

theorem small_snakeAfter (prev : Char) (s : Key) :
    ∀ c ∈ SnakeCase.snakeAfter (fun _ => true) prev s, c.isUpper = false := by
  induction s generalizing prev with
  | nil => simp [SnakeCase.snakeAfter]
  | cons c s ih =>
      rw [SnakeCase.snakeAfter, List.forall_mem_append, List.forall_mem_cons]
      refine ⟨?_, Char.isUpper_toLower_eq_false c, ih c⟩
      split <;> simp [Char.isUpper]

/-- The plain caser leaves no capital. -/
theorem small_camelToSnakeKey (s : Key) : ∀ c ∈ camelToSnakeKey s, c.isUpper = false := by
  cases s with
  | nil => simp [camelToSnakeKey, SnakeCase.snake]
  | cons c s =>
      exact List.forall_mem_cons.mpr ⟨Char.isUpper_toLower_eq_false c, small_snakeAfter c s⟩

theorem snake_camelToSnakeKey (h : ∀ c ∈ s, c.isAlphanum = true) : Snake (camelToSnakeKey s) := by
  refine ⟨small_camelToSnakeKey s, ?_, ?_⟩
  · exact fun opens => SnakeCase.head_snake h '_' opens rfl
  · cases s with
    | nil => exact fun pre post split => by simp [camelToSnakeKey, SnakeCase.snake] at split
    | cons c s =>
        exact (follows_snakeAfter c fun d hd => h d (List.mem_cons_of_mem _ hd)).cons fun same =>
          absurd same (SnakeCase.toLower_ne_underscore (h c List.mem_cons_self))

/-- The plain caser gives a name back from its SDK key exactly when it is in snake case. -/
theorem camelToSnakeKey_lowerCamelExport_iff (h : Named s) :
    camelToSnakeKey (lowerCamelExport s) = s ↔ Snake s := by
  constructor
  · intro same
    rw [← same]
    exact snake_camelToSnakeKey (isAlphanum_lowerCamelExport h)
  · rintro ⟨small, opens, follows⟩
    cases s with
    | nil => rfl
    | cons c s =>
        have hc : c ≠ '_' := fun same => opens (by simp [same])
        rw [lowerCamelExport_cons (mt h.separator_iff.mp hc), camelToSnakeKey, SnakeCase.snake,
          (snakeAfter_camelAfter c h.tail (fun d hd => small d (List.mem_cons_of_mem _ hd))
            follows.tail).1,
          Char.toLower_eq_of_not_isUpper (by simp [small c List.mem_cons_self])]

/-- Nothing is done to a key without capitals. -/
theorem camelToSnakeKey_eq_self (h : ∀ c ∈ s, c.isUpper = false) : camelToSnakeKey s = s := by
  have after : ∀ (prev : Char) (s : Key), (∀ c ∈ s, c.isUpper = false) →
      SnakeCase.snakeAfter (fun _ => true) prev s = s := by
    intro prev s
    induction s generalizing prev with
    | nil => exact fun _ => rfl
    | cons c s ih =>
        intro h
        have hupper := h c List.mem_cons_self
        rw [SnakeCase.snakeAfter, ih c fun d hd => h d (List.mem_cons_of_mem _ hd)]
        simp [hupper, Char.toLower_eq_of_not_isUpper]
  cases s with
  | nil => rfl
  | cons c s =>
      rw [camelToSnakeKey, SnakeCase.snake, after c s fun d hd => h d (List.mem_cons_of_mem _ hd),
        Char.toLower_eq_of_not_isUpper (by simp [h c List.mem_cons_self])]

end Outbound

/-! ### What a spec pins -/

section Pinned

variable {names : List Key} {k n : Key}

theorem mem_wireKeyFields {tag : Key} :
    (k, tag) ∈ wireKeyFields names ↔
      tag ∈ names ∧ lowerCamelExport tag = k ∧ camelToSnakeKey k ≠ tag := by
  rw [wireKeyFields, List.mem_filterMap]
  constructor
  · rintro ⟨name, hname, pinned⟩
    by_cases lossless : camelToSnakeWire (lowerCamelExport name) = name
    · cases (if_pos lossless).symm.trans pinned
    · have entry := (if_neg lossless).symm.trans pinned
      obtain ⟨rfl, rfl⟩ := Prod.mk.inj (Option.some.inj entry)
      exact ⟨hname, rfl, lossless⟩
  · rintro ⟨htag, rfl, lossy⟩
    exact ⟨tag, htag, if_neg lossy⟩

theorem wireKey_literal (names : List Key) (k : Key) :
    wireKey (wireKeyFieldsLiteral names) k =
      (property (wireKeyFields names) k).getD (camelToSnakeKey k) := by
  rw [wireKeyFieldsLiteral]
  split
  · rename_i none
    rw [none]
    rfl
  · rfl

theorem mem_of_property {entries : List (Key × Key)} {tag : Key} (h : property entries k = some tag) :
    (k, tag) ∈ entries := by
  obtain ⟨pre, post, rfl, -⟩ := lookup_reverse_eq_some_iff.mp h
  exact List.mem_append_right _ List.mem_cons_self

/-- Under the SDK key of a slot, the slot's own name is sent. -/
theorem wireKey_of_mem (nodup : (names.map lowerCamelExport).Nodup) (h : n ∈ names) :
    wireKey (wireKeyFieldsLiteral names) (lowerCamelExport n) = n := by
  rw [wireKey_literal]
  cases hfound : property (wireKeyFields names) (lowerCamelExport n) with
  | some tag =>
      obtain ⟨htag, same, -⟩ := mem_wireKeyFields.mp (mem_of_property hfound)
      exact List.inj_on_of_nodup_map nodup htag h same
  | none =>
      by_contra lossy
      have pinned : (lowerCamelExport n, n) ∈ wireKeyFields names :=
        mem_wireKeyFields.mpr ⟨h, rfl, lossy⟩
      have missed := List.lookup_eq_none_iff.mp hfound _ (List.mem_reverse.mpr pinned)
      simp at missed

/-- A key that is no slot's SDK key goes through the plain caser. -/
theorem wireKey_of_notMem (h : ∀ name ∈ names, lowerCamelExport name ≠ k) :
    wireKey (wireKeyFieldsLiteral names) k = camelToSnakeKey k := by
  rw [wireKey_literal]
  cases hfound : property (wireKeyFields names) k with
  | none => rfl
  | some tag =>
      obtain ⟨htag, same, -⟩ := mem_wireKeyFields.mp (mem_of_property hfound)
      exact absurd same (h tag htag)

/-- A slot, or a name in snake case that has the SDK key of no slot. -/
def Recovered (names : List Key) (n : Key) : Prop :=
  n ∈ names ∨ Snake n ∧ ∀ name ∈ names, lowerCamelExport name ≠ lowerCamelExport n

theorem wireKey_sdkKey_iff (nodup : (names.map lowerCamelExport).Nodup) (hn : Named n) :
    wireKey (wireKeyFieldsLiteral names) (lowerCamelExport n) = n ↔ Recovered names n := by
  by_cases taken : ∃ name ∈ names, lowerCamelExport name = lowerCamelExport n
  · obtain ⟨name, hname, same⟩ := taken
    have sent := wireKey_of_mem nodup hname
    rw [same] at sent
    rw [sent]
    constructor
    · rintro rfl
      exact .inl hname
    · rintro (mem | ⟨-, free⟩)
      · exact List.inj_on_of_nodup_map nodup hname mem same
      · exact absurd same (free name hname)
  · have free : ∀ name ∈ names, lowerCamelExport name ≠ lowerCamelExport n :=
      fun name hname same => taken ⟨name, hname, same⟩
    rw [wireKey_of_notMem free, camelToSnakeKey_lowerCamelExport_iff hn]
    exact ⟨fun snake => .inr ⟨snake, free⟩,
      fun recovered => (recovered.resolve_left fun mem => taken ⟨n, mem, rfl⟩).1⟩

/-- An argument is declared under its own name, which is a key of the map only by being its own
SDK key. -/
theorem wireKey_self_iff (nodup : (names.map lowerCamelExport).Nodup)
    (named : ∀ name ∈ names, Named name) (h : n ∈ names) :
    wireKey (wireKeyFieldsLiteral names) n = n ↔ (∀ c ∈ n, c.isUpper = false) ∨ '_' ∉ n := by
  by_cases plain : '_' ∈ n
  · have free : ∀ name ∈ names, lowerCamelExport name ≠ n := by
      rintro name hname rfl
      exact underscore_notMem_lowerCamelExport (named name hname) plain
    rw [wireKey_of_notMem free]
    constructor
    · intro same
      refine .inl fun c hc => ?_
      rw [← same] at hc
      exact small_camelToSnakeKey n c hc
    · exact fun either => camelToSnakeKey_eq_self (either.resolve_right (not_not.mpr plain))
  · have sent := wireKey_of_mem nodup h
    rw [lowerCamelExport_eq_self (named n h) plain] at sent
    exact ⟨fun _ => .inr plain, fun _ => sent⟩

end Pinned

/-! ### What arrives -/

section Arrives

variable {α : Type*} {records : Records} {slots : List Field}
  {members : List (Key × Json Key α)} {v : Json Key α} {t : Ty}

theorem named_of_identifier {s : Key} (h : isIdentifier s = true) : Named s := by
  intro c hc
  simp only [isIdentifier, Bool.and_eq_true, List.all_eq_true] at h
  simpa using h.2 c hc

theorem sdkKeys_of_named (keyed : Keyed slots) (nodup : (members.map Prod.fst).Nodup)
    (named : ∀ member ∈ members, member.1 ∈ slots.map Field.name) :
    (members.map fun m => lowerCamelExport m.1).Nodup := by
  have sdk : ((slots.map Field.name).map lowerCamelExport).Nodup := by
    rw [List.map_map]
    exact keyed.sdkKeys
  have inj := List.inj_on_of_nodup_map sdk
  have := (List.nodup_map_iff_inj_on nodup).mpr fun a ha b hb => by
    obtain ⟨m, hm, rfl⟩ := List.mem_map.mp ha
    obtain ⟨n, hn, rfl⟩ := List.mem_map.mp hb
    exact inj (named m hm) (named n hn)
  rwa [List.map_map] at this

/-- In every object of a typed value the names are apart, and their SDK keys are. -/
theorem distinct_of_hasType (hrecords : ∀ name, Keyed (records name)) (h : HasType records v t) :
    v.Distinct id ∧ v.Distinct lowerCamelExport ∧ ∀ n ∈ v.keysOf, Named n := by
  induction v generalizing t with
  | atom a => exact ⟨.atom a, .atom a, by simp [Json.keysOf]⟩
  | array items ih =>
      cases h with
      | array typed =>
      refine ⟨.array fun item hitem => (ih item hitem (typed item hitem)).1,
        .array fun item hitem => (ih item hitem (typed item hitem)).2.1, fun n hn => ?_⟩
      obtain ⟨item, hitem, below⟩ := Json.mem_keysOf_array.mp hn
      exact (ih item hitem (typed item hitem)).2.2 n below
  | object members ih =>
      cases h with
      | @object _ name nodup named typed =>
      have inner : ∀ member ∈ members, member.2.Distinct id ∧
          member.2.Distinct lowerCamelExport ∧ ∀ n ∈ member.2.keysOf, Named n := by
        intro member hmember
        obtain ⟨field, hfield, same⟩ := List.mem_map.mp (named member hmember)
        exact ih member hmember (typed member hmember field hfield same)
      refine ⟨.object nodup fun member hmember => (inner member hmember).1,
        .object (sdkKeys_of_named (hrecords name) nodup named) fun member hmember =>
          (inner member hmember).2.1, fun n hn => ?_⟩
      obtain ⟨member, hmember, rfl | below⟩ := Json.mem_keysOf_object.mp hn
      · obtain ⟨field, hfield, same⟩ := List.mem_map.mp (named member hmember)
        rw [← same]
        exact named_of_identifier ((hrecords name).identifiers field hfield)
      · exact (inner member hmember).2.2 n below

theorem distinct_of_input (hrecords : ∀ name, Keyed (records name))
    (h : InputOf records slots members) :
    ∀ member ∈ members, member.2.Distinct id ∧ ∀ n ∈ member.2.keysOf, Named n := by
  intro member hmember
  obtain ⟨slot, hslot, same⟩ := List.mem_map.mp (h.named member hmember)
  obtain ⟨distinct, -, named⟩ := distinct_of_hasType hrecords (h.typed member hmember slot hslot same)
  exact ⟨distinct, named⟩

/-- A nested name that arrives as itself. `__proto__` never does. -/
def Arrives (slots : List Field) (n : Key) : Prop :=
  Recovered (slots.map Field.name) n ∧ setsPrototype n = false

/-- An input arrives exactly when each name at the top is sent as itself and each name below it
arrives. -/
theorem sends_iff (top : Key → Key) (hrecords : ∀ name, Keyed (records name)) (hslots : Keyed slots)
    (h : InputOf records slots members) :
    Sends slots (.object (members.map fun m => (top m.1, m.2.mapKeys lowerCamelExport))) members ↔
      ∀ member ∈ members,
        (wireKey (wireKeyFieldsLiteral (slots.map Field.name)) (top member.1) = member.1 ∧
          setsPrototype member.1 = false) ∧ ∀ n ∈ member.2.keysOf, Arrives slots n := by
  have sdk : ((slots.map Field.name).map lowerCamelExport).Nodup := by
    rw [List.map_map]
    exact hslots.sdkKeys
  have inner := distinct_of_input hrecords h
  have renamed : Sends slots (.object (members.map fun m =>
      (top m.1, m.2.mapKeys lowerCamelExport))) members ↔
      Json.rekey setsPrototype (wireKey (wireKeyFieldsLiteral (slots.map Field.name)))
        (.object (members.map fun m => (top m.1, m.2.mapKeys lowerCamelExport))) =
          Json.mapKeys id (.object members) := by
    rw [Json.mapKeys_id]
    exact Iff.rfl
  rw [renamed, Json.rekey_object_iff h.nodup fun member hmember =>
    Json.rekey_mapKeys_iff (inner member hmember).1]
  refine forall₂_congr fun member hmember => and_congr_right fun _ => forall₂_congr fun n hn => ?_
  exact and_congr_left fun _ => wireKey_sdkKey_iff sdk ((inner member hmember).2 n hn)

/-- The body of a command arrives exactly when each name below a slot arrives, and no slot is
`__proto__`. -/
theorem sends_command_iff (hrecords : ∀ name, Keyed (records name)) (hslots : Keyed slots)
    (h : InputOf records slots members) :
    Sends slots (commandInput members) members ↔
      ∀ member ∈ members, setsPrototype member.1 = false ∧
        ∀ n ∈ member.2.keysOf, Arrives slots n := by
  have sdk : ((slots.map Field.name).map lowerCamelExport).Nodup := by
    rw [List.map_map]
    exact hslots.sdkKeys
  rw [commandInput, sends_iff lowerCamelExport hrecords hslots h]
  refine forall₂_congr fun member hmember => and_congr_left fun _ => ?_
  exact and_iff_right (wireKey_of_mem sdk (h.named member hmember))

/-- The arguments of a query are not renamed by their caller, so one with both a capital and an
underscore is lost as well. -/
theorem sends_query_iff (hrecords : ∀ name, Keyed (records name)) (hslots : Keyed slots)
    (h : InputOf records slots members) :
    Sends slots (queryInput members) members ↔
      ∀ member ∈ members, (((∀ c ∈ member.1, c.isUpper = false) ∨ '_' ∉ member.1) ∧
        setsPrototype member.1 = false) ∧ ∀ n ∈ member.2.keysOf, Arrives slots n := by
  have sdk : ((slots.map Field.name).map lowerCamelExport).Nodup := by
    rw [List.map_map]
    exact hslots.sdkKeys
  have named : ∀ name ∈ slots.map Field.name, Named name := by
    intro name hname
    obtain ⟨slot, hslot, rfl⟩ := List.mem_map.mp hname
    exact named_of_identifier (hslots.identifiers slot hslot)
  rw [queryInput]
  refine (sends_iff id hrecords hslots h).trans (forall₂_congr fun member hmember =>
    and_congr_left fun _ => and_congr_left fun _ => ?_)
  exact wireKey_self_iff sdk named (h.named member hmember)

/-- A response has the declared keys exactly when no name in it has an underscore at an end. -/
theorem receives_iff (hrecords : ∀ name, Keyed (records name)) (h : HasType records v t) :
    Receives v ↔ ∀ n ∈ v.keysOf, n.head? ≠ some '_' ∧ n.getLast? ≠ some '_' := by
  obtain ⟨-, distinct, named⟩ := distinct_of_hasType hrecords h
  have plain : v.mapKeys id = v := Json.mapKeys_id v
  have renamed : Receives v ↔ Json.rekey setsPrototype snakeToCamelKey (v.mapKeys id) =
      v.mapKeys lowerCamelExport := by
    rw [plain]
    exact Iff.rfl
  rw [renamed, Json.rekey_mapKeys_iff distinct]
  refine forall₂_congr fun n hn => ?_
  have kept : setsPrototype (lowerCamelExport n) = false := by
    rw [setsPrototype, decide_eq_false_iff_not]
    intro same
    have := underscore_notMem_lowerCamelExport (named n hn)
    rw [same] at this
    simp at this
  rw [and_iff_left kept, id_eq, snakeToCamelKey_eq_iff (named n hn)]

/-- The keys of the wire round trip for these values, and for no others. -/
theorem wire_keys_iff (hrecords : ∀ name, Keyed (records name)) (hslots : Keyed slots) :
    (∀ members : List (Key × Json Key α), InputOf records slots members →
      (Sends slots (commandInput members) members ↔
        ∀ member ∈ members, setsPrototype member.1 = false ∧
          ∀ n ∈ member.2.keysOf, Arrives slots n) ∧
      (Sends slots (queryInput members) members ↔
        ∀ member ∈ members, (((∀ c ∈ member.1, c.isUpper = false) ∨ '_' ∉ member.1) ∧
          setsPrototype member.1 = false) ∧ ∀ n ∈ member.2.keysOf, Arrives slots n)) ∧
    ∀ (response : Json Key α) (t : Ty), HasType records response t →
      (Receives response ↔
        ∀ n ∈ response.keysOf, n.head? ≠ some '_' ∧ n.getLast? ≠ some '_') :=
  ⟨fun _ h => ⟨sends_command_iff hrecords hslots h, sends_query_iff hrecords hslots h⟩,
    fun _ _ h => receives_iff hrecords h⟩

end Arrives

/-! ### A nested field with a capital -/

section Example

def profiles : Records := fun name =>
  if name = "Profile".toList then [⟨"registrationStep".toList, .scalar⟩, ⟨"_secret".toList, .scalar⟩]
  else []

def saveSlots : List Field := [⟨"profile".toList, .record "Profile".toList⟩]

def savedProfile : Json Key Nat := .object [("registrationStep".toList, .atom 1)]

def saved : List (Key × Json Key Nat) := [("profile".toList, savedProfile)]

theorem profiles_keyed (name : Key) : Keyed (profiles name) := by
  rw [profiles]
  split
  · exact ⟨by decide +kernel, by decide +kernel⟩
  · exact ⟨by simp, by simp⟩

theorem saveSlots_keyed : Keyed saveSlots := ⟨by decide +kernel, by decide +kernel⟩

theorem saved_input : InputOf profiles saveSlots saved where
  nodup := by decide +kernel
  named := by decide +kernel
  typed := by
    intro member hmember slot hslot _
    obtain rfl := List.mem_singleton.mp hmember
    obtain rfl := List.mem_singleton.mp hslot
    refine .object (by decide +kernel) (by decide +kernel) fun member hmember field _ _ => ?_
    obtain rfl := List.mem_singleton.mp hmember
    exact .atom 1 _

theorem nested_field_renamed :
    (∀ name, Keyed (profiles name)) ∧ Keyed saveSlots ∧ InputOf profiles saveSlots saved ∧
      camelToWireDeep (commandInput saved) (wireKeyFieldsLiteral (saveSlots.map Field.name)) =
        .object [("profile".toList, .object [("registration_step".toList, .atom 1)])] ∧
      ¬ Sends saveSlots (commandInput saved) saved := by
  have sent : camelToWireDeep (commandInput saved)
      (wireKeyFieldsLiteral (saveSlots.map Field.name)) =
      .object [("profile".toList, .object [("registration_step".toList, .atom 1)])] := rfl
  refine ⟨profiles_keyed, saveSlots_keyed, saved_input, sent, fun sends => ?_⟩
  rw [Sends, sent] at sends
  simp [saved, savedProfile] at sends

theorem wire_keys_iff_saved :
    (∀ name, Keyed (profiles name)) ∧ Keyed saveSlots ∧ InputOf profiles saveSlots saved ∧
      (Sends saveSlots (commandInput saved) saved ↔
        ∀ member ∈ saved, setsPrototype member.1 = false ∧
          ∀ n ∈ member.2.keysOf, Arrives saveSlots n) :=
  ⟨profiles_keyed, saveSlots_keyed, saved_input,
    ((wire_keys_iff profiles_keyed saveSlots_keyed).1 saved saved_input).1⟩

end Example

end Lazuli.Sdk.WireKeys
