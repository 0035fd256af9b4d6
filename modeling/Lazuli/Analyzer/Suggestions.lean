import Lazuli.Codegen.Schema
import Lazuli.General.EditDistance
import Mathlib.Data.List.MinMax

/-!
The names that are suggested for a misspelt one (`helpers.rs`, `errors.rs` and
`conventions/owner_scope.rs` of the analyzer, `diagnostics/canonical_kinds/mod.rs` of the language
server, `resource/conventions.rs` of the parser).

The distance of two words is computed in two ways, which agree. It is the least number of edits
(`isLeast_levenshtein`), and what is suggested is the first of the names that are fewest edits away
(`closestKind_iff`, `nearestFieldName_iff`).
-/

namespace Lazuli.Analyzer.Suggestions

open General.EditDistance Ir

/-! ### Distances -/

/-- All rows, each with its number. -/
def table (a b : List Char) : List (List Nat × Nat) :=
  a.scanl (advance b) (List.range (b.length + 1), 0)

def levenshtein (a b : String) : Nat :=
  ((table a.toList b.toList).getLastD ([], 0)).1.getLastD 0

/-- Two rows that take turns. -/
def rolling (a b : String) : Nat :=
  if a.toList.length = 0 then b.toList.length
  else if b.toList.length = 0 then a.toList.length
  else twoRows a.toList b.toList

def conventionsLevenshtein (a b : String) : Nat := rolling a b

/-- The one of the language server. -/
def kindLevenshtein (a b : String) : Nat := rolling a b

def levenshteinDistance (a b : String) : Nat := rolling a b

theorem levenshtein_eq (a b : String) : levenshtein a b = distance a.toList b.toList := by
  have last : (table a.toList b.toList).getLastD ([], 0) =
      a.toList.foldl (advance b.toList) (List.range (b.toList.length + 1), 0) := by
    rw [table, List.getLastD_eq_getLast?, List.getLast?_scanl, Option.getD_some]
  rw [levenshtein, last, ← twoRows_eq, twoRows]

theorem rolling_eq (a b : String) : rolling a b = distance a.toList b.toList := by
  rw [rolling]
  split
  · next none => rw [List.length_eq_zero_iff.mp none, distance_nil_left]
  · split
    · next none => rw [List.length_eq_zero_iff.mp none, distance_nil_right]
    · exact twoRows_eq _ _

/-- **The distance is the least number of edits**, whether the whole table is kept or two rows. -/
theorem isLeast_levenshtein (a b : String) :
    IsLeast {n | Edits a.toList b.toList n} (levenshtein a b) ∧
      conventionsLevenshtein a b = levenshtein a b := by
  rw [conventionsLevenshtein, rolling_eq, levenshtein_eq]
  exact ⟨isLeast_distance _ _, rfl⟩

/-! ### Suggestions -/

section Scan

variable (distanceTo : String → Nat) (maxDistance : Nat)

/-- The body of the loop over a catalog. -/
def closer (best : Option (String × Nat)) (candidate : String) : Option (String × Nat) :=
  let d := distanceTo candidate
  if d > maxDistance then best
  else
    match best with
    | none => some (candidate, d)
    | some (_, prevD) => if d < prevD then some (candidate, d) else best

def closest (catalog : List String) : Option String :=
  (catalog.foldl (closer distanceTo maxDistance) none).map Prod.fst

end Scan

def closestKind (word : String) (catalog : List String) (maxDistance : Nat) : Option String :=
  closest (kindLevenshtein word) maxDistance catalog

def conventionCatalog : List String := ["crud", "me"]

def conventionsUnknownSuggestion (identifier : String) : Option String :=
  closest (conventionsLevenshtein identifier) 1 conventionCatalog

def nearestResourceConvention (ident : String) : Option String :=
  closest (levenshteinDistance ident) 1 ["crud", "me"]

/-- The body of the loop of `nearestFieldName`. -/
def nearer (target : String) (best : Option (Nat × String)) (f : Field) : Option (Nat × String) :=
  let dist := levenshtein target f.name
  match best with
  | some (b, _) => if dist ≥ b then best else some (dist, f.name)
  | none => some (dist, f.name)

/-- The limit depends on the bytes of the name. -/
def nearestFieldName (target : String) (fields : List Field) : Option String :=
  (fields.foldl (nearer target) none).bind fun (dist, name) =>
    if dist ≤ max target.utf8ByteSize 1 / 2 + 1 then some name else none

/-! ### What is suggested -/

/-- No fewer edits lead to `x` than to `c`. -/
def AsNear (word c x : String) : Prop :=
  ∀ n, Edits word.toList x.toList n → ∃ k ≤ n, Edits word.toList c.toList k

/-- The first of the names to which the fewest edits lead, if these are not too many. -/
structure Suggested (word : String) (maxDistance : Nat) (names : List String) (c : String) :
    Prop where
  mem : c ∈ names
  close : ∃ n ≤ maxDistance, Edits word.toList c.toList n
  nearest : ∀ x ∈ names, AsNear word c x
  first : ∀ x ∈ names, AsNear word x c → names.idxOf c ≤ names.idxOf x

variable {word c x : String} {names : List String} {maxDistance : Nat} {d : String → Nat}

theorem asNear_iff : AsNear word c x ↔
    distance word.toList c.toList ≤ distance word.toList x.toList := by
  constructor
  · intro near
    obtain ⟨k, hk, edits⟩ := near _ (edits_distance _ _)
    exact edits.distance_le.trans hk
  · exact fun le n edits => ⟨_, le.trans edits.distance_le, edits_distance _ _⟩

/-- The first of the nearest, if it is near enough. -/
def nearestWithin (d : String → Nat) (maxDistance : Nat) (names : List String) : Option String :=
  (names.argmin d).filter fun c => d c ≤ maxDistance

theorem nearestWithin_iff (hd : ∀ x, d x = distance word.toList x.toList) :
    nearestWithin d maxDistance names = some c ↔ Suggested word maxDistance names c := by
  have near (x y : String) : d x ≤ d y ↔ AsNear word x y := by rw [asNear_iff, hd, hd]
  have close : d c ≤ maxDistance ↔ ∃ n ≤ maxDistance, Edits word.toList c.toList n := by
    rw [hd]
    exact ⟨fun le => ⟨_, le, edits_distance _ _⟩,
      fun ⟨n, hn, edits⟩ => edits.distance_le.trans hn⟩
  rw [nearestWithin, Option.filter_eq_some_iff, ← Option.mem_def, List.mem_argmin_iff,
    decide_eq_true_iff, close]
  simp only [near]
  exact ⟨fun ⟨⟨mem, nearest, first⟩, close⟩ => ⟨mem, close, nearest, first⟩,
    fun h => ⟨⟨h.mem, h.nearest, h.first⟩, h.close⟩⟩

/-- A loop that skips the names that are too far finds the first of the nearest, if that one is
not too far. -/
theorem closest_eq (catalog : List String) :
    closest d maxDistance catalog = nearestWithin d maxDistance catalog := by
  have scanned : catalog.foldl (closer d maxDistance) none =
      (nearestWithin d maxDistance catalog).map fun c => (c, d c) := by
    induction catalog using List.reverseRecOn with
    | nil => rfl
    | append_singleton catalog x ih =>
        rw [List.foldl_append, List.foldl_cons, List.foldl_nil, ih, nearestWithin, nearestWithin,
          List.argmin_concat]
        unfold closer
        cases catalog.argmin d with
        | none => by_cases far : maxDistance < d x <;> simp [far, Option.filter]
        | some b =>
            by_cases far : maxDistance < d x
            · by_cases best : d b ≤ maxDistance
              · simp [far, best, Option.filter, show ¬d x < d b by omega]
              · by_cases nearer : d x < d b <;> simp [far, best, nearer, Option.filter]
            · by_cases best : d b ≤ maxDistance
              · by_cases nearer : d x < d b <;> simp [far, best, nearer, Option.filter]
              · simp [far, best, Option.filter, show d x < d b by omega]
  rw [closest, scanned, Option.map_map]
  exact congrFun Option.map_id _

/-- **The suggested kind is the first of the catalog to which the fewest edits lead**, if these are
not too many. -/
theorem closestKind_iff (word : String) (catalog : List String) (maxDistance : Nat) (c : String) :
    closestKind word catalog maxDistance = some c ↔ Suggested word maxDistance catalog c := by
  rw [closestKind, closest_eq]
  exact nearestWithin_iff fun x => rolling_eq word x

theorem foldl_nearer (target : String) (fields : List Field) :
    fields.foldl (nearer target) none =
      ((fields.map Field.name).argmin (levenshtein target)).map fun c =>
        (levenshtein target c, c) := by
  induction fields using List.reverseRecOn with
  | nil => rfl
  | append_singleton fields f ih =>
      rw [List.foldl_append, List.foldl_cons, List.foldl_nil, ih, List.map_append,
        List.map_singleton, List.argmin_concat]
      unfold nearer
      cases (fields.map Field.name).argmin (levenshtein target) with
      | none => rfl
      | some b =>
          by_cases same : levenshtein target b ≤ levenshtein target f.name
          · simp [same, Nat.not_lt.mpr same]
          · simp [same, Nat.lt_of_not_le same]

/-- **So is the suggested field**, with half the size of the name as the limit. -/
theorem nearestFieldName_iff (target : String) (fields : List Field) (c : String) :
    nearestFieldName target fields = some c ↔
      Suggested target (max target.utf8ByteSize 1 / 2 + 1) (fields.map Field.name) c := by
  rw [← nearestWithin_iff (levenshtein_eq target), nearestFieldName, foldl_nearer, nearestWithin]
  cases (fields.map Field.name).argmin (levenshtein target) with
  | none => rfl
  | some b => by_cases h : levenshtein target b ≤ max target.utf8ByteSize 1 / 2 + 1 <;>
      simp [h, Option.filter]

end Lazuli.Analyzer.Suggestions
