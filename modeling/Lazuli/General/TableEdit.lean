import Mathlib.Data.List.Perm.Basic
import Mathlib.Data.List.Nodup

/-!
Edits of a table with named columns.

A table is a list of columns, each a name and a type. `add` leaves a column that exists as it is,
`drop` does nothing about one that does not, `retype` fails there. Under distinct names a table is
the map from its names to their types, up to the order of the columns; edits of different columns
act on that map one by one.
-/

namespace Lazuli.General

inductive Edit (κ τ : Type*) where
  | add (column : κ) (type : τ)
  | drop (column : κ)
  | retype (column : κ) (type : τ)
  deriving DecidableEq

namespace Edit

variable {κ τ : Type*}

def column : Edit κ τ → κ
  | .add k _ | .drop k | .retype k _ => k

/-- The type of the column afterwards, by its type before. -/
def result : Edit κ τ → Option τ → Option τ
  | .add _ t, old => old.or (some t)
  | .drop _, _ => none
  | .retype _ t, old => old.map fun _ => t

def Applies : Edit κ τ → Option τ → Prop
  | .retype _ _, old => old.isSome
  | _, _ => True

variable [DecidableEq κ]

def typeOf (table : List (κ × τ)) (k : κ) : Option τ :=
  (table.find? fun column => column.1 = k).map (·.2)

def apply (e : Edit κ τ) (table : List (κ × τ)) : Option (List (κ × τ)) :=
  match e with
  | .add k t => some (if k ∈ table.map (·.1) then table else table ++ [(k, t)])
  | .drop k => some (table.filter fun column => column.1 ≠ k)
  | .retype k t =>
      if k ∈ table.map (·.1) then
        some (table.map fun column => if column.1 = k then (k, t) else column)
      else none

def run (es : List (Edit κ τ)) (table : List (κ × τ)) : Option (List (κ × τ)) :=
  es.foldlM (fun table e => e.apply table) table

variable {table table' : List (κ × τ)} {e : Edit κ τ} {es : List (Edit κ τ)} {k : κ} {t : τ}

/-! ### The types of a table -/

@[simp] theorem typeOf_nil : typeOf ([] : List (κ × τ)) k = none := rfl

theorem typeOf_cons (column : κ × τ) :
    typeOf (column :: table) k = if column.1 = k then some column.2 else typeOf table k := by
  rw [typeOf, List.find?_cons]
  by_cases h : column.1 = k
  · simp [h]
  · simp [h, typeOf]

theorem typeOf_append :
    typeOf (table ++ table') k = (typeOf table k).or (typeOf table' k) := by
  induction table with
  | nil => simp
  | cons column table ih =>
      rw [List.cons_append, typeOf_cons, typeOf_cons, ih]
      split <;> simp

theorem isSome_typeOf : (typeOf table k).isSome ↔ k ∈ table.map (·.1) := by
  simp only [typeOf, Option.isSome_map, List.find?_isSome, decide_eq_true_eq, List.mem_map]

theorem typeOf_eq_none : typeOf table k = none ↔ k ∉ table.map (·.1) := by
  rw [← isSome_typeOf, Option.not_isSome_iff_eq_none]

theorem mem_iff_typeOf (distinct : (table.map (·.1)).Nodup) :
    (k, t) ∈ table ↔ typeOf table k = some t := by
  induction table with
  | nil => simp
  | cons column table ih =>
      obtain ⟨absent, distinct⟩ := List.nodup_cons.mp distinct
      rw [List.mem_cons, ih distinct, typeOf_cons]
      by_cases h : column.1 = k
      · subst h
        rw [if_pos rfl, typeOf_eq_none.mpr absent]
        constructor
        · rintro (eq | found)
          · rw [← eq]
          · cases found
        · intro found
          exact .inl (Prod.ext rfl (Option.some_inj.mp found).symm)
      · rw [if_neg h]
        refine or_iff_right fun eq => h ?_
        rw [← eq]

/-- Tables with distinct names and the same types have the same columns. -/
theorem perm_of_typeOf_eq (distinct : (table.map (·.1)).Nodup)
    (distinct' : (table'.map (·.1)).Nodup) (same : ∀ k, typeOf table k = typeOf table' k) :
    table.Perm table' := by
  refine (List.perm_ext_iff_of_nodup (List.Nodup.of_map _ distinct)
    (List.Nodup.of_map _ distinct')).mpr fun ⟨k, t⟩ => ?_
  rw [mem_iff_typeOf distinct, mem_iff_typeOf distinct', same]

theorem typeOf_perm (distinct : (table.map (·.1)).Nodup) (perm : table.Perm table') :
    typeOf table k = typeOf table' k := by
  have distinct' : (table'.map (·.1)).Nodup := (perm.map _).nodup_iff.mp distinct
  refine Option.ext fun t => ?_
  rw [← mem_iff_typeOf distinct, ← mem_iff_typeOf distinct', perm.mem_iff]

/-! ### One edit -/

theorem exists_apply (applies : e.Applies (typeOf table e.column)) :
    ∃ table', e.apply table = some table' := by
  cases e with
  | add k t => exact ⟨_, rfl⟩
  | drop k => exact ⟨_, rfl⟩
  | retype k t => exact ⟨_, if_pos (isSome_typeOf.mp applies)⟩

theorem nodup_apply (distinct : (table.map (·.1)).Nodup) (done : e.apply table = some table') :
    (table'.map (·.1)).Nodup := by
  cases e with
  | add k t =>
      obtain rfl := Option.some_inj.mp done
      split
      · exact distinct
      case isFalse absent =>
        rw [List.map_append, List.map_singleton]
        exact List.nodup_append'.mpr
          ⟨distinct, List.nodup_singleton k, List.disjoint_singleton.mpr absent⟩
  | drop k =>
      obtain rfl := Option.some_inj.mp done
      exact (List.filter_sublist.map _).nodup distinct
  | retype k t =>
      obtain ⟨-, eq⟩ := Option.ite_none_right_eq_some.mp done
      obtain rfl := Option.some_inj.mp eq
      have names : (table.map fun column => if column.1 = k then (k, t) else column).map (·.1) =
          table.map (·.1) := by
        rw [List.map_map]
        refine List.map_congr_left fun column _ => ?_
        by_cases h : column.1 = k <;> simp [h]
      rwa [names]

theorem typeOf_filter_ne (other : κ) : typeOf (table.filter fun column => column.1 ≠ other) k =
    if k = other then none else typeOf table k := by
  induction table with
  | nil => simp
  | cons column table ih =>
      by_cases h : column.1 = other
      · rw [List.filter_cons_of_neg (by simp [h]), ih, typeOf_cons]
        by_cases hk : k = other
        · rw [if_pos hk, if_pos hk]
        · rw [if_neg hk, if_neg hk, if_neg fun eq => hk (eq.symm.trans h)]
      · rw [List.filter_cons_of_pos (by simp [h]), typeOf_cons, typeOf_cons, ih]
        by_cases hk : column.1 = k
        · rw [if_pos hk, if_pos hk, if_neg fun eq => h (hk.trans eq)]
        · rw [if_neg hk, if_neg hk]

theorem typeOf_map_retype (other : κ) (t : τ) :
    typeOf (table.map fun column => if column.1 = other then (other, t) else column) k =
      if k = other then (typeOf table k).map fun _ => t else typeOf table k := by
  induction table with
  | nil => simp
  | cons column table ih =>
      rw [List.map_cons, typeOf_cons, typeOf_cons, ih]
      by_cases h : column.1 = other
      · subst h
        by_cases hk : k = column.1
        · simp [hk]
        · simp [hk, Ne.symm hk]
      · by_cases hk : column.1 = k
        · simp [hk, hk ▸ h]
        · simp [h, hk]

/-- An edit gives its column the result of the edit, and leaves the others. -/
theorem typeOf_apply (done : e.apply table = some table') :
    typeOf table' k = if k = e.column then e.result (typeOf table k) else typeOf table k := by
  cases e with
  | add other t =>
      obtain rfl := Option.some_inj.mp done
      change _ = if k = other then (typeOf table k).or (some t) else typeOf table k
      split
      case isTrue present =>
        by_cases hk : k = other
        · obtain ⟨old, found⟩ := Option.isSome_iff_exists.mp (isSome_typeOf.mpr present)
          rw [hk, if_pos rfl, found, Option.some_or]
        · rw [if_neg hk]
      case isFalse absent =>
        rw [typeOf_append, typeOf_cons, typeOf_nil]
        by_cases hk : k = other
        · simp [hk]
        · simp [hk, Ne.symm hk]
  | drop other =>
      obtain rfl := Option.some_inj.mp done
      exact typeOf_filter_ne other
  | retype other t =>
      obtain ⟨-, eq⟩ := Option.ite_none_right_eq_some.mp done
      obtain rfl := Option.some_inj.mp eq
      exact typeOf_map_retype other t

/-! ### Edits of different columns -/

/-- Each gives its column the result by the type in the first table. -/
theorem exists_run (distinct : (table.map (·.1)).Nodup) (apart : (es.map column).Nodup)
    (applies : ∀ e ∈ es, e.Applies (typeOf table e.column)) :
    ∃ table', run es table = some table' ∧ (table'.map (·.1)).Nodup ∧
      (∀ e ∈ es, typeOf table' e.column = e.result (typeOf table e.column)) ∧
      ∀ k, k ∉ es.map column → typeOf table' k = typeOf table k := by
  induction es generalizing table with
  | nil => exact ⟨table, rfl, distinct, fun e mem => absurd mem List.not_mem_nil, fun k _ => rfl⟩
  | cons e es ih =>
      obtain ⟨absent, apart⟩ := List.nodup_cons.mp apart
      obtain ⟨mid, done⟩ := exists_apply (applies e List.mem_cons_self)
      have kept : ∀ k, k ≠ e.column → typeOf mid k = typeOf table k := by
        intro k ne
        rw [typeOf_apply done, if_neg ne]
      have other : ∀ f ∈ es, f.column ≠ e.column := by
        intro f mem eq
        exact absent (eq ▸ List.mem_map_of_mem mem)
      obtain ⟨table', rest, nodup, results, frame⟩ := ih (nodup_apply distinct done) apart
        fun f mem => by
          rw [kept _ (other f mem)]
          exact applies f (List.mem_cons_of_mem e mem)
      refine ⟨table', ?_, nodup, ?_, ?_⟩
      · rw [run, List.foldlM_cons, done]
        exact rest
      · intro f mem
        rcases List.mem_cons.mp mem with rfl | mem
        · rw [frame _ absent, typeOf_apply done, if_pos rfl]
        · rw [results f mem, kept _ (other f mem)]
      · intro k outside
        obtain ⟨ne, outside⟩ := not_or.mp (mt List.mem_cons.mpr outside)
        rw [frame k outside, kept k ne]

/-- The edits are of different columns, apply, and make of the first types the second ones. -/
structure Leads (es : List (Edit κ τ)) (before after : κ → Option τ) : Prop where
  apart : (es.map column).Nodup
  applies : ∀ e ∈ es, e.Applies (before e.column)
  results : ∀ e ∈ es, e.result (before e.column) = after e.column
  frame : ∀ k, k ∉ es.map column → before k = after k

omit [DecidableEq κ] in
theorem Leads.perm {es' : List (Edit κ τ)} {before after : κ → Option τ}
    (leads : Leads es before after) (perm : es'.Perm es) : Leads es' before after where
  apart := (perm.map column).nodup_iff.mpr leads.apart
  applies e mem := leads.applies e (perm.mem_iff.mp mem)
  results e mem := leads.results e (perm.mem_iff.mp mem)
  frame k outside := leads.frame k fun mem => outside ((perm.map column).mem_iff.mpr mem)

theorem Leads.exists_run {after : κ → Option τ} (leads : Leads es (typeOf table) after)
    (distinct : (table.map (·.1)).Nodup) :
    ∃ table', run es table = some table' ∧ (table'.map (·.1)).Nodup ∧
      ∀ k, typeOf table' k = after k := by
  obtain ⟨table', done, nodup, results, frame⟩ :=
    Edit.exists_run distinct leads.apart leads.applies
  refine ⟨table', done, nodup, fun k => ?_⟩
  by_cases edited : k ∈ es.map column
  · obtain ⟨e, mem, rfl⟩ := List.mem_map.mp edited
    rw [results e mem, leads.results e mem]
  · rw [frame k edited, leads.frame k edited]

/-- What the edits lead to has the columns of any table with those types. -/
theorem Leads.exists_run_perm {target : List (κ × τ)}
    (leads : Leads es (typeOf table) (typeOf target)) (distinct : (table.map (·.1)).Nodup)
    (distinct' : (target.map (·.1)).Nodup) :
    ∃ table', run es table = some table' ∧ table'.Perm target := by
  obtain ⟨table', done, nodup, types⟩ := leads.exists_run distinct
  exact ⟨table', done, perm_of_typeOf_eq nodup distinct' types⟩

end Edit

end Lazuli.General
