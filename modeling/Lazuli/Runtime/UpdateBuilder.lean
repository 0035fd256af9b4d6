import Lazuli.Runtime.Placeholders

/-!
Partial updates (`runtime/go/lazuli/update_builder.go`).

A builder collects SET clauses with their values and a WHERE clause, and renders one UPDATE. A SET
clause is numbered by its place among all clauses behind the arguments of the WHERE clause, also
among the raw ones, which bind nothing.
-/

namespace Lazuli.Runtime

open General SqlText

/-! ### The texts of a caller -/

/-- A column, or a literal SET or RETURNING text: without placeholders and open quotes. -/
structure PlainSql where
  text : String
  quiet : Quiet text.toList

/-- A WHERE text and its placeholders. -/
structure WhereSql where
  text : String
  slots : List Nat
  yields : Yields text.toList slots

def rawMarker : String := "__raw__"

def PlainSql.empty : PlainSql := ⟨"", Quiet.nil⟩

def WhereSql.empty : WhereSql := ⟨"", [], Quiet.nil.yields⟩

/-- A literal SET text under the mark by which it is known. -/
def PlainSql.marked (fragment : PlainSql) : PlainSql where
  text := rawMarker ++ fragment.text
  quiet := by
    rw [String.toList_append]
    exact (quiet_literal rfl).append fragment.quiet

def PlainSql.Marked (col : PlainSql) : Prop := rawMarker.toList <+: col.text.toList

instance (col : PlainSql) : Decidable col.Marked :=
  inferInstanceAs (Decidable (rawMarker.toList <+: col.text.toList))

theorem PlainSql.marked_marked (fragment : PlainSql) : fragment.marked.Marked := by
  rw [PlainSql.Marked, PlainSql.marked, String.toList_append]
  exact List.prefix_append _ _

/-! ### The builder -/

structure UpdateBuilder (α : Type) where
  table : Ident
  sets : List PlainSql
  setArgs : List α
  whereClause : WhereSql
  whereArgs : List α
  returning : PlainSql

namespace UpdateBuilder

variable {α : Type}

def newUpdate (table : Ident) : UpdateBuilder α where
  table := table
  sets := []
  setArgs := []
  whereClause := .empty
  whereArgs := []
  returning := .empty

def setWhere (b : UpdateBuilder α) (clause : WhereSql) (args : List α) : UpdateBuilder α :=
  { b with whereClause := clause, whereArgs := args }

def set (b : UpdateBuilder α) (col : PlainSql) (val : α) : UpdateBuilder α :=
  { b with sets := b.sets ++ [col], setArgs := b.setArgs ++ [val] }

/-- A nil pointer sets nothing. The variants for strings, integers, booleans, enumerations and
slices differ in the type of the value. -/
def setIfNotNil (b : UpdateBuilder α) (col : PlainSql) : Option α → UpdateBuilder α
  | none => b
  | some val => b.set col val

def setRaw (b : UpdateBuilder α) (fragment : PlainSql) : UpdateBuilder α :=
  { b with sets := b.sets ++ [fragment.marked] }

def setReturning (b : UpdateBuilder α) (cols : PlainSql) : UpdateBuilder α :=
  { b with returning := cols }

def isNoop (b : UpdateBuilder α) : Bool := b.sets.isEmpty

end UpdateBuilder

/-- A table name that may hold a quote is not quoted. -/
def strconvQuoteIdent (ident : String) : String :=
  if '"' ∈ ident.toList ∨ '\\' ∈ ident.toList then ident else "\"" ++ ident ++ "\""

/-- A SET clause and the number it would bind. -/
def setClause (col : PlainSql) (k : Nat) : String :=
  if col.Marked then String.ofList (col.text.toList.drop rawMarker.length)
  else col.text ++ " = " ++ placeholder k

namespace UpdateBuilder

variable {α : Type}

/-- The SET clauses, numbered by their places. -/
def fragments (b : UpdateBuilder α) : List String :=
  b.sets.zipIdx.map fun (col, i) => setClause col (b.whereArgs.length + i + 1)

/-- The text and the arguments: those of the WHERE clause, then those of the SET clauses. -/
def sql (b : UpdateBuilder α) : String × List α :=
  if b.isNoop then ("", [])
  else
    ("UPDATE " ++ strconvQuoteIdent b.table.text ++ " SET " ++ ", ".intercalate b.fragments ++
        (if b.whereClause.text = "" then "" else " WHERE " ++ b.whereClause.text) ++
        (if b.returning.text = "" then "" else " RETURNING " ++ b.returning.text),
      b.whereArgs ++ b.setArgs)

end UpdateBuilder

/-! ### Sequences of calls -/

inductive BuilderCall (α : Type) where
  | setWhere (clause : WhereSql) (args : List α)
  | set (col : PlainSql) (val : α)
  | setIfNotNil (col : PlainSql) (val : Option α)
  | setRaw (fragment : PlainSql)
  | returning (cols : PlainSql)

namespace BuilderCall

variable {α : Type}

def apply (b : UpdateBuilder α) : BuilderCall α → UpdateBuilder α
  | .setWhere clause args => b.setWhere clause args
  | .set col val => b.set col val
  | .setIfNotNil col val => b.setIfNotNil col val
  | .setRaw fragment => b.setRaw fragment
  | .returning cols => b.setReturning cols

def run (table : Ident) (calls : List (BuilderCall α)) : UpdateBuilder α :=
  calls.foldl apply (.newUpdate table)

/-- The SET clauses of a call, each with the value given to it. -/
def clauses : BuilderCall α → List (PlainSql × Option α)
  | .set col val => [(col, some val)]
  | .setIfNotNil col (some val) => [(col, some val)]
  | .setRaw fragment => [(fragment.marked, none)]
  | .setWhere _ _ | .setIfNotNil _ none | .returning _ => []

/-- The WHERE clause that counts, with its arguments. -/
def whereCall (calls : List (BuilderCall α)) : WhereSql × List α :=
  calls.foldl (fun last call =>
    match call with
    | .setWhere clause args => (clause, args)
    | _ => last) (.empty, [])

end BuilderCall

section Calls

open BuilderCall

variable {α : Type} (table : Ident) (calls : List (BuilderCall α))

/-- The text carries the placeholders of the arguments and no others, and the argument at a
placeholder is the value given to the call whose clause carries it. -/
structure Aligned : Prop where
  numbers : ∀ k, k ∈ placeholdersIn (run table calls).sql.1 ↔
    1 ≤ k ∧ k ≤ (run table calls).sql.2.length
  conditions : (run table calls).isNoop = false → ∀ k ∈ (whereCall calls).1.slots,
    ∃ (j : Nat) (val : α), k = j + 1 ∧ (whereCall calls).2[j]? = some val ∧
      (run table calls).sql.2[j]? = some val
  assignments : ∀ (i : Nat) (col : PlainSql) (val : α) (text : String),
    (calls.flatMap clauses)[i]? = some (col, some val) →
      (run table calls).fragments[i]? = some text → ∀ k ∈ placeholdersIn text,
        ∃ j : Nat, k = j + 1 ∧ (run table calls).sql.2[j]? = some val

/-- The WHERE clause numbers its own arguments, no column is marked like a raw clause, and the raw
clauses come last. -/
def WellPlaced : Prop :=
  calls.flatMap clauses = [] ∨
    (∀ k, k ∈ (whereCall calls).1.slots ↔ 1 ≤ k ∧ k ≤ (whereCall calls).2.length) ∧
      ∃ bound raws, calls.flatMap clauses = bound ++ raws ∧
        (∀ e ∈ bound, e.2 ≠ none ∧ ¬ e.1.Marked) ∧ ∀ e ∈ raws, e.2 = none

end Calls

/-! ### What a sequence of calls leaves in the builder -/

section Runs

open BuilderCall

variable {α : Type} (table : Ident) (calls : List (BuilderCall α))

theorem run_snoc (call : BuilderCall α) :
    run table (calls ++ [call]) = apply (run table calls) call := by
  rw [run, List.foldl_append]
  rfl

theorem run_eq : run table calls =
    { table := table
      sets := (calls.flatMap clauses).map Prod.fst
      setArgs := (calls.flatMap clauses).filterMap Prod.snd
      whereClause := (whereCall calls).1
      whereArgs := (whereCall calls).2
      returning := (run table calls).returning } := by
  induction calls using List.reverseRecOn with
  | nil => rfl
  | append_singleton calls call ih =>
      have last : whereCall (calls ++ [call]) =
          match call with
          | .setWhere clause args => (clause, args)
          | _ => whereCall calls := by
        rw [whereCall, List.foldl_append]
        rfl
      rw [run_snoc, last, ih, List.flatMap_append, List.flatMap_singleton, List.map_append,
        List.filterMap_append]
      cases call with
      | setIfNotNil col val => cases val <;> simp [apply, clauses, UpdateBuilder.setIfNotNil,
          UpdateBuilder.set]
      | _ => simp [apply, clauses, UpdateBuilder.setWhere, UpdateBuilder.set,
          UpdateBuilder.setRaw, UpdateBuilder.setReturning]

theorem marked_of_raw {e : PlainSql × Option α} (mem : e ∈ calls.flatMap clauses)
    (raw : e.2 = none) : e.1.Marked := by
  obtain ⟨call, -, mem⟩ := List.mem_flatMap.mp mem
  cases call with
  | setIfNotNil col val => cases val <;> simp_all [clauses]
  | set col val => simp_all [clauses]
  | setRaw fragment =>
      obtain rfl := List.mem_singleton.mp mem
      exact fragment.marked_marked
  | setWhere clause args => cases mem
  | returning cols => cases mem

end Runs

/-! ### The placeholders of the text -/

def setSlots (col : PlainSql) (k : Nat) : List Nat := if col.Marked then [] else [k]

theorem yields_setClause (col : PlainSql) (k : Nat) :
    Yields (setClause col k).toList (setSlots col k) := by
  rw [setClause, setSlots]
  split
  case isFalse =>
    simp only [String.toList_append]
    exact Yields.quiet_append (col.quiet.append (quiet_literal rfl)) (yields_placeholder k)
  case isTrue marked =>
    obtain ⟨rest, text⟩ := marked
    have quiet := col.quiet
    have mark : Quiet rawMarker.toList := quiet_literal rfl
    rw [← text, String.toList_ofList, ← String.length_toList, List.drop_left]
    rw [← text] at quiet
    refine Quiet.yields fun s => ?_
    rw [← quiet s, List.append_assoc, mark]

theorem placeholdersIn_setClause (col : PlainSql) (k : Nat) :
    placeholdersIn (setClause col k) = setSlots col k := (yields_setClause col k).eq

theorem quiet_strconvQuoteIdent (name : Ident) : Quiet (strconvQuoteIdent name.text).toList := by
  have plain : ¬ ('"' ∈ name.text.toList ∨ '\\' ∈ name.text.toList) := by
    rintro (mem | mem)
    · exact quote_notMem name mem
    · cases List.all_eq_true.mp name.safe _ mem
  rw [strconvQuoteIdent, if_neg plain]
  exact quiet_quoteIdent name

/-- A clause that is left out when it is empty. -/
theorem yields_optional {keyword text : String} {ks : List Nat} (quiet : Quiet keyword.toList)
    (yields : Yields text.toList ks) :
    Yields (if text = "" then "" else keyword ++ text).toList ks := by
  split
  case isTrue empty =>
    subst empty
    exact yields
  case isFalse =>
    rw [String.toList_append]
    exact Yields.quiet_append quiet yields

theorem apart_optional {keyword text : String}
    (h : (keyword.toList.head?.any fun c => !c.isDigit) = true) :
    Apart (if text = "" then "" else keyword ++ text).toList := by
  split
  case isTrue => exact apart_literal rfl
  case isFalse =>
    rw [String.toList_append]
    exact apart_front h

namespace UpdateBuilder

variable {α : Type} (b : UpdateBuilder α)

/-- The numbers of the SET clauses that bind something. -/
def slots : List Nat :=
  b.sets.zipIdx.flatMap fun (col, i) => setSlots col (b.whereArgs.length + i + 1)

theorem mem_slots {k : Nat} : k ∈ b.slots ↔
    ∃ i col, b.sets[i]? = some col ∧ ¬ col.Marked ∧ k = b.whereArgs.length + i + 1 := by
  simp only [slots, List.mem_flatMap, Prod.exists, List.mem_zipIdx_iff_getElem?]
  constructor
  · rintro ⟨col, i, found, mem⟩
    rw [setSlots] at mem
    split at mem
    · cases mem
    · exact ⟨i, col, found, ‹_›, List.mem_singleton.mp mem⟩
  · rintro ⟨i, col, found, plain, rfl⟩
    exact ⟨col, i, found, by rw [setSlots, if_neg plain]; exact List.mem_singleton_self _⟩

theorem placeholdersIn_sql (some : b.isNoop = false) :
    placeholdersIn b.sql.1 = b.slots ++ b.whereClause.slots := by
  have front : Quiet ("UPDATE ".toList ++ (strconvQuoteIdent b.table.text).toList ++
      " SET ".toList) :=
    ((quiet_literal rfl).append (quiet_strconvQuoteIdent b.table)).append (quiet_literal rfl)
  have sets := yields_joined (quiet_literal (s := ", ") rfl) (by simp) (apart_literal rfl)
    b.sets.zipIdx fun p => yields_setClause p.1 (b.whereArgs.length + p.2 + 1)
  have conditions := yields_optional (quiet_literal (s := " WHERE ") rfl) b.whereClause.yields
  have returned := yields_optional (quiet_literal (s := " RETURNING ") rfl) b.returning.quiet.yields
  have whole := ((Yields.quiet_append front sets).append (apart_optional rfl) conditions).append
    (apart_optional rfl) returned
  rw [List.append_nil] at whole
  refine Eq.trans (congrArg (placeholders none) ?_) whole.eq
  rw [sql, some]
  simp only [Bool.false_eq_true, if_false, String.toList_append, fragments]

end UpdateBuilder

/-! ### Bound clauses -/

section Bound

variable {α : Type} {l : List (PlainSql × Option α)}

theorem length_bound (some : ∀ e ∈ l, e.2 ≠ none) : (l.filterMap Prod.snd).length = l.length := by
  induction l with
  | nil => rfl
  | cons e l ih =>
      obtain ⟨val, hval⟩ := Option.ne_none_iff_exists'.mp (some e List.mem_cons_self)
      rw [List.filterMap_cons_some hval, List.length_cons, List.length_cons,
        ih fun f hf => some f (List.mem_cons_of_mem e hf)]

theorem getElem?_bound (some : ∀ e ∈ l, e.2 ≠ none) (i : Nat) :
    (l.filterMap Prod.snd)[i]? = l[i]?.bind Prod.snd := by
  induction l generalizing i with
  | nil => rfl
  | cons e l ih =>
      obtain ⟨val, hval⟩ := Option.ne_none_iff_exists'.mp (some e List.mem_cons_self)
      rw [List.filterMap_cons_some hval]
      cases i with
      | zero => simp [hval]
      | succ i => exact ih (fun f hf => some f (List.mem_cons_of_mem e hf)) i

theorem filterMap_raws (none : ∀ e ∈ l, e.2 = none) : l.filterMap Prod.snd = [] :=
  List.filterMap_eq_nil_iff.mpr none

end Bound

section Aligned

open BuilderCall

variable {α : Type} {table : Ident} {calls : List (BuilderCall α)}

theorem run_isNoop : (run table calls).isNoop = true ↔ calls.flatMap clauses = [] := by
  rw [run_eq, UpdateBuilder.isNoop, List.isEmpty_iff, List.map_eq_nil_iff]

theorem run_args (filled : (run table calls).isNoop = false) : (run table calls).sql.2 =
    (whereCall calls).2 ++ (calls.flatMap clauses).filterMap Prod.snd := by
  rw [UpdateBuilder.sql, filled, run_eq]
  rfl

theorem run_placeholders (filled : (run table calls).isNoop = false) {k : Nat} :
    k ∈ placeholdersIn (run table calls).sql.1 ↔
      (∃ (i : Nat) (e : PlainSql × Option α), (calls.flatMap clauses)[i]? = some e ∧
        ¬ e.1.Marked ∧ k = (whereCall calls).2.length + i + 1) ∨ k ∈ (whereCall calls).1.slots := by
  rw [UpdateBuilder.placeholdersIn_sql _ filled, List.mem_append, UpdateBuilder.mem_slots, run_eq]
  simp only [List.getElem?_map, Option.map_eq_some_iff]
  refine or_congr_left ⟨?_, ?_⟩
  · rintro ⟨i, col, ⟨e, found, rfl⟩, plain, same⟩
    exact ⟨i, e, found, plain, same⟩
  · rintro ⟨i, e, found, plain, same⟩
    exact ⟨i, e.1, ⟨e, found, rfl⟩, plain, same⟩

theorem run_fragments (i : Nat) : (run table calls).fragments[i]? =
    (calls.flatMap clauses)[i]?.map fun e =>
      setClause e.1 ((whereCall calls).2.length + i + 1) := by
  rw [UpdateBuilder.fragments, run_eq]
  simp only [List.getElem?_map, List.getElem?_zipIdx, Option.map_map, Nat.zero_add,
    Function.comp_def]

theorem aligned_of_noop (noop : calls.flatMap clauses = []) : Aligned table calls where
  numbers := by
    intro k
    rw [UpdateBuilder.sql, run_isNoop.mpr noop]
    simp [placeholdersIn, placeholders]
    omega
  conditions := by
    intro filled
    rw [run_isNoop.mpr noop] at filled
    cases filled
  assignments := by
    intro i col val text found
    rw [noop] at found
    cases found

theorem aligned_of_wellPlaced {bound raws : List (PlainSql × Option α)}
    (filled : (run table calls).isNoop = false)
    (numbered : ∀ k, k ∈ (whereCall calls).1.slots ↔ 1 ≤ k ∧ k ≤ (whereCall calls).2.length)
    (split : calls.flatMap clauses = bound ++ raws)
    (values : ∀ e ∈ bound, e.2 ≠ none ∧ ¬ e.1.Marked) (unbound : ∀ e ∈ raws, e.2 = none) :
    Aligned table calls := by
  have args : (run table calls).sql.2 = (whereCall calls).2 ++ bound.filterMap Prod.snd := by
    rw [run_args filled, split, List.filterMap_append, filterMap_raws unbound, List.append_nil]
  have length := length_bound fun e he => (values e he).1
  -- A clause that is not marked is among the bound ones.
  have early {i : Nat} {e : PlainSql × Option α} (found : (calls.flatMap clauses)[i]? = some e)
      (valued : e.2 ≠ none) : i < bound.length ∧ bound[i]? = some e := by
    rw [split] at found
    by_cases lt : i < bound.length
    · rw [List.getElem?_append_left lt] at found
      exact ⟨lt, found⟩
    · rw [List.getElem?_append_right (by omega)] at found
      exact absurd (unbound e (List.mem_of_getElem? found)) valued
  refine ⟨fun k => ?_, fun _ k mem => ?_, fun i col val text found shown k mem => ?_⟩
  · rw [run_placeholders filled, numbered, args, List.length_append, length]
    constructor
    · rintro (⟨i, e, found, plain, rfl⟩ | ⟨low, high⟩)
      · have valued : e.2 ≠ none := fun raw =>
          plain (marked_of_raw calls (List.mem_of_getElem? found) raw)
        have := (early found valued).1
        omega
      · omega
    · rintro ⟨low, high⟩
      by_cases small : k ≤ (whereCall calls).2.length
      · exact .inr ⟨low, small⟩
      · have lt : k - (whereCall calls).2.length - 1 < bound.length := by omega
        refine .inl ⟨k - (whereCall calls).2.length - 1, bound[k - (whereCall calls).2.length - 1],
          ?_, (values _ (List.getElem_mem lt)).2, by omega⟩
        rw [split, List.getElem?_append_left lt, List.getElem?_eq_getElem lt]
  · obtain ⟨low, high⟩ := (numbered k).mp mem
    have lt : k - 1 < (whereCall calls).2.length := by omega
    have found := List.getElem?_eq_getElem lt
    refine ⟨k - 1, _, by omega, found, ?_⟩
    rw [args, List.getElem?_append_left lt, found]
  · rw [run_fragments, found, Option.map_some, Option.some.injEq] at shown
    rw [← shown, placeholdersIn_setClause, setSlots] at mem
    obtain ⟨lt, there⟩ := early found (Option.some_ne_none val)
    split at mem
    · cases mem
    · refine ⟨(whereCall calls).2.length + i, List.mem_singleton.mp mem, ?_⟩
      rw [args, List.getElem?_append_right (by omega), Nat.add_sub_cancel_left,
        getElem?_bound fun e he => (values e he).1, there]
      rfl

theorem wellPlaced_of_aligned (filled : (run table calls).isNoop = false)
    (aligned : Aligned table calls) : WellPlaced calls := by
  have numbers := aligned.numbers
  simp only [run_placeholders filled, run_args filled, List.length_append] at numbers
  have low {k : Nat} (mem : k ∈ (whereCall calls).1.slots) :
      1 ≤ k ∧ k ≤ (whereCall calls).2.length := by
    obtain ⟨j, val, rfl, found, -⟩ := aligned.conditions filled k mem
    have := (List.getElem?_eq_some_iff.mp found).1
    omega
  generalize values : ((calls.flatMap clauses).filterMap Prod.snd).length = n at numbers
  -- The first `n` clauses carry the numbers behind those of the WHERE clause.
  have plain (i : Nat) (lt : i < n) :
      ∃ e, (calls.flatMap clauses)[i]? = some e ∧ ¬ e.1.Marked := by
    rcases (numbers ((whereCall calls).2.length + i + 1)).mpr (by omega) with
      ⟨j, e, found, plain, same⟩ | mem
    · obtain rfl : i = j := by omega
      exact ⟨e, found, plain⟩
    · have := low mem
      omega
  have bound : ∀ e ∈ (calls.flatMap clauses).take n, e.2 ≠ none ∧ ¬ e.1.Marked := by
    intro e mem
    obtain ⟨i, lt, rfl⟩ := List.mem_take_iff_getElem.mp mem
    obtain ⟨e, found, plain⟩ := plain i (by omega)
    rw [List.getElem?_eq_getElem (by omega), Option.some.injEq] at found
    rw [found]
    exact ⟨fun raw => plain (marked_of_raw calls (found ▸ List.getElem_mem _) raw), plain⟩
  have le : n ≤ (calls.flatMap clauses).length := values ▸ List.length_filterMap_le _ _
  have raws : ((calls.flatMap clauses).drop n).filterMap Prod.snd = [] := by
    have parts : (((calls.flatMap clauses).take n ++ (calls.flatMap clauses).drop n).filterMap
        Prod.snd).length = _ := congrArg List.length List.filterMap_append
    rw [List.take_append_drop, values, List.length_append,
      length_bound fun e he => (bound e he).1, List.length_take, Nat.min_eq_left le] at parts
    exact List.eq_nil_of_length_eq_zero (by omega)
  refine .inr ⟨fun k => ⟨low, fun range => ?_⟩, _, _, (List.take_append_drop n _).symm, bound,
    List.filterMap_eq_nil_iff.mp raws⟩
  rcases (numbers k).mpr (by omega) with ⟨i, e, found, plain, same⟩ | mem
  · omega
  · exact mem

variable (table calls) in
theorem aligned_iff_wellPlaced : Aligned table calls ↔ WellPlaced calls := by
  cases noop : (run table calls).isNoop with
  | true =>
      have empty := run_isNoop.mp noop
      exact ⟨fun _ => .inl empty, fun _ => aligned_of_noop empty⟩
  | false =>
      refine ⟨wellPlaced_of_aligned noop, ?_⟩
      rintro (empty | ⟨numbered, bound, raws, split, values, unbound⟩)
      · exact aligned_of_noop empty
      · exact aligned_of_wellPlaced noop numbered split values unbound

end Aligned

/-- A raw clause in front of a bound one. -/
def stampedRename : List (BuilderCall String) :=
  [.setRaw ⟨"updated_at = now()", quiet_literal rfl⟩, .set ⟨"name", quiet_literal rfl⟩ "Ann"]

def propertyTable : Ident := ⟨"property", rfl⟩

/-- The text asks for a second argument, and there is one. -/
theorem stampedRename_misnumbered : ¬ Aligned propertyTable stampedRename := by
  intro aligned
  have filled : (BuilderCall.run propertyTable stampedRename).isNoop = false := rfl
  have carried := (run_placeholders (k := 2) filled).mpr
    (.inl ⟨1, (⟨"name", quiet_literal rfl⟩, some "Ann"), rfl, by decide, rfl⟩)
  have bound : (BuilderCall.run propertyTable stampedRename).sql.2 = ["Ann"] := rfl
  have range := (aligned.numbers 2).mp carried
  rw [bound] at range
  exact absurd range.2 (by simp)

end Lazuli.Runtime
