import Lazuli.Runtime.TenantScope
import Lazuli.General.Like
import Lazuli.Runtime.Query

/-!
Which filters of a list query reach its WHERE clause (`Query.buildListSQL` and
`isNilOrZero` in `runtime/go/lazuli/run.go`, `FilterRule` in `query.go`).

A filter is optional whatever its source is: one that resolves to nil or to the zero of its
type is skipped, and the statement is that of the query without it. Every other filter is a
conjunct on its value, and the rows the statement reads satisfy it.
-/

namespace Lazuli.Runtime

/-- Does the value come from an argument of the query? -/
def Source.isArgument : Source → Bool
  | .input _ | .inputOptional _ => true
  | _ => false

/-- The condition of the filter is among the collected ones, on the value `v`. -/
def Collected.Has (c : Collected) (f : FilterRule) (v : Value) : Prop :=
  ∃ k, whereConditionFragment f.column f.when k ∈ c.1 ∧ arg c.2 k = some v

/-- The filter is a conjunct of the statement, on the value `v`. -/
def Plan.Has (p : Plan) (f : FilterRule) (v : Value) : Prop :=
  Collected.Has (p.stmt.conds, p.values) f v

namespace Collected.Has

variable {c c' : Collected} {f : FilterRule} {v : Value}

/-- What is collected later leaves the condition in place. -/
theorem keep (has : c.Has f v) (ext : c.Extends c') : c'.Has f v := by
  obtain ⟨k, hmem, hk⟩ := has
  obtain ⟨conds, values, rfl⟩ := ext
  exact ⟨k, List.mem_append_left _ hmem, arg_append hk⟩

theorem push (c : Collected) (f : FilterRule) (v : Value) :
    (c.push (fragmentOf f.column f.when) v).Has f v :=
  ⟨c.2.length + 1, List.mem_append_right _ List.mem_cons_self, arg_length c.2 v⟩

end Collected.Has

/-- The rows that a statement with the conjunct reads satisfy it. -/
theorem Plan.Has.row {p : Plan} {f : FilterRule} {v : Value} {server : Server} {row : Row}
    (has : p.Has f v) (touched : p.touches server row = true) :
    (fragmentOf f.column f.when).holds server row v = true := by
  obtain ⟨k, hmem, hk⟩ := has
  have hholds := Plan.holds_of_touches touched hmem
  simpa only [whereConditionFragment, Cond.holds, hk, Option.any_some] using hholds

section

variable {h : Hooks} {ctx : Option Ctx} {args : Slot}

/-! ### The loop over the filters -/

/-- The filter resolves to nil or to a zero value. -/
def FilterRule.skipped (h : Hooks) (ctx : Option Ctx) (args : Slot) (f : FilterRule) : Bool :=
  (resolveSource h ctx args f.when).toOption.any isNilOrZero

theorem addFilters_cons_error {f : FilterRule} {rest : List FilterRule} {c : Collected}
    {e : Failure} (err : resolveSource h ctx args f.when = .error e) :
    addFilters h ctx args (f :: rest) c = .error e := by
  rw [addFilters, err]
  rfl

theorem addFilters_cons_ok {f : FilterRule} {rest : List FilterRule} {c : Collected} {v : Value}
    (ok : resolveSource h ctx args f.when = .ok v) :
    addFilters h ctx args (f :: rest) c =
      if isNilOrZero v then addFilters h ctx args rest c
      else addFilters h ctx args rest (c.push (fragmentOf f.column f.when) v) := by
  rw [addFilters, ok]
  rfl

/-- The loop collects what it would collect without the skipped filters. -/
theorem addFilters_filter (filters : List FilterRule) (c : Collected) :
    addFilters h ctx args (filters.filter fun f => !f.skipped h ctx args) c =
      addFilters h ctx args filters c := by
  induction filters generalizing c with
  | nil => rfl
  | cons f rest ih =>
      cases hval : resolveSource h ctx args f.when with
      | error e =>
          have hkept : f.skipped h ctx args = false := by
            simp [FilterRule.skipped, hval, Except.toOption]
          rw [List.filter_cons_of_pos (by simp [hkept]), addFilters_cons_error hval,
            addFilters_cons_error hval]
      | ok v =>
          have hskip : f.skipped h ctx args = isNilOrZero v := by
            simp [FilterRule.skipped, hval, Except.toOption]
          cases hzero : isNilOrZero v with
          | true =>
              rw [List.filter_cons_of_neg (by simp [hskip, hzero]), addFilters_cons_ok hval, ih]
              simp [hzero]
          | false =>
              rw [List.filter_cons_of_pos (by simp [hskip, hzero]), addFilters_cons_ok hval,
                addFilters_cons_ok hval]
              simp [hzero, ih]

/-- Every filter resolves, and one whose value is not zero is collected. -/
theorem addFilters_has {filters : List FilterRule} {c c' : Collected}
    (ok : addFilters h ctx args filters c = .ok c') :
    ∀ f ∈ filters, ∃ v, resolveSource h ctx args f.when = .ok v ∧
      (isNilOrZero v = false → c'.Has f v) := by
  induction filters generalizing c with
  | nil => exact fun f hf => absurd hf List.not_mem_nil
  | cons g rest ih =>
      intro f hf
      obtain ⟨v, hval, hrest⟩ := bind_eq_ok.mp ok
      rcases List.mem_cons.mp hf with rfl | hf
      · refine ⟨v, hval, fun hzero => ?_⟩
        rw [hzero] at hrest
        exact (Collected.Has.push c f v).keep (addFilters_extends hrest)
      · split at hrest
        · exact ih hrest f hf
        · exact ih hrest f hf

/-! ### The statement -/

theorem buildListSQL_conditions {q : Query} {p : Plan} (ok : buildListSQL h ctx args q = .ok p) :
    ∃ res, q.resource = some res ∧ listConditions h ctx args q res = .ok (p.stmt.conds, p.values) := by
  unfold buildListSQL at ok
  split at ok
  · cases ok
  next res hres =>
    obtain ⟨found, hfound, ok⟩ := bind_eq_ok.mp ok
    obtain ⟨projection, -, ok⟩ := bind_eq_ok.mp ok
    cases ok
    exact ⟨res, hres, hfound⟩

/-- The statement is that of the query without the skipped filters. -/
theorem buildListSQL_filter (q : Query) :
    buildListSQL h ctx args { q with filters := q.filters.filter fun f => !f.skipped h ctx args } =
      buildListSQL h ctx args q := by
  simp only [buildListSQL, listConditions, addFilters_filter, noResource]

end

/-- A list query that is sent has resolved every filter. One whose value is neither nil nor
zero is a conjunct, and every row read satisfies it; the others are as if not declared. -/
theorem listFilters_conjuncts (h : Hooks) (ctx : Option Ctx) (args : Slot) (q : Query) (p : Plan)
    (ok : buildListSQL h ctx args q = .ok p) :
    (∀ f ∈ q.filters, ∃ v, resolveSource h ctx args f.when = .ok v ∧
      (isNilOrZero v = false → p.Has f v ∧
        ∀ server row, p.touches server row = true →
          (fragmentOf f.column f.when).holds server row v = true)) ∧
    buildListSQL h ctx args { q with filters := q.filters.filter fun f => !f.skipped h ctx args } =
      .ok p := by
  obtain ⟨res, -, hconds⟩ := buildListSQL_conditions ok
  obtain ⟨scope, -, hconds⟩ := bind_eq_ok.mp hconds
  obtain ⟨filtered, hfilters, hsearch⟩ := bind_eq_ok.mp hconds
  refine ⟨fun f hf => ?_, (buildListSQL_filter q).trans ok⟩
  obtain ⟨v, hval, hhas⟩ := addFilters_has hfilters f hf
  refine ⟨v, hval, fun hzero => ?_⟩
  have has : p.Has f v := (hhas hzero).keep (addSearch_extends hsearch)
  exact ⟨has, fun server row touched => has.row touched⟩

/-! ### Notes of an organisation -/

def note : Resource where
  name := ⟨"Note", by decide⟩

def ownerColumn : Ident := ⟨"owner", by decide⟩

theorem org_safe : "org".toList.all isIdentChar = true := by decide

def orgColumn : Ident := ⟨"org", org_safe⟩

/-- `filters owner = ctx.actor.user_id, org = ctx.user.org_id`. -/
def notesOfActor : Query where
  name := ⟨"notes.mine", by decide⟩
  kind := .list
  resource := some note
  rowType := .struct [⟨true, some "id", .integer⟩]
  filters := [⟨ownerColumn, .ctx "actor.user_id"⟩, ⟨orgColumn, .ctx "user.org_id"⟩]

/-- A user of no organisation. -/
def loner : Ctx where
  actor := ActorUser
  user := some ⟨7, 0, []⟩
  tenant := none
  now := none

theorem listFilters_conjuncts_member :
    ∃ p, buildListSQL noHooks (some member) (.direct .nil) notesOfActor = .ok p ∧
      (∀ f ∈ notesOfActor.filters,
        ∃ v, resolveSource noHooks (some member) (.direct .nil) f.when = .ok v ∧
        (isNilOrZero v = false → p.Has f v ∧
          ∀ server row, p.touches server row = true →
            (fragmentOf f.column f.when).holds server row v = true)) ∧
      buildListSQL noHooks (some member) (.direct .nil)
          { notesOfActor with
            filters := notesOfActor.filters.filter fun f =>
              !f.skipped noHooks (some member) (.direct .nil) } =
        .ok p :=
  ⟨⟨.select "\"id\"" note.name [.bound (.eq ownerColumn) 1, .bound (.eq orgColumn) 2]
      "ORDER BY created_at DESC LIMIT 100", [.int 7, .int 1]⟩, by rfl,
    listFilters_conjuncts noHooks (some member) (.direct .nil) notesOfActor _ (by rfl)⟩

/-- `filters org = ctx.user.org_id` alone. -/
def notesOfOrg : Query := { notesOfActor with filters := [⟨orgColumn, .ctx "user.org_id"⟩] }

/-- Every row of the table, without a condition. -/
def allNotes : Plan where
  stmt := .select "\"id\"" note.name [] "ORDER BY created_at DESC LIMIT 100"
  values := []

/-- The filter of a user whose organisation id is zero is no conjunct, and every row is read. -/
theorem zero_filter_dropped :
    (¬ ∀ (h : Hooks) (ctx : Option Ctx) (args : Slot) (q : Query) (p : Plan),
      buildListSQL h ctx args q = .ok p → ∀ f ∈ q.filters, f.when.isArgument = false →
        ∃ v, resolveSource h ctx args f.when = .ok v ∧ p.Has f v) ∧
    buildListSQL noHooks (some loner) (.direct .nil) notesOfOrg = .ok allNotes ∧
      ∀ server row, allNotes.touches server row = true := by
  have sent : buildListSQL noHooks (some loner) (.direct .nil) notesOfOrg = .ok allNotes := rfl
  refine ⟨fun claimed => ?_, sent, fun _ _ => rfl⟩
  obtain ⟨v, -, k, hmem, -⟩ := claimed noHooks (some loner) (.direct .nil) notesOfOrg allNotes sent
    ⟨orgColumn, .ctx "user.org_id"⟩ List.mem_cons_self rfl
  exact List.not_mem_nil hmem

end Lazuli.Runtime

/-!
The WHERE side of an effect, as a condition on rows (`applyUpdates`, `applyDeletes` and
`whereConditionFragment` in `runtime/go/lazuli/handle.go`).

Every entry of the map becomes a conjunct, whatever its value is. So the rows that a statement
touches meet every entry, and the tenant scope.
-/

namespace Lazuli.Runtime

/-- The value of the entry resolves, and the row meets the condition on it. -/
def Meets (h : Hooks) (ctx : Option Ctx) (input : Slot) (server : Server) (row : Row)
    (entry : Ident × Source) : Prop :=
  ∃ v, resolveSource h ctx input entry.2 = .ok v ∧
    (fragmentOf entry.1 entry.2).holds server row v = true

section Effects

variable {h : Hooks} {ctx : Option Ctx} {input : Slot} {server : Server} {row : Row} {p : Plan}

/-- Every entry resolves and is collected. -/
theorem addWhere_has {entries : List (Ident × Source)} {c c' : Collected}
    (ok : addWhere h ctx input entries c = .ok c') :
    ∀ e ∈ entries, ∃ v, resolveSource h ctx input e.2 = .ok v ∧ c'.Has ⟨e.1, e.2⟩ v := by
  induction entries generalizing c with
  | nil => exact fun e he => absurd he List.not_mem_nil
  | cons entry rest ih =>
      intro e he
      obtain ⟨v, hval, hrest⟩ := bind_eq_ok.mp ok
      rcases List.mem_cons.mp he with rfl | he
      · exact ⟨v, hval, (Collected.Has.push c ⟨e.1, e.2⟩ v).keep (addWhere_extends h ctx input hrest)⟩
      · exact ih hrest e he

/-- A statement that keeps what was collected touches rows that meet the entries. -/
theorem scopedWhere_meets {res : Resource} {wheres : Bindings} {values : List Value}
    {found : Collected} (ok : scopedWhere h ctx input res wheres values = .ok found)
    (keeps : found.Extends (p.stmt.conds, p.values)) (touched : p.touches server row = true) :
    ∀ e ∈ wheres.entries, Meets h ctx input server row e := by
  intro e he
  obtain ⟨scope, -, hadd⟩ := bind_eq_ok.mp ok
  obtain ⟨v, hval, has⟩ := addWhere_has hadd e he
  have hplan : p.Has ⟨e.1, e.2⟩ v := has.keep keeps
  exact ⟨v, hval, hplan.row touched⟩

theorem updates_meets {eff : UpdatesEffect} (ok : applyUpdates h ctx input eff = .ok p)
    (touched : p.touches server row = true) :
    ∀ e ∈ eff.wheres.entries, Meets h ctx input server row e := by
  obtain ⟨_, found, -, ⟨-, hfound, rfl⟩ | ⟨hfound, rfl⟩⟩ := applyUpdates_cases ok
  · refine scopedWhere_meets hfound ?_ touched
    exact .refl found
  · refine scopedWhere_meets hfound ?_ touched
    exact .refl found

theorem deletes_meets {eff : DeletesEffect} (ok : applyDeletes h ctx input eff = .ok p)
    (touched : p.touches server row = true) :
    ∀ e ∈ eff.wheres.entries, Meets h ctx input server row e := by
  obtain ⟨found, hfound, rfl⟩ := applyDeletes_ok ok
  split at touched
  · have kept : (softDelete ctx eff.resource found).stmt.conds = found.1 ∧
        ∃ more, (softDelete ctx eff.resource found).values = found.2 ++ more :=
      softDelete_keeps eff.resource found
    obtain ⟨hconds, more, hvalues⟩ := kept
    refine scopedWhere_meets hfound ⟨[], more, ?_⟩ touched
    rw [hconds, hvalues, List.append_nil]
  · refine scopedWhere_meets hfound ?_ touched
    exact .refl found

end Effects

end Lazuli.Runtime

/-!
Search patterns (`buildSearchPattern` in `runtime/go/lazuli/run.go`).

The term is escaped in one pass, so every character of it is read as itself, and the wildcards
around it are the only ones of the pattern.
-/

namespace Lazuli.Runtime

open Lazuli.General Like

variable {same : Char → Char → Bool}

theorem spells_escapeLike (c : Char) : Spells same c (escapeLike c) := by
  rw [escapeLike]
  split
  · exact spells_escaped c
  · next plain =>
      simp only [not_or] at plain
      exact spells_plain plain.2.1 plain.2.2 plain.1

/-- What a search in a mode finds, when characters compare with `same`. -/
def Finds (same : Char → Char → Bool) (mode : SearchMode) (term text : String) : Prop :=
  match mode with
  | .contains => ∃ front found rest, text.toList = front ++ found ++ rest ∧
      List.Forall₂ (fun c d => same c d = true) term.toList found
  | .startsWith => ∃ found rest, text.toList = found ++ rest ∧
      List.Forall₂ (fun c d => same c d = true) term.toList found
  | .exact => List.Forall₂ (fun c d => same c d = true) term.toList text.toList

theorem likes_buildSearchPattern (mode : SearchMode) (term text : String) :
    likes same (buildSearchPattern term mode).toList text.toList = true ↔
      Finds same mode term text := by
  cases mode with
  | contains =>
      have pattern : (buildSearchPattern term .contains).toList =
          '%' :: (term.toList.flatMap escapeLike ++ ['%']) := by
        simp [buildSearchPattern]
      rw [pattern, likes_any]
      simp only [likes_spelled spells_escapeLike, likes_any_nil, and_true, Finds]
      constructor
      · rintro ⟨front, _, eq, found, rest, rfl, literal⟩
        exact ⟨front, found, rest, by rw [eq, List.append_assoc], literal⟩
      · rintro ⟨front, found, rest, eq, literal⟩
        exact ⟨front, found ++ rest, by rw [eq, List.append_assoc], found, rest, rfl, literal⟩
  | startsWith =>
      have pattern : (buildSearchPattern term .startsWith).toList =
          term.toList.flatMap escapeLike ++ ['%'] := by
        simp [buildSearchPattern]
      rw [pattern, likes_spelled spells_escapeLike]
      simp only [likes_any_nil, and_true, Finds]
  | exact =>
      have pattern : (buildSearchPattern term .exact).toList =
          term.toList.flatMap escapeLike ++ [] := by
        simp [buildSearchPattern]
      rw [pattern, likes_spelled spells_escapeLike]
      simp only [likes_nil, Finds]
      constructor
      · rintro ⟨found, _, eq, literal, rfl⟩
        rwa [eq, List.append_nil]
      · exact fun literal => ⟨text.toList, [], (List.append_nil _).symm, literal, rfl⟩

/-- Read by `LIKE`, a search pattern matches the texts that contain the term, start with it or
are it. -/
theorem searchPattern_likes_iff (term text : String) (mode : SearchMode) :
    likes (· == ·) (buildSearchPattern term mode).toList text.toList = true ↔
      match mode with
      | .contains => term.toList <:+: text.toList
      | .startsWith => term.toList <+: text.toList
      | .exact => text = term := by
  have equal (found : List Char) :
      List.Forall₂ (fun c d => (c == d) = true) term.toList found ↔ term.toList = found := by
    simp only [beq_iff_eq, List.forall₂_eq_eq_eq]
  rw [likes_buildSearchPattern]
  cases mode with
  | contains =>
      simp only [Finds, equal]
      constructor
      · rintro ⟨front, _, rest, eq, rfl⟩
        exact ⟨front, rest, eq.symm⟩
      · rintro ⟨front, rest, eq⟩
        exact ⟨front, _, rest, eq.symm, rfl⟩
  | startsWith =>
      simp only [Finds, equal]
      constructor
      · rintro ⟨_, rest, eq, rfl⟩
        exact ⟨rest, eq.symm⟩
      · rintro ⟨rest, eq⟩
        exact ⟨_, rest, eq.symm, rfl⟩
  | exact =>
      simp only [Finds, equal]
      exact ⟨fun eq => (String.toList_inj.mp eq).symm, fun eq => congrArg String.toList eq.symm⟩

end Lazuli.Runtime
