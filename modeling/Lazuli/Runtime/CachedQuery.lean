import Lazuli.Runtime.StatementText
import Lazuli.Runtime.TenantScope

/-!
What a cache key says about a query (`run.go`, `cache_key.go`, `read_projection.go`).

A hit answers a caller with what the uncached path would have sent for another caller with
the same key. The key holds the tenant, the kind of actor and the user's id, but neither the
user's roles, which decide the column policies, nor the other parts of a context that a
source can read. `Agree` is what two contexts must have in common besides.
-/

namespace Lazuli.Runtime

open Lazuli.General

/-! ### The uncached path -/

/-- The statement of an uncached call: its text, its column list and its values. -/
structure Sent where
  text : String
  projection : String
  values : List Value
  deriving DecidableEq

def buildSQL (h : Hooks) (ctx : Option Ctx) (args : Slot) (q : Query) : Except Failure Plan :=
  match q.kind with
  | .list => buildListSQL h ctx args q
  | .lookup => buildLookupSQL h ctx args q

def Stmt.projection : Stmt → String
  | .select projection _ _ _ => projection
  | _ => "*"

/-- `none` when the call is refused before it sends anything. -/
def Query.uncached (h : Hooks) (ctx : Ctx) (args : Slot) (q : Query) : Option Sent :=
  match buildSQL h (some ctx) args q with
  | .ok p => some ⟨p.stmt.text, p.stmt.projection, p.values⟩
  | .error _ => none

/-! ### Its conditions -/

section Conditions

variable (h : Hooks) (ctx : Option Ctx) (args : Slot)

def filterConditions : List FilterRule → Except Failure Conditions
  | [] => .ok []
  | f :: rest => do
      let val ← resolveSource h ctx args f.when
      let more ← filterConditions rest
      .ok (if isNilOrZero val then more else (fragmentOf f.column f.when, val) :: more)

def searchConditions (search : Option SearchSpec) : Except Failure Conditions :=
  match search with
  | none => .ok []
  | some s =>
      if s.overColumns = [] then .ok []
      else do
        let val ← resolveSource h ctx args s.source
        .ok (if isNilOrZero val then []
          else [(.search s.overColumns, .string (buildSearchPattern val.text s.mode))])

def keyConditions : List LookupKey → Except Failure Conditions
  | [] => .ok []
  | k :: rest => do
      let val ← resolveSource h ctx args k.source
      let more ← keyConditions rest
      if isNilOrZero val then fail (lookupKeyRequired k.column)
      else .ok ((fragmentOf k.column k.source, val) :: more)

/-- What the sources of a query resolve to: its conditions behind the scope. -/
def Query.conditions (q : Query) : Except Failure Conditions :=
  match q.kind with
  | .list => do
      let filters ← filterConditions h ctx args q.filters
      let search ← searchConditions h ctx args q.search
      .ok (filters ++ search)
  | .lookup => if q.lookupBy = [] then fail (noLookupKeys q) else keyConditions h ctx args q.lookupBy

end Conditions

/-- What is collected when all conditions are pushed. -/
def Collected.pushAll (c : Collected) (l : Conditions) : Collected :=
  (c.1 ++ numbered (c.2.length + 1) l, c.2 ++ l.map Prod.snd)

theorem Collected.pushAll_nil (c : Collected) : c.pushAll [] = c := by
  simp [Collected.pushAll, numbered]

theorem Collected.pushAll_cons (c : Collected) (b : Fragment × Value) (l : Conditions) :
    c.pushAll (b :: l) = (c.push b.1 b.2).pushAll l := by
  simp [Collected.pushAll, Collected.push, numbered]

theorem Collected.pushAll_append (c : Collected) (l l' : Conditions) :
    c.pushAll (l ++ l') = (c.pushAll l).pushAll l' := by
  induction l generalizing c with
  | nil => rw [List.nil_append, Collected.pushAll_nil]
  | cons b l ih => rw [List.cons_append, Collected.pushAll_cons, ih, ← Collected.pushAll_cons]

section Collect

variable {h : Hooks} {ctx : Option Ctx} {args : Slot}

/-- A query part without a condition. -/
theorem collect_nothing (c c' : Collected) :
    (.ok c : Except Failure Collected) = .ok c' ↔
      ∃ l, (.ok [] : Except Failure Conditions) = .ok l ∧ c' = c.pushAll l := by
  constructor
  · intro h
    cases h
    exact ⟨[], rfl, (Collected.pushAll_nil c).symm⟩
  · rintro ⟨l, h, rfl⟩
    cases h
    rw [Collected.pushAll_nil]

/-- The loop and the list of conditions succeed together. -/
theorem addFilters_iff (filters : List FilterRule) (c c' : Collected) :
    addFilters h ctx args filters c = .ok c' ↔
      ∃ l, filterConditions h ctx args filters = .ok l ∧ c' = c.pushAll l := by
  induction filters generalizing c with
  | nil => exact collect_nothing c c'
  | cons f rest ih =>
      simp only [addFilters, filterConditions, bind_eq_ok]
      constructor
      · rintro ⟨val, hval, hrest⟩
        split at hrest
        next hzero =>
          obtain ⟨l, hl, rfl⟩ := (ih c).mp hrest
          exact ⟨l, ⟨val, hval, l, hl, by rw [if_pos hzero]⟩, rfl⟩
        next hzero =>
          obtain ⟨l, hl, rfl⟩ := (ih _).mp hrest
          refine ⟨_, ⟨val, hval, l, hl, by rw [if_neg hzero]⟩, ?_⟩
          rw [Collected.pushAll_cons]
      · rintro ⟨l, ⟨val, hval, more, hmore, hl⟩, rfl⟩
        refine ⟨val, hval, ?_⟩
        by_cases hzero : isNilOrZero val = true
        · rw [if_pos hzero] at hl ⊢
          cases hl
          exact (ih c).mpr ⟨_, hmore, rfl⟩
        · rw [if_neg hzero] at hl ⊢
          cases hl
          exact (ih _).mpr ⟨more, hmore, Collected.pushAll_cons ..⟩

theorem addSearch_iff (search : Option SearchSpec) (c c' : Collected) :
    addSearch h ctx args search c = .ok c' ↔
      ∃ l, searchConditions h ctx args search = .ok l ∧ c' = c.pushAll l := by
  unfold addSearch searchConditions
  cases search with
  | none => exact collect_nothing c c'
  | some s =>
      by_cases hover : s.overColumns = []
      · simp only [hover, if_true]
        exact collect_nothing c c'
      · simp only [if_neg hover, bind_eq_ok]
        constructor
        · rintro ⟨val, hval, hok⟩
          split at hok
          next hzero =>
            cases hok
            exact ⟨[], ⟨val, hval, by rw [if_pos hzero]⟩, (Collected.pushAll_nil c).symm⟩
          next hzero =>
            cases hok
            refine ⟨_, ⟨val, hval, by rw [if_neg hzero]⟩, ?_⟩
            rw [Collected.pushAll_cons, Collected.pushAll_nil]
        · rintro ⟨l, ⟨val, hval, hl⟩, rfl⟩
          refine ⟨val, hval, ?_⟩
          by_cases hzero : isNilOrZero val = true
          · rw [if_pos hzero] at hl ⊢
            cases hl
            rw [Collected.pushAll_nil]
          · rw [if_neg hzero] at hl ⊢
            cases hl
            rw [Collected.pushAll_cons, Collected.pushAll_nil]

theorem addLookupKeys_iff (keys : List LookupKey) (c c' : Collected) :
    addLookupKeys h ctx args keys c = .ok c' ↔
      ∃ l, keyConditions h ctx args keys = .ok l ∧ c' = c.pushAll l := by
  induction keys generalizing c with
  | nil => exact collect_nothing c c'
  | cons k rest ih =>
      simp only [addLookupKeys, keyConditions, bind_eq_ok]
      constructor
      · rintro ⟨val, hval, hrest⟩
        split at hrest
        · cases hrest
        next hzero =>
          obtain ⟨l, hl, rfl⟩ := (ih _).mp hrest
          refine ⟨_, ⟨val, hval, l, hl, by rw [if_neg hzero]⟩, ?_⟩
          rw [Collected.pushAll_cons]
      · rintro ⟨l, ⟨val, hval, more, hmore, hl⟩, rfl⟩
        refine ⟨val, hval, ?_⟩
        split at hl
        · cases hl
        next hzero =>
          cases hl
          rw [if_neg hzero]
          exact (ih _).mpr ⟨more, hmore, Collected.pushAll_cons ..⟩

end Collect

/-! ### What a call sends -/

def queryTail (q : Query) : String :=
  match q.kind with
  | .list => buildOrder q.order ++ " LIMIT " ++ toString (paginateOrDefault q.paginate)
  | .lookup => "LIMIT 1"

def sentOf (q : Query) (res : Resource) (projection : String) (c : Collected) : Sent :=
  ⟨(Stmt.select projection res.name c.1 (queryTail q)).text, projection, c.2⟩

theorem listConditions_iff {h : Hooks} {ctx : Option Ctx} {args : Slot} {q : Query}
    (hkind : q.kind = .list) (res : Resource) (c : Collected) :
    listConditions h ctx args q res = .ok c ↔ ∃ scope l,
      baseScopeConditions ctx res 1 = .ok scope ∧ q.conditions h ctx args = .ok l ∧
      c = Collected.pushAll scope l := by
  simp only [listConditions, Query.conditions, hkind, bind_eq_ok, addFilters_iff, addSearch_iff]
  constructor
  · rintro ⟨scope, hscope, filtered, ⟨filters, hfilters, rfl⟩, search, hsearch, rfl⟩
    refine ⟨scope, _, hscope, ⟨filters, hfilters, search, hsearch, rfl⟩, ?_⟩
    rw [Collected.pushAll_append]
  · rintro ⟨scope, l, hscope, ⟨filters, hfilters, search, hsearch, hl⟩, rfl⟩
    cases hl
    refine ⟨scope, hscope, _, ⟨filters, hfilters, rfl⟩, search, hsearch, ?_⟩
    rw [Collected.pushAll_append]

theorem lookupConditions_iff {h : Hooks} {ctx : Option Ctx} {args : Slot} {q : Query}
    (hkind : q.kind = .lookup) (keys : q.lookupBy ≠ []) (res : Resource) (c : Collected) :
    lookupConditions h ctx args q res = .ok c ↔ ∃ scope l,
      baseScopeConditions ctx res 1 = .ok scope ∧ q.conditions h ctx args = .ok l ∧
      c = Collected.pushAll scope l := by
  simp only [lookupConditions, Query.conditions, hkind, if_neg keys, bind_eq_ok, addLookupKeys_iff]
  constructor
  · rintro ⟨scope, hscope, l, hl, rfl⟩
    exact ⟨scope, l, hscope, hl, rfl⟩
  · rintro ⟨scope, l, hscope, hl, rfl⟩
    exact ⟨scope, hscope, l, hl, rfl⟩

/-- The plan of either kind of query. -/
theorem buildSQL_iff {h : Hooks} {ctx : Option Ctx} {args : Slot} {q : Query} {res : Resource}
    (hres : q.resource = some res) (p : Plan) :
    buildSQL h ctx args q = .ok p ↔ ∃ scope l projection,
      baseScopeConditions ctx res 1 = .ok scope ∧ q.conditions h ctx args = .ok l ∧
      readProjection h ctx res q.rowType = .ok projection ∧
      p = ⟨.select projection res.name (Collected.pushAll scope l).1 (queryTail q),
        (Collected.pushAll scope l).2⟩ := by
  have planned {conditions : Except Failure Conditions} {read : Except Failure String}
      {tail : String} :
      (∃ c, (∃ scope l, baseScopeConditions ctx res 1 = .ok scope ∧ conditions = .ok l ∧
          c = Collected.pushAll scope l) ∧ ∃ projection, read = .ok projection ∧
          (.ok ⟨.select projection res.name c.1 tail, c.2⟩ : Except Failure Plan) = .ok p) ↔
        ∃ scope l projection, baseScopeConditions ctx res 1 = .ok scope ∧ conditions = .ok l ∧
          read = .ok projection ∧
          p = ⟨.select projection res.name (Collected.pushAll scope l).1 tail,
            (Collected.pushAll scope l).2⟩ := by
    constructor
    · rintro ⟨c, ⟨scope, l, hscope, hl, rfl⟩, projection, hprojection, hp⟩
      cases hp
      exact ⟨scope, l, projection, hscope, hl, hprojection, rfl⟩
    · rintro ⟨scope, l, projection, hscope, hl, hprojection, rfl⟩
      exact ⟨_, ⟨scope, l, hscope, hl, rfl⟩, projection, hprojection, rfl⟩
  cases hkind : q.kind with
  | list =>
      simp only [buildSQL, hkind, buildListSQL, hres, bind_eq_ok, listConditions_iff hkind,
        queryTail]
      exact planned
  | lookup =>
      by_cases keys : q.lookupBy = []
      · simp only [buildSQL, hkind, buildLookupSQL, hres, keys, if_true, Query.conditions]
        constructor
        · intro hp
          cases hp
        · rintro ⟨scope, l, projection, -, hl, -, -⟩
          cases hl
      · simp only [buildSQL, hkind, buildLookupSQL, hres, if_neg keys, bind_eq_ok,
          lookupConditions_iff hkind keys, queryTail]
        exact planned

/-- A call is sent when its scope, its sources and its column list all resolve. -/
theorem uncached_iff {h : Hooks} {ctx : Ctx} {args : Slot} {q : Query} {res : Resource}
    (hres : q.resource = some res) (sent : Sent) :
    q.uncached h ctx args = some sent ↔ ∃ scope l projection,
      baseScopeConditions (some ctx) res 1 = .ok scope ∧
      q.conditions h (some ctx) args = .ok l ∧
      readProjection h (some ctx) res q.rowType = .ok projection ∧
      sent = sentOf q res projection (Collected.pushAll scope l) := by
  unfold Query.uncached
  constructor
  · intro hsent
    split at hsent
    next p hp =>
      obtain ⟨scope, l, projection, hscope, hl, hprojection, rfl⟩ := (buildSQL_iff hres p).mp hp
      exact ⟨scope, l, projection, hscope, hl, hprojection, (Option.some.inj hsent).symm⟩
    · cases hsent
  · rintro ⟨scope, l, projection, hscope, hl, hprojection, rfl⟩
    rw [(buildSQL_iff hres _).mpr ⟨scope, l, projection, hscope, hl, hprojection, rfl⟩]
    rfl

/-! ### Agreement -/

/-- What two contexts with one key must agree on. Either both calls are refused, or their
sources resolve alike and the read policies decide alike on every column. -/
def Query.Agree (h : Hooks) (ctx ctx' : Ctx) (args : Slot) (q : Query) : Prop :=
  match q.resource with
  | none => True
  | some res =>
      res.tenancy = .org ∧ ctx.tenant = none ∨
      quotable (dbColumnsOf q.rowType) = false ∨
      match q.conditions h (some ctx) args, q.conditions h (some ctx') args with
      | .error _, .error _ => True
      | .ok l, .ok l' => l = l' ∧
          ∀ col ∈ dbColumnsOf q.rowType, denied h ctx res col = denied h ctx' res col
      | _, _ => False

section Agree

variable {h : Hooks} {ctx ctx' : Ctx} {args : Slot} {q : Query} {res : Resource}

/-- The scope looks at the tenant only. -/
theorem baseScopeConditions_congr {ctx ctx' : Option Ctx}
    (tenant : ctx.bind Ctx.tenant = ctx'.bind Ctx.tenant) (start : Nat) :
    baseScopeConditions ctx res start = baseScopeConditions ctx' res start := by
  unfold baseScopeConditions
  rw [tenant]

theorem fragmentOf_ne_search (col : Ident) (src : Source) (cols : List Ident) :
    fragmentOf col src ≠ .search cols := by
  intro hsearch
  cases src <;> cases hsearch

theorem filterConditions_plain {ctx : Option Ctx} {filters : List FilterRule} {l : Conditions}
    (hl : filterConditions h ctx args filters = .ok l) :
    ∀ b ∈ l, ∀ cols, b.1 ≠ .search cols := by
  induction filters generalizing l with
  | nil =>
      cases hl
      exact fun b hb => absurd hb List.not_mem_nil
  | cons f rest ih =>
      obtain ⟨val, -, hl⟩ := bind_eq_ok.mp hl
      obtain ⟨more, hmore, hl⟩ := bind_eq_ok.mp hl
      obtain rfl := Except.ok.inj hl
      split
      · exact ih hmore
      · intro b hb
        cases hb with
        | head => exact fragmentOf_ne_search f.column f.when
        | tail _ hb => exact ih hmore b hb

theorem keyConditions_plain {ctx : Option Ctx} {keys : List LookupKey} {l : Conditions}
    (hl : keyConditions h ctx args keys = .ok l) : ∀ b ∈ l, ∀ cols, b.1 ≠ .search cols := by
  induction keys generalizing l with
  | nil =>
      cases hl
      exact fun b hb => absurd hb List.not_mem_nil
  | cons k rest ih =>
      obtain ⟨val, -, hl⟩ := bind_eq_ok.mp hl
      obtain ⟨more, hmore, hl⟩ := bind_eq_ok.mp hl
      split at hl
      · cases hl
      · obtain rfl := Except.ok.inj hl
        intro b hb
        cases hb with
        | head => exact fragmentOf_ne_search k.column k.source
        | tail _ hb => exact ih hmore b hb

theorem searchConditions_searches {ctx : Option Ctx} {search : Option SearchSpec} {l : Conditions}
    (hl : searchConditions h ctx args search = .ok l) :
    Searches (search.map SearchSpec.overColumns) l := by
  unfold searchConditions at hl
  split at hl
  · cases hl
    exact fun b hb => absurd hb List.not_mem_nil
  next s =>
    split at hl
    · cases hl
      exact fun b hb => absurd hb List.not_mem_nil
    · obtain ⟨val, -, hl⟩ := bind_eq_ok.mp hl
      obtain rfl := Except.ok.inj hl
      split
      · exact fun b hb => absurd hb List.not_mem_nil
      · intro b hb cols hcols
        obtain rfl := List.mem_singleton.mp hb
        cases hcols
        rfl

theorem searches_conditions {ctx : Option Ctx} {l : Conditions}
    (hl : q.conditions h ctx args = .ok l) : Searches (q.search.map SearchSpec.overColumns) l := by
  unfold Query.conditions at hl
  split at hl
  · obtain ⟨filters, hfilters, hl⟩ := bind_eq_ok.mp hl
    obtain ⟨search, hsearch, hl⟩ := bind_eq_ok.mp hl
    cases hl
    intro b hb cols hcols
    rcases List.mem_append.mp hb with hb | hb
    · exact absurd hcols (filterConditions_plain hfilters b hb cols)
    · exact searchConditions_searches hsearch b hb cols hcols
  · split at hl
    · cases hl
    · exact fun b hb cols hcols => absurd hcols (keyConditions_plain hl b hb cols)

/-- A query ends with ORDER or LIMIT. -/
theorem queryTail_head (q : Query) : ∃ c t, (queryTail q).toList = c :: t ∧ (c = 'O' ∨ c = 'L') := by
  unfold queryTail buildOrder
  cases q.kind with
  | list =>
      simp only [String.toList_append]
      split
      · exact ⟨'O', _, rfl, .inl rfl⟩
      · rw [String.toList_append]
        exact ⟨'O', _, rfl, .inl rfl⟩
  | lookup => exact ⟨'L', _, String.toList_ofList, .inr rfl⟩

/-- No text that ends a query looks like a condition. -/
theorem queryTail_apart (q : Query) (s : List Char) :
    (" " ++ queryTail q).toList ≠ " AND ".toList ++ s ∧
      (" " ++ queryTail q).toList ≠ " WHERE ".toList ++ s := by
  obtain ⟨c, t, htail, hc⟩ := queryTail_head q
  rw [String.toList_append, htail]
  constructor
  · intro heq
    have hhead : c = 'A' := (List.cons.inj (List.cons.inj heq).2).1
    rcases hc with rfl | rfl <;> cases hhead
  · intro heq
    have hhead : c = 'W' := (List.cons.inj (List.cons.inj heq).2).1
    rcases hc with rfl | rfl <;> cases hhead

/-- Two texts that differ in the middle only. -/
theorem toList_middle_inj (before : String) {middle middle' last : String}
    (heq : before ++ middle ++ " " ++ last = before ++ middle' ++ " " ++ last) :
    middle.toList ++ (" " ++ last).toList = middle'.toList ++ (" " ++ last).toList := by
  rw [String.append_assoc, String.append_assoc, String.append_assoc, String.append_assoc] at heq
  have hmiddle := (String.append_right_inj before).mp heq
  generalize " " ++ last = rest at hmiddle ⊢
  rw [← String.toList_append, hmiddle, String.toList_append]

theorem select_text_inj {projection : String} {table : Ident} {conds conds' : List Cond}
    {tail : String} (heq : (Stmt.select projection table conds tail).text =
      (Stmt.select projection table conds' tail).text) :
    (whereClause conds).toList ++ (" " ++ tail).toList =
      (whereClause conds').toList ++ (" " ++ tail).toList :=
  toList_middle_inj ("SELECT " ++ projection ++ " FROM " ++ quoteResourceTable table) heq

/-- The statement shows its conditions, and which columns are masked. -/
theorem sentOf_inj {l l' : Conditions} (scope : Collected)
    (hl : Searches (q.search.map SearchSpec.overColumns) l)
    (hl' : Searches (q.search.map SearchSpec.overColumns) l') :
    sentOf q res (projectionText h ctx res (dbColumnsOf q.rowType)) (scope.pushAll l) =
        sentOf q res (projectionText h ctx' res (dbColumnsOf q.rowType)) (scope.pushAll l') ↔
      l = l' ∧ ∀ col ∈ dbColumnsOf q.rowType, denied h ctx res col = denied h ctx' res col := by
  generalize dbColumnsOf q.rowType = cols
  constructor
  · intro heq
    obtain ⟨htext, hprojection, hvalues⟩ := Sent.mk.inj heq
    have hsnd := List.append_cancel_left hvalues
    have hfst : l.map Prod.fst = l'.map Prod.fst := by
      rw [hprojection] at htext
      exact whereClause_inj (fun s => (queryTail_apart q s).1) (fun s => (queryTail_apart q s).2)
        scope.1 _ hl hl' (select_text_inj htext)
    refine ⟨?_, projectionText_inj hprojection⟩
    calc
      l = (l.map Prod.fst).zip (l.map Prod.snd) := List.zip_of_prod rfl rfl
      _ = (l'.map Prod.fst).zip (l'.map Prod.snd) := by rw [hfst, hsnd]
      _ = l' := (List.zip_of_prod rfl rfl).symm
  · rintro ⟨rfl, hdenied⟩
    have hprojection : projectionText h ctx res cols = projectionText h ctx' res cols := by
      unfold projectionText
      have hcolumns : cols.map (columnText h ctx res) = cols.map (columnText h ctx' res) := by
        apply List.map_congr_left
        intro col hcol
        unfold columnText
        rw [hdenied col hcol]
      rw [hcolumns]
    rw [hprojection]

/-- A call without a tenant on a tenant resource is refused, and so is one whose columns
cannot be quoted or whose sources do not resolve. -/
theorem uncached_refused (hres : q.resource = some res)
    (h' : (∃ e, baseScopeConditions (some ctx) res 1 = .error e) ∨
      quotable (dbColumnsOf q.rowType) = false ∨ ∃ e, q.conditions h (some ctx) args = .error e) :
    q.uncached h ctx args = none := by
  cases hsent : q.uncached h ctx args with
  | none => rfl
  | some sent =>
      obtain ⟨scope, l, projection, hscope, hl, hprojection, -⟩ := (uncached_iff hres sent).mp hsent
      rcases h' with ⟨e, he⟩ | bad | ⟨e, he⟩
      · rw [he] at hscope
        cases hscope
      · obtain ⟨e, he⟩ := readProjection_panic h ctx res bad
        rw [he] at hprojection
        cases hprojection
      · rw [he] at hl
        cases hl

theorem uncached_of_ok (hres : q.resource = some res) {scope : Collected} {l : Conditions}
    (hscope : baseScopeConditions (some ctx) res 1 = .ok scope)
    (safe : quotable (dbColumnsOf q.rowType) = true)
    (hl : q.conditions h (some ctx) args = .ok l) :
    q.uncached h ctx args =
      some (sentOf q res (projectionText h ctx res (dbColumnsOf q.rowType)) (scope.pushAll l)) :=
  (uncached_iff hres _).mpr ⟨scope, l, _, hscope, hl, readProjection_some safe, rfl⟩

/-- The scope fails only on a tenant resource without a tenant. -/
theorem baseScopeConditions_error {ctx : Option Ctx} {e : Failure}
    (he : baseScopeConditions ctx res 1 = .error e) :
    res.tenancy = .org ∧ ctx.bind Ctx.tenant = none := by
  unfold baseScopeConditions at he
  cases tenancy : res.tenancy with
  | org =>
      cases tenant : ctx.bind Ctx.tenant with
      | none => exact ⟨rfl, rfl⟩
      | some t =>
          rw [tenancy, tenant] at he
          cases he
  | none | team | custom =>
      rw [tenancy] at he
      cases he

theorem baseScopeConditions_ok {ctx : Option Ctx} {scope : Collected}
    (hscope : baseScopeConditions ctx res 1 = .ok scope) :
    ¬ (res.tenancy = .org ∧ ctx.bind Ctx.tenant = none) := by
  rintro ⟨tenancy, tenant⟩
  rw [baseScopeConditions_of_no_tenant tenancy tenant] at hscope
  cases hscope

/-- Two contexts with one tenant are sent the same exactly when they agree. -/
theorem uncached_eq_iff_of_tenant (tenant : ctx.tenant = ctx'.tenant) :
    q.uncached h ctx args = q.uncached h ctx' args ↔ q.Agree h ctx ctx' args := by
  cases hres : q.resource with
  | none =>
      have refused (ctx : Ctx) : q.uncached h ctx args = none := by
        unfold Query.uncached buildSQL buildListSQL buildLookupSQL
        cases q.kind <;> simp only [hres] <;> rfl
      rw [refused ctx, refused ctx']
      simp only [Query.Agree, hres]
  | some res =>
      have hcongr : baseScopeConditions (some ctx) res 1 = baseScopeConditions (some ctx') res 1 :=
        by
        apply baseScopeConditions_congr
        exact tenant
      simp only [Query.Agree, hres]
      cases hscope : baseScopeConditions (some ctx) res 1 with
      | error e =>
          rw [uncached_refused hres (.inl ⟨e, hscope⟩),
            uncached_refused hres (.inl ⟨e, hcongr.symm.trans hscope⟩)]
          exact ⟨fun _ => .inl (baseScopeConditions_error hscope), fun _ => rfl⟩
      | ok scope =>
          have hscoped := baseScopeConditions_ok hscope
          cases safe : quotable (dbColumnsOf q.rowType) with
          | false =>
              rw [uncached_refused hres (.inr (.inl safe)), uncached_refused hres (.inr (.inl safe))]
              exact ⟨fun _ => .inr (.inl rfl), fun _ => rfl⟩
          | true =>
              cases hl : q.conditions h (some ctx) args with
              | error e =>
                  rw [uncached_refused hres (.inr (.inr ⟨e, hl⟩))]
                  cases hl' : q.conditions h (some ctx') args with
                  | error e' =>
                      rw [uncached_refused hres (.inr (.inr ⟨e', hl'⟩))]
                      exact ⟨fun _ => .inr (.inr trivial), fun _ => rfl⟩
                  | ok l' =>
                      rw [uncached_of_ok hres (hcongr.symm.trans hscope) safe hl']
                      constructor
                      · intro heq
                        cases heq
                      · rintro (tenancy | bad | mixed)
                        · exact absurd tenancy hscoped
                        · cases bad
                        · exact mixed.elim
              | ok l =>
                  rw [uncached_of_ok hres hscope safe hl]
                  cases hl' : q.conditions h (some ctx') args with
                  | error e' =>
                      rw [uncached_refused hres (.inr (.inr ⟨e', hl'⟩))]
                      constructor
                      · intro heq
                        cases heq
                      · rintro (tenancy | bad | mixed)
                        · exact absurd tenancy hscoped
                        · cases bad
                        · exact mixed.elim
                  | ok l' =>
                      rw [uncached_of_ok hres (hcongr.symm.trans hscope) safe hl', Option.some_inj,
                        sentOf_inj scope (searches_conditions hl) (searches_conditions hl')]
                      constructor
                      · exact fun same => .inr (.inr same)
                      · rintro (tenancy | bad | same)
                        · exact absurd tenancy hscoped
                        · cases bad
                        · exact same

end Agree

/-- Two calls with one key are sent the same exactly when their contexts agree on what the
sources read and on what the column policies decide. -/
theorem uncached_eq_iff {A : Type} (H : ArgsHash A) (view : A → Slot) (h : Hooks) (q : Query)
    (ctx ctx' : Ctx) (a a' : A) (key : String)
    (hkey : cacheKeyFor H (some ctx) q.name a = some key)
    (hkey' : cacheKeyFor H (some ctx') q.name a' = some key) :
    q.uncached h ctx (view a) = q.uncached h ctx' (view a') ↔ q.Agree h ctx ctx' (view a) := by
  obtain ⟨rfl, same⟩ := eq_of_key hkey hkey'
  exact uncached_eq_iff_of_tenant same.tenant

/-! ### A salary column -/

/-- Members of an organisation, with a salary that only admins may read. -/
def employee : Resource where
  name := ⟨"Employee", by decide⟩
  tenancy := .org
  fieldReadPolicies
    | "salary" => some ⟨"", [⟨"role", "admin", none⟩]⟩
    | _ => none

def employees : Query where
  name := ⟨"ListEmployees", by decide⟩
  kind := .list
  resource := some employee
  rowType := .struct [⟨true, some "id", .integer⟩, ⟨true, some "salary", .integer⟩]

theorem zeros_noBar {h : String} (zeros : some "00" = some h) : '|' ∉ h.toList := by
  cases zeros
  decide

def unitHash : ArgsHash Unit where
  hashArgs _ := some "00"
  injective _ _ _ _ _ := rfl
  noBar _ _ := zeros_noBar

/-- User 7 of organisation 1, with or without the role. -/
def admin : Ctx := { member with user := some ⟨7, 1, ["admin"]⟩ }

def demoted : Ctx := { member with user := some ⟨7, 1, []⟩ }

def keyOfSeven : String := "ListEmployees|t1|user|u7|00"

theorem uncached_eq_iff_admin :
    employees.uncached noHooks admin (.direct .nil) =
      employees.uncached noHooks admin (.direct .nil) ↔
    employees.Agree noHooks admin admin (.direct .nil) :=
  uncached_eq_iff unitHash (fun _ => .direct .nil) noHooks employees admin admin () () keyOfSeven
    (by decide +kernel) (by decide +kernel)

/-- The user loses the role, keeps the key, and a hit shows the column that the uncached
path masks. -/
theorem role_outside_key :
    cacheKeyFor unitHash (some admin) employees.name () = some keyOfSeven ∧
      cacheKeyFor unitHash (some demoted) employees.name () = some keyOfSeven ∧
      (employees.uncached noHooks admin (.direct .nil)).map Sent.projection =
        some "\"id\", \"salary\"" ∧
      (employees.uncached noHooks demoted (.direct .nil)).map Sent.projection =
        some "\"id\", 0 AS \"salary\"" := by
  refine ⟨?_, ?_, ?_, ?_⟩ <;> decide +kernel

end Lazuli.Runtime
