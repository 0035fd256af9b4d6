import Mathlib.Data.List.Nodup
import Lazuli.Runtime.CachedQuery
import Lazuli.Runtime.Encryption
import Lazuli.Runtime.Placeholders

/-!
Placeholders and values (`applyCreates`, `applyUpdates`, `applyDeletes`, `applyReorder` in
`handle.go`, `buildListSQL` and `buildLookupSQL` in `run.go`).

The numbers in the text of a statement are those of its values, and each number is that of the
value it was written for. What a builder collects is its scope with `pushAll` of the conditions
(`Gathered`), behind the values of the SET side; this is why a skipped column, or a scope without
a value, moves no later placeholder.
-/

namespace Lazuli.Runtime

open Lazuli.General SqlText

/-! ### What a statement binds -/

def Cond.compared (values : List Value) : Cond → Option (Fragment × Value)
  | .bound f k => (arg values k).map fun v => (f, v)
  | .notDeleted | .org _ => none

/-- The conditions of the author, with the values of their placeholders. -/
def Plan.compared (p : Plan) : Conditions := p.stmt.conds.filterMap (Cond.compared p.values)

def Assign.column : Assign → Ident
  | .bound col _ | .now col => col

/-- The columns of an INSERT, with the values of their placeholders. -/
def InsertStmt.inserted (s : InsertStmt) (values : List Value) : List (Ident × Value) :=
  (s.cols.zip s.placeholders).filterMap fun b => (arg values b.2).map fun v => (b.1, v)

/-- One item for each of some entries, in their order. -/
def InOrder {α β : Type} (rel : α → β → Prop) (entries : List α) (items : List β) : Prop :=
  ∃ kept : List α, kept.Sublist entries ∧ List.Forall₂ rel kept items

/-- What becomes of a value before it is written: text is sanitized, bytes are encrypted. -/
def writtenValue (h : Hooks) (ctx : Option Ctx) (res : Resource) (col : Ident) (v : Value) :
    Except Error Value :=
  encryptColumnValue h ctx res col (sanitizeColumnValue h res col v)

section Sources

variable (h : Hooks) (ctx : Option Ctx) (args : Slot)

/-- A condition with the value of its own source, as it is. -/
def Compares (e : Ident × Source) (b : Fragment × Value) : Prop :=
  b.1 = fragmentOf e.1 e.2 ∧ resolveSource h ctx args e.2 = .ok b.2

/-- A search with the pattern of its source. -/
def SearchesFor (s : SearchSpec) (b : Fragment × Value) : Prop :=
  ∃ v, resolveSource h ctx args s.source = .ok v ∧
    b = (.search s.overColumns, .string (buildSearchPattern v.text s.mode))

/-- A column with the value of its own source, as it is written with the context `pinned`. -/
def Writes (pinned : Option Ctx) (res : Resource) (e : Ident × Source) (b : Ident × Value) : Prop :=
  b.1 = e.1 ∧ ∃ v, resolveSource h ctx args e.2 = .ok v ∧
    writtenValue h pinned res e.1 v = .ok b.2

end Sources

/-! ### Placeholders of conditions -/

theorem slots_fragment {f : Fragment} (some : f ≠ .search []) (k n : Nat) :
    n ∈ f.slots k ↔ n = k := by
  cases f with
  | eq col => exact List.mem_singleton
  | inOwned col relatedTable ownerColumn => exact List.mem_singleton
  | search cols =>
      have nonempty : cols ≠ [] := by
        rintro rfl
        exact some rfl
      rw [Fragment.slots, List.mem_flatMap]
      constructor
      · rintro ⟨col, -, mem⟩
        exact List.mem_singleton.mp mem
      · rintro rfl
        obtain ⟨col, mem⟩ := List.exists_mem_of_ne_nil cols nonempty
        exact ⟨col, mem, List.mem_singleton.mpr rfl⟩

theorem slots_numbered {l : Conditions} (some : ∀ b ∈ l, b.1 ≠ .search []) (k n : Nat) :
    n ∈ (numbered k l).flatMap Cond.slots ↔ k ≤ n ∧ n < k + l.length := by
  induction l generalizing k with
  | nil =>
      rw [numbered, List.flatMap_nil, List.length_nil]
      exact iff_of_false List.not_mem_nil (by omega)
  | cons b l ih =>
      rw [numbered, List.flatMap_cons, List.mem_append, Cond.slots,
        slots_fragment (some b List.mem_cons_self),
        ih (fun b hb => some b (List.mem_cons_of_mem _ hb)), List.length_cons]
      omega

/-- Each condition is numbered as its value. -/
theorem compared_numbered (l : Conditions) (before after : List Value) :
    (numbered (before.length + 1) l).filterMap
      (Cond.compared (before ++ l.map Prod.snd ++ after)) = l := by
  induction l generalizing before with
  | nil => rfl
  | cons b l ih =>
      have here : Cond.compared (before ++ (b :: l).map Prod.snd ++ after)
          (.bound b.1 (before.length + 1)) = some b := by
        have value : arg (before ++ [b.2] ++ (l.map Prod.snd ++ after)) (before.length + 1) =
            some b.2 := arg_append (arg_length before b.2)
        rw [Cond.compared, List.map_cons, List.append_cons, List.append_assoc, value]
        rfl
      have later := ih (before ++ [b.2])
      rw [List.length_append, List.length_singleton, List.append_assoc before] at later
      exact (List.filterMap_cons_some here).trans (congrArg (b :: ·) later)

theorem org_notMem_numbered (k n : Nat) (l : Conditions) : Cond.org n ∉ numbered k l := by
  induction l generalizing k with
  | nil => exact List.not_mem_nil
  | cons b l ih =>
      intro mem
      rcases List.mem_cons.mp mem with same | mem
      · cases same
      · exact ih (k + 1) mem

/-! ### What is collected -/

/-- The conditions `l` behind their scope and the values `before`. -/
structure Gathered (ctx : Option Ctx) (before : List Value) (l : Conditions) (found : Collected) :
    Prop where
  extends_before : ∃ more, found.2 = before ++ more
  slots : ∀ k, k ∈ found.1.flatMap Cond.slots ↔ before.length < k ∧ k ≤ found.2.length
  compared : ∀ after, found.1.filterMap (Cond.compared (found.2 ++ after)) = l
  scope : ∀ k, Cond.org k ∈ found.1 → ∃ tenant, ctx.bind Ctx.tenant = some tenant ∧
    ∀ after, arg (found.2 ++ after) k = some (.int tenant.orgID)

/-- The scope has its one value, or none. -/
theorem scope_cases {ctx : Option Ctx} {res : Resource} {start : Nat}
    {scope : List Cond × List Value} (ok : baseScopeConditions ctx res start = .ok scope) :
    ∃ live : List Cond, (∀ c ∈ live, c = .notDeleted) ∧
      (scope = (live, []) ∨ ∃ tenant, ctx.bind Ctx.tenant = some tenant ∧
        scope = (live ++ [.org start], [.int tenant.orgID])) := by
  unfold baseScopeConditions at ok
  refine ⟨if res.softDelete then [Cond.notDeleted] else [], ?_, ?_⟩
  · intro c mem
    split at mem
    · exact List.mem_singleton.mp mem
    · cases mem
  · dsimp only at ok
    split at ok
    · split at ok
      · cases ok
      next tenant htenant => exact .inr ⟨tenant, htenant, (Except.ok.inj ok).symm⟩
    · exact .inl (Except.ok.inj ok).symm

section Live

variable {live : List Cond} (deleted : ∀ c ∈ live, c = .notDeleted)

include deleted

theorem slots_live : live.flatMap Cond.slots = [] := by
  refine List.flatMap_eq_nil_iff.mpr fun c hc => ?_
  rw [deleted c hc]
  rfl

theorem compared_live (values : List Value) : live.filterMap (Cond.compared values) = [] := by
  refine List.filterMap_eq_nil_iff.mpr fun c hc => ?_
  rw [deleted c hc]
  rfl

theorem org_notMem_live (k : Nat) : Cond.org k ∉ live := by
  intro mem
  cases deleted _ mem

end Live

/-- Conditions pushed behind a scope. -/
theorem gathered_pushAll {ctx : Option Ctx} {res : Resource} (before : List Value)
    {scope : List Cond × List Value} {l : Conditions}
    (ok : baseScopeConditions ctx res (before.length + 1) = .ok scope)
    (some : ∀ b ∈ l, b.1 ≠ .search []) :
    Gathered ctx before l (Collected.pushAll (scope.1, before ++ scope.2) l) := by
  have later := compared_numbered l (before ++ scope.2)
  obtain ⟨live, deleted, rfl | ⟨tenant, htenant, rfl⟩⟩ := scope_cases ok
  · refine ⟨⟨_, List.append_assoc ..⟩, fun k => ?_, fun after => ?_, fun k mem => ?_⟩
    · simp only [Collected.pushAll, List.append_nil, List.flatMap_append, slots_live deleted,
        List.nil_append, slots_numbered some, List.length_append, List.length_map]
      omega
    · have rest := later after
      simp only [Collected.pushAll, List.filterMap_append, compared_live deleted, List.nil_append]
      exact rest
    · rcases List.mem_append.mp mem with mem | mem
      · exact absurd mem (org_notMem_live deleted k)
      · exact absurd mem (org_notMem_numbered _ k l)
  · refine ⟨⟨_, List.append_assoc ..⟩, fun k => ?_, fun after => ?_, fun k mem => ?_⟩
    · simp only [Collected.pushAll, List.flatMap_append, slots_live deleted, List.nil_append,
        List.mem_append, slots_numbered some, List.length_append, List.length_map,
        List.length_singleton, List.flatMap_singleton, Cond.slots, List.mem_singleton]
      omega
    · have rest := later after
      simp only [Collected.pushAll, List.filterMap_append, compared_live deleted, List.nil_append]
      exact rest
    · have same : k = before.length + 1 := by
        rcases List.mem_append.mp mem with mem | mem
        · rcases List.mem_append.mp mem with mem | mem
          · exact absurd mem (org_notMem_live deleted k)
          · cases List.mem_singleton.mp mem
            rfl
        · exact absurd mem (org_notMem_numbered _ k l)
      refine ⟨tenant, htenant, fun after => ?_⟩
      rw [same, Collected.pushAll, List.append_assoc]
      exact arg_append (arg_length before _)

/-! ### Own sources -/

section Own

variable {h : Hooks} {ctx : Option Ctx} {args : Slot}

theorem InOrder.of_all {α β : Type} {rel : α → β → Prop} {entries : List α} {items : List β}
    (all : List.Forall₂ rel entries items) : InOrder rel entries items := ⟨entries, .refl _, all⟩

namespace InOrder

variable {α β : Type} {rel : α → β → Prop} {entry : α} {entries : List α} {items : List β}

theorem skip (later : InOrder rel entries items) : InOrder rel (entry :: entries) items := by
  obtain ⟨kept, sub, all⟩ := later
  exact ⟨kept, sub.cons _, all⟩

theorem keep {item : β} (here : rel entry item) (later : InOrder rel entries items) :
    InOrder rel (entry :: entries) (item :: items) := by
  obtain ⟨kept, sub, all⟩ := later
  exact ⟨entry :: kept, sub.cons_cons _, .cons here all⟩

end InOrder

theorem compares_search {e : Ident × Source} {b : Fragment × Value}
    (own : Compares h ctx args e b) : b.1 ≠ .search [] := by
  rw [own.1]
  exact fragmentOf_ne_search e.1 e.2 []

theorem InOrder.some {entries : List (Ident × Source)} {l : Conditions}
    (own : InOrder (Compares h ctx args) entries l) : ∀ b ∈ l, b.1 ≠ .search [] := by
  obtain ⟨kept, -, all⟩ := own
  induction all with
  | nil => exact fun b hb => absurd hb List.not_mem_nil
  | cons here _ ih => exact List.forall_mem_cons.mpr ⟨compares_search here, ih⟩

theorem addWhere_pushAll {entries : List (Ident × Source)} {c found : Collected}
    (ok : addWhere h ctx args entries c = .ok found) :
    ∃ l, List.Forall₂ (Compares h ctx args) entries l ∧ found = c.pushAll l := by
  induction entries generalizing c with
  | nil =>
      cases ok
      exact ⟨[], .nil, (Collected.pushAll_nil _).symm⟩
  | cons e rest ih =>
      obtain ⟨val, hval, ok⟩ := bind_eq_ok.mp ok
      obtain ⟨l, all, rfl⟩ := ih ok
      refine ⟨(fragmentOf e.1 e.2, val) :: l, .cons ⟨rfl, hval⟩ all, ?_⟩
      rw [Collected.pushAll_cons]

theorem filterConditions_own {filters : List FilterRule} {l : Conditions}
    (ok : filterConditions h ctx args filters = .ok l) :
    InOrder (Compares h ctx args) (filters.map fun f => (f.column, f.when)) l := by
  induction filters generalizing l with
  | nil =>
      cases ok
      exact .of_all .nil
  | cons f rest ih =>
      obtain ⟨val, hval, ok⟩ := bind_eq_ok.mp ok
      obtain ⟨more, hmore, ok⟩ := bind_eq_ok.mp ok
      cases ok
      split
      · exact (ih hmore).skip
      · exact (ih hmore).keep ⟨rfl, hval⟩

theorem keyConditions_own {keys : List LookupKey} {l : Conditions}
    (ok : keyConditions h ctx args keys = .ok l) :
    List.Forall₂ (Compares h ctx args) (keys.map fun k => (k.column, k.source)) l := by
  induction keys generalizing l with
  | nil =>
      cases ok
      exact .nil
  | cons k rest ih =>
      obtain ⟨val, hval, ok⟩ := bind_eq_ok.mp ok
      obtain ⟨more, hmore, ok⟩ := bind_eq_ok.mp ok
      split at ok
      · cases ok
      · cases ok
        exact .cons ⟨rfl, hval⟩ (ih hmore)

theorem searchConditions_own {search : Option SearchSpec} {l : Conditions}
    (ok : searchConditions h ctx args search = .ok l) :
    InOrder (SearchesFor h ctx args) search.toList l ∧ ∀ b ∈ l, b.1 ≠ .search [] := by
  unfold searchConditions at ok
  split at ok
  · cases ok
    exact ⟨.of_all .nil, fun b hb => absurd hb List.not_mem_nil⟩
  next s =>
    split at ok
    · cases ok
      exact ⟨InOrder.skip (.of_all .nil), fun b hb => absurd hb List.not_mem_nil⟩
    next columns =>
      obtain ⟨val, hval, ok⟩ := bind_eq_ok.mp ok
      cases ok
      split
      · exact ⟨InOrder.skip (.of_all .nil), fun b hb => absurd hb List.not_mem_nil⟩
      · refine ⟨InOrder.keep ⟨val, hval, rfl⟩ (.of_all .nil), fun b hb => ?_⟩
        cases List.mem_singleton.mp hb
        intro same
        exact columns (Fragment.search.inj same)

theorem gathered_where {res : Resource} {wheres : Bindings} {before : List Value}
    {found : Collected} (ok : scopedWhere h ctx args res wheres before = .ok found) :
    ∃ l, List.Forall₂ (Compares h ctx args) wheres.entries l ∧ Gathered ctx before l found := by
  obtain ⟨scope, hscope, ok⟩ := bind_eq_ok.mp ok
  obtain ⟨l, all, rfl⟩ := addWhere_pushAll ok
  exact ⟨l, all, gathered_pushAll before hscope (InOrder.of_all all).some⟩

/-! ### The columns that are written -/

theorem resolveBinds_own {entries : List (Ident × Source)} {resolved : List (Ident × Value)}
    (ok : resolveBinds h ctx args entries = .ok resolved) :
    InOrder (fun e b => b.1 = e.1 ∧ resolveSource h ctx args e.2 = .ok b.2) entries resolved := by
  induction entries generalizing resolved with
  | nil =>
      cases ok
      exact .of_all .nil
  | cons e rest ih =>
      obtain ⟨val, hval, ok⟩ := bind_eq_ok.mp ok
      obtain ⟨more, hmore, ok⟩ := bind_eq_ok.mp ok
      cases ok
      split
      · exact (ih hmore).skip
      · exact (ih hmore).keep ⟨rfl, hval⟩

theorem encrypted_written {pinned : Option Ctx} {res : Resource}
    {resolved written : List (Ident × Value)}
    (ok : encryptColumnValues h pinned res (sanitizeColumnValues h res resolved) = .ok written) :
    List.Forall₂ (fun e b => b.1 = e.1 ∧ writtenValue h pinned res e.1 e.2 = .ok b.2)
      resolved written := by
  induction resolved generalizing written with
  | nil =>
      cases ok
      exact .nil
  | cons r resolved ih =>
      obtain ⟨v, here, ok⟩ := bind_eq_ok.mp ok
      obtain ⟨rest, later, ok⟩ := bind_eq_ok.mp ok
      cases ok
      exact .cons ⟨rfl, here⟩ (ih later)

theorem writes_of_resolved {pinned : Option Ctx} {res : Resource}
    {entries : List (Ident × Source)} {resolved written : List (Ident × Value)}
    (own : InOrder (fun e b => b.1 = e.1 ∧ resolveSource h ctx args e.2 = .ok b.2) entries resolved)
    (written_all : List.Forall₂ (fun e b => b.1 = e.1 ∧
      writtenValue h pinned res e.1 e.2 = .ok b.2) resolved written) :
    InOrder (Writes h ctx args pinned res) entries written := by
  obtain ⟨kept, sub, all⟩ := own
  refine ⟨kept, sub, ?_⟩
  clear sub
  induction all generalizing written with
  | nil =>
      cases written_all
      exact .nil
  | cons found _ ih =>
      cases written_all with
      | cons sealed rest =>
          refine .cons ⟨sealed.1.trans found.1, _, found.2, ?_⟩ (ih rest)
          rw [← found.1]
          exact sealed.2

/-- No column twice, for there is one entry for each. -/
theorem InOrder.nodup {pinned : Option Ctx} {res : Resource} {binds : Bindings}
    {written : List (Ident × Value)}
    (own : InOrder (Writes h ctx args pinned res) binds.entries written) :
    (written.map Prod.fst).Nodup ∧
      ∀ col ∈ written.map Prod.fst, ∃ e ∈ binds.entries, e.1 = col := by
  obtain ⟨kept, sub, all⟩ := own
  have columns : written.map Prod.fst = kept.map Prod.fst := by
    clear sub
    induction all with
    | nil => rfl
    | cons here _ ih => rw [List.map_cons, List.map_cons, here.1, ih]
  rw [columns]
  constructor
  · have sorted : (binds.entries.map Prod.fst).Nodup :=
      List.pairwise_map.mpr (binds.sorted.imp fun before same => by
        rw [same] at before
        exact absurd before (String.lt_irrefl _))
    exact sorted.sublist (sub.map _)
  · intro col mem
    obtain ⟨e, he, rfl⟩ := List.mem_map.mp mem
    exact ⟨e, sub.subset he, rfl⟩

end Own

/-! ### Statements -/

/-- The placeholders in a text are the numbers of its values. -/
def Numbered (text : String) (values : List Value) : Prop :=
  ∀ k, k ∈ placeholdersIn text ↔ 1 ≤ k ∧ k ≤ values.length

/-- No column is set twice, and the scope is the caller's. -/
structure Plan.LinesUp (ctx : Option Ctx) (p : Plan) : Prop where
  numbers : Numbered p.stmt.text p.values
  once : (p.stmt.sets.map Assign.column).Nodup
  scope : ∀ k, Cond.org k ∈ p.stmt.conds → ∃ tenant, ctx.bind Ctx.tenant = some tenant ∧
    arg p.values k = some (.int tenant.orgID)

section Select

variable {h : Hooks} {ctx : Option Ctx} {args : Slot} {l : Conditions} {found : Collected}

/-- A SELECT of what was gathered. -/
theorem Gathered.select (gathered : Gathered ctx [] l found) (table : Ident)
    (projection tail : String) (quiet : Quiet projection.toList) (quietTail : Quiet tail.toList) :
    Plan.LinesUp ctx ⟨.select projection table found.1 tail, found.2⟩ ∧
      Plan.compared ⟨.select projection table found.1 tail, found.2⟩ = l := by
  have compared := gathered.compared []
  rw [List.append_nil] at compared
  refine ⟨⟨fun k => ?_, List.nodup_nil, fun k mem => ?_⟩, compared⟩
  · rw [placeholdersIn_stmt (.select projection table found.1 tail) ⟨quiet, quietTail⟩]
    exact gathered.slots k
  · obtain ⟨tenant, htenant, value⟩ := gathered.scope k mem
    have at_end := value []
    rw [List.append_nil] at at_end
    exact ⟨tenant, htenant, at_end⟩

theorem selectByEffectWhere_linesUp {eff : UpdatesEffect} {p : Plan}
    (ok : selectByEffectWhere h ctx args eff = .ok p) :
    p.LinesUp ctx ∧ List.Forall₂ (Compares h ctx args) eff.wheres.entries p.compared ∧
      p.assigned = [] := by
  obtain ⟨found, hfound, ok⟩ := bind_eq_ok.mp ok
  cases ok
  obtain ⟨l, all, gathered⟩ := gathered_where hfound
  obtain ⟨lines, compared⟩ := gathered.select eff.resource.name "*" "LIMIT 1"
    (quiet_literal rfl) (quiet_literal rfl)
  rw [compared]
  exact ⟨lines, all, rfl⟩

theorem buildListSQL_linesUp {q : Query} {p : Plan} (ok : buildListSQL h ctx args q = .ok p) :
    p.LinesUp ctx ∧ ∃ filters search, p.compared = filters ++ search ∧
      InOrder (Compares h ctx args) (q.filters.map fun f => (f.column, f.when)) filters ∧
      InOrder (SearchesFor h ctx args) q.search.toList search := by
  unfold buildListSQL at ok
  split at ok
  · cases ok
  next res _ =>
    obtain ⟨found, hfound, ok⟩ := bind_eq_ok.mp ok
    obtain ⟨projection, hprojection, ok⟩ := bind_eq_ok.mp ok
    cases ok
    obtain ⟨scope, hscope, hfound⟩ := bind_eq_ok.mp hfound
    obtain ⟨filtered, hfiltered, hsearched⟩ := bind_eq_ok.mp hfound
    obtain ⟨filters, hfilters, rfl⟩ := (addFilters_iff q.filters scope filtered).mp hfiltered
    obtain ⟨search, hsearch, rfl⟩ := (addSearch_iff q.search _ found).mp hsearched
    rw [← Collected.pushAll_append]
    have own := filterConditions_own hfilters
    obtain ⟨ownSearch, some⟩ := searchConditions_own hsearch
    have gathered : Gathered ctx [] (filters ++ search)
        (Collected.pushAll scope (filters ++ search)) :=
      gathered_pushAll [] hscope (List.forall_mem_append.mpr ⟨own.some, some⟩)
    obtain ⟨lines, compared⟩ := gathered.select res.name _ _ (quiet_readProjection hprojection)
      (quiet_queryTail q)
    exact ⟨lines, filters, search, compared, own, ownSearch⟩

theorem buildLookupSQL_linesUp {q : Query} {p : Plan} (ok : buildLookupSQL h ctx args q = .ok p) :
    p.LinesUp ctx ∧ List.Forall₂ (Compares h ctx args)
      (q.lookupBy.map fun k => (k.column, k.source)) p.compared := by
  unfold buildLookupSQL at ok
  split at ok
  · cases ok
  next res _ =>
    split at ok
    · cases ok
    · obtain ⟨found, hfound, ok⟩ := bind_eq_ok.mp ok
      obtain ⟨projection, hprojection, ok⟩ := bind_eq_ok.mp ok
      cases ok
      obtain ⟨scope, hscope, hadded⟩ := bind_eq_ok.mp hfound
      obtain ⟨keys, hkeys, rfl⟩ := (addLookupKeys_iff q.lookupBy scope found).mp hadded
      have own := keyConditions_own hkeys
      have gathered : Gathered ctx [] keys (Collected.pushAll scope keys) :=
        gathered_pushAll [] hscope (InOrder.of_all own).some
      obtain ⟨lines, compared⟩ := gathered.select res.name _ "LIMIT 1"
        (quiet_readProjection hprojection) (quiet_literal rfl)
      rw [compared]
      exact ⟨lines, own⟩

end Select

section Modify

variable {h : Hooks} {ctx : Option Ctx} {args : Slot}

/-- An UPDATE whose other placeholders are those of the values before and after. -/
theorem Gathered.update {before : List Value} {l : Conditions} {found : Collected}
    (gathered : Gathered ctx before l found) (table : Ident) (sets : List Assign)
    (after : List Value)
    (slots : ∀ k, k ∈ sets.flatMap Assign.slots ↔ 1 ≤ k ∧ k ≤ before.length ∨
      found.2.length < k ∧ k ≤ found.2.length + after.length)
    (nodup : (sets.map Assign.column).Nodup) :
    Plan.LinesUp ctx ⟨.update table sets found.1 true, found.2 ++ after⟩ ∧
      Plan.compared ⟨.update table sets found.1 true, found.2 ++ after⟩ = l := by
  refine ⟨⟨fun k => ?_, nodup, fun k mem => ?_⟩, gathered.compared after⟩
  · rw [placeholdersIn_stmt (.update _ _ _ true) trivial]
    have within : before.length ≤ found.2.length := by
      obtain ⟨more, text⟩ := gathered.extends_before
      rw [text, List.length_append]
      exact Nat.le_add_right ..
    show k ∈ sets.flatMap Assign.slots ++ found.1.flatMap Cond.slots ↔
      1 ≤ k ∧ k ≤ (found.2 ++ after).length
    rw [List.mem_append, slots, gathered.slots, List.length_append]
    omega
  · obtain ⟨tenant, htenant, value⟩ := gathered.scope k mem
    exact ⟨tenant, htenant, value after⟩

theorem slots_assigns (bound : List (Ident × Value)) (k : Nat) :
    k ∈ (assigns bound).flatMap Assign.slots ↔ 1 ≤ k ∧ k ≤ bound.length := by
  have slots : (assigns bound).flatMap Assign.slots = List.range' 1 bound.length := by
    rw [assigns, List.flatMap_map, ← List.zipIdx_map_snd 1 bound]
    exact List.map_eq_flatMap.symm
  rw [slots, List.mem_range'_1]
  omega

theorem slots_touchUpdatedAt (eff : UpdatesEffect) :
    (touchUpdatedAt eff).flatMap Assign.slots = [] := by
  unfold touchUpdatedAt
  split <;> rfl

theorem column_assigns (bound : List (Ident × Value)) :
    (assigns bound).map Assign.column = bound.map Prod.fst := by
  have first := congrArg (List.map Prod.fst) (List.zipIdx_map_fst 1 bound)
  rw [List.map_map] at first
  rw [assigns, List.map_map]
  exact first

theorem boundColumns_own {eff : UpdatesEffect} {bound : List (Ident × Value)}
    (ok : boundColumns h ctx args eff = .ok bound) :
    InOrder (Writes h ctx args ctx eff.resource) eff.binds.entries bound := by
  obtain ⟨resolved, hresolved, ok⟩ := bind_eq_ok.mp ok
  exact writes_of_resolved (resolveBinds_own hresolved)
    (encrypted_written (mapError_eq_ok.mp ok))

/-- The clock column is set only when no binding sets it. -/
theorem sets_nodup {eff : UpdatesEffect} {bound : List (Ident × Value)}
    (own : InOrder (Writes h ctx args ctx eff.resource) eff.binds.entries bound) :
    ((assigns bound ++ touchUpdatedAt eff).map Assign.column).Nodup := by
  obtain ⟨nodup, declared⟩ := own.nodup
  rw [List.map_append, column_assigns]
  unfold touchUpdatedAt
  split
  next touch =>
    refine nodup.append (List.nodup_singleton _) fun col mem touched => ?_
    cases List.mem_singleton.mp touched
    obtain ⟨e, he, same⟩ := declared _ mem
    have has : eff.binds.has "updated_at" = true :=
      List.any_eq_true.mpr ⟨e, he, by rw [same]; rfl⟩
    rw [has] at touch
    cases touch
  · rw [List.map_nil, List.append_nil]
    exact nodup

theorem applyUpdates_linesUp {eff : UpdatesEffect} {p : Plan}
    (ok : applyUpdates h ctx args eff = .ok p) :
    p.LinesUp ctx ∧ List.Forall₂ (Compares h ctx args) eff.wheres.entries p.compared ∧
      InOrder (Writes h ctx args ctx eff.resource) eff.binds.entries p.assigned := by
  obtain ⟨bound, hbound, assigned⟩ := update_assigned ok
  have own := boundColumns_own hbound
  rw [assigned]
  obtain ⟨bound', found, hbound', ⟨-, hfound, rfl⟩ | ⟨hfound, rfl⟩⟩ := applyUpdates_cases ok
  · have sent : selectByEffectWhere h ctx args eff = .ok _ :=
      bind_eq_ok.mpr ⟨found, hfound, rfl⟩
    obtain ⟨lines, all, -⟩ := selectByEffectWhere_linesUp sent
    exact ⟨lines, all, own⟩
  · cases hbound.symm.trans hbound'
    obtain ⟨l, all, gathered⟩ := gathered_where hfound
    have slots (k : Nat) : k ∈ (assigns bound ++ touchUpdatedAt eff).flatMap Assign.slots ↔
        1 ≤ k ∧ k ≤ (bound.map Prod.snd).length ∨
          found.2.length < k ∧ k ≤ found.2.length + ([] : List Value).length := by
      rw [List.flatMap_append, slots_touchUpdatedAt, List.append_nil, slots_assigns,
        List.length_map, List.length_nil]
      omega
    obtain ⟨lines, compared⟩ := gathered.update eff.resource.name _ [] slots (sets_nodup own)
    rw [List.append_nil] at lines compared
    rw [compared]
    exact ⟨lines, all, own⟩

/-- The clocks of a soft deletion. -/
def deletionClocks (res : Resource) : List Assign :=
  .now colDeletedAt :: if res.hasColumn "updated_at" then [Assign.now colUpdatedAt] else []

theorem deletionClocks_cases (res : Resource) :
    deletionClocks res = [.now colDeletedAt] ∨
      deletionClocks res = [.now colDeletedAt, .now colUpdatedAt] := by
  unfold deletionClocks
  split
  · exact .inr rfl
  · exact .inl rfl

theorem slots_deletionClocks (res : Resource) :
    (deletionClocks res).flatMap Assign.slots = [] := by
  rcases deletionClocks_cases res with clocks | clocks <;> rw [clocks] <;> rfl

theorem assigned_deletionClocks (res : Resource) (values : List Value) :
    (deletionClocks res).filterMap (Assign.assigned values) = [] := by
  rcases deletionClocks_cases res with clocks | clocks <;> rw [clocks] <;> rfl

theorem deletionClocks_nodup (res : Resource) (k : Nat) :
    ((deletionClocks res ++ [Assign.bound colDeletedBy k]).map Assign.column).Nodup := by
  rcases deletionClocks_cases res with clocks | clocks <;> rw [clocks] <;>
    simp [Assign.column, colDeletedAt, colUpdatedAt, colDeletedBy]

theorem softDelete_eq (res : Resource) (found : Collected) :
    softDelete ctx res found =
      if res.softDeleteActor then
        ⟨.update res.name (deletionClocks res ++ [.bound colDeletedBy (found.2.length + 1)])
          found.1 true, found.2 ++ [deletedBy ctx]⟩
      else ⟨.update res.name (deletionClocks res) found.1 true, found.2⟩ := by
  unfold softDelete deletionClocks
  dsimp only
  rw [List.length_append]
  rfl

theorem softDelete_linesUp {l : Conditions} {found : Collected}
    (gathered : Gathered ctx [] l found) (res : Resource) :
    (softDelete ctx res found).LinesUp ctx ∧ (softDelete ctx res found).compared = l ∧
      ∀ b ∈ (softDelete ctx res found).assigned, b = (colDeletedBy, deletedBy ctx) := by
  have nodup := deletionClocks_nodup res (found.2.length + 1)
  rw [softDelete_eq]
  split
  · have slots (k : Nat) :
        k ∈ (deletionClocks res ++ [Assign.bound colDeletedBy (found.2.length + 1)]).flatMap
          Assign.slots ↔ 1 ≤ k ∧ k ≤ ([] : List Value).length ∨
            found.2.length < k ∧ k ≤ found.2.length + [deletedBy ctx].length := by
      rw [List.flatMap_append, slots_deletionClocks, List.nil_append, List.flatMap_singleton]
      refine List.mem_singleton.trans ?_
      rw [List.length_nil, List.length_singleton]
      omega
    obtain ⟨lines, compared⟩ := gathered.update res.name _ [deletedBy ctx] slots nodup
    refine ⟨lines, compared, fun b mem => ?_⟩
    have bound := arg_length found.2 (deletedBy ctx)
    have written : b ∈ (deletionClocks res ++
        [Assign.bound colDeletedBy (found.2.length + 1)]).filterMap
          (Assign.assigned (found.2 ++ [deletedBy ctx])) := mem
    rw [List.filterMap_append, assigned_deletionClocks, List.nil_append,
      List.filterMap_cons_some (b := (colDeletedBy, deletedBy ctx))
        (by rw [Assign.assigned, bound]; rfl)] at written
    exact List.mem_singleton.mp written
  · have slots (k : Nat) : k ∈ (deletionClocks res).flatMap Assign.slots ↔
        1 ≤ k ∧ k ≤ ([] : List Value).length ∨
          found.2.length < k ∧ k ≤ found.2.length + ([] : List Value).length := by
      rw [slots_deletionClocks, List.length_nil]
      exact iff_of_false List.not_mem_nil (by omega)
    rw [List.map_append] at nodup
    obtain ⟨lines, compared⟩ := gathered.update res.name _ [] slots nodup.of_append_left
    rw [List.append_nil] at lines compared
    refine ⟨lines, compared, fun b mem => ?_⟩
    have written : b ∈ (deletionClocks res).filterMap (Assign.assigned found.2) := mem
    rw [assigned_deletionClocks] at written
    cases written

theorem Gathered.delete {l : Conditions} {found : Collected} (gathered : Gathered ctx [] l found)
    (table : Ident) :
    Plan.LinesUp ctx ⟨.delete table found.1, found.2⟩ ∧
      Plan.compared ⟨.delete table found.1, found.2⟩ = l := by
  have compared := gathered.compared []
  rw [List.append_nil] at compared
  refine ⟨⟨fun k => ?_, List.nodup_nil, fun k mem => ?_⟩, compared⟩
  · rw [placeholdersIn_stmt (.delete table found.1) trivial]
    exact gathered.slots k
  · obtain ⟨tenant, htenant, value⟩ := gathered.scope k mem
    have at_end := value []
    rw [List.append_nil] at at_end
    exact ⟨tenant, htenant, at_end⟩

theorem applyDeletes_linesUp {eff : DeletesEffect} {p : Plan}
    (ok : applyDeletes h ctx args eff = .ok p) :
    p.LinesUp ctx ∧ List.Forall₂ (Compares h ctx args) eff.wheres.entries p.compared ∧
      ∀ b ∈ p.assigned, b = (colDeletedBy, deletedBy ctx) := by
  obtain ⟨found, hfound, rfl⟩ := applyDeletes_ok ok
  obtain ⟨l, all, gathered⟩ := gathered_where hfound
  split
  · obtain ⟨lines, compared, assigned⟩ := softDelete_linesUp gathered eff.resource
    rw [compared]
    exact ⟨lines, all, assigned⟩
  · obtain ⟨lines, compared⟩ := gathered.delete eff.resource.name
    rw [compared]
    exact ⟨lines, all, fun b mem => absurd mem List.not_mem_nil⟩

/-- Each id is moved to its own index. -/
theorem applyReorder_linesUp {eff : ReorderEffect} {p : Plan}
    (ok : applyReorder eff args = .ok (some p)) :
    p.LinesUp ctx ∧ ∃ ids tuples, reorderIds args = .ok ids ∧
      p.stmt = .renumber eff.resource.name eff.positionColumn tuples ∧
      tuples.map (fun t => (arg p.values t.1, t.2)) =
        ids.zipIdx.map fun id => (some id.1, id.2) := by
  obtain ⟨ids, hids, ok⟩ := bind_eq_ok.mp ok
  split at ok
  · cases ok
  · cases ok
    refine ⟨⟨fun k => ?_, List.nodup_nil, fun k mem => absurd mem List.not_mem_nil⟩, ids, _, hids,
      rfl, ?_⟩
    · rw [placeholdersIn_stmt (.renumber _ _ _) trivial]
      show k ∈ (ids.zipIdx.map fun id => (id.2 + 1, id.2)).flatMap (fun t => [t.1]) ↔
        1 ≤ k ∧ k ≤ ids.length
      have numbers : (ids.zipIdx.map fun id => (id.2 + 1, id.2)).flatMap (fun t => [t.1]) =
          List.range' 1 ids.length := by
        have shifted : (List.range' 0 ids.length).map (1 + ·) = List.range' 1 ids.length :=
          List.map_add_range' 0 ids.length 1
        rw [← List.zipIdx_map_snd 0 ids, List.map_map] at shifted
        rw [← List.map_eq_flatMap, List.map_map]
        refine Eq.trans ?_ shifted
        exact List.map_congr_left fun id _ => Nat.add_comm id.2 1
      rw [numbers, List.mem_range'_1]
      omega
    · rw [List.map_map]
      refine List.map_congr_left fun id mem => ?_
      have found := List.mem_zipIdx_iff_getElem?.mp mem
      exact congrArg (·, id.2) found

end Modify

/-! ### Inserts -/

/-- The columns, their owner, and the numbers of an INSERT. `pinned` is the context with the tenant
that the effect found. -/
structure InsertStmt.LinesUp (env : Env) (args : Slot) (eff : CreatesEffect) (ctx : Ctx)
    (s : InsertStmt) (values : List Value) : Prop where
  numbers : Numbered s.text values
  once : s.cols.Nodup
  paired : s.placeholders.length = s.cols.length
  columns : ∃ pinned own auto, pinTenant env eff.resource ctx = .ok pinned ∧
    s.inserted values = own ++ auto ∧
    InOrder (Writes env.hooks (some ctx) args (some pinned) eff.resource) eff.binds.entries own ∧
    List.Forall₂ (fun e b => b.1 = e.1 ∧
      writtenValue env.hooks (some pinned) eff.resource e.1 e.2 = .ok b.2)
      (autoColumns env eff pinned) auto
  owner : ∀ check, s.ownerCheck = some check → ∃ oc fk actor, eff.ownerCheck = some oc ∧
    check.relatedTable = oc.relatedTable ∧ check.throughColumn = oc.throughColumn ∧
    (fk, check.fkPlaceholder) ∈ s.cols.zip s.placeholders ∧ fk.text = oc.fkColumn.text ∧
    readCtx env.hooks.wall (some ctx) "user.id" = .ok actor ∧
    arg values check.actorPlaceholder = some actor

section Inserts

variable {env : Env} {args : Slot} {eff : CreatesEffect} {ctx : Ctx}

theorem encryptColumnValues_append {h : Hooks} {pinned : Option Ctx} {res : Resource}
    {first second written : List (Ident × Value)}
    (ok : encryptColumnValues h pinned res (first ++ second) = .ok written) :
    ∃ first' second', written = first' ++ second' ∧
      encryptColumnValues h pinned res first = .ok first' ∧
      encryptColumnValues h pinned res second = .ok second' := by
  induction first generalizing written with
  | nil => exact ⟨[], written, rfl, rfl, ok⟩
  | cons b first ih =>
      obtain ⟨v, here, ok⟩ := bind_eq_ok.mp ok
      obtain ⟨rest, later, ok⟩ := bind_eq_ok.mp ok
      cases ok
      obtain ⟨first', second', rfl, hfirst, hsecond⟩ := ih later
      refine ⟨(b.1, v) :: first', second', rfl, ?_, hsecond⟩
      exact bind_eq_ok.mpr ⟨v, here, bind_eq_ok.mpr ⟨first', hfirst, rfl⟩⟩

theorem insertColumns_own {cols : List (Ident × Value)}
    (ok : insertColumns env args eff ctx = .ok cols) :
    ∃ pinned own auto, pinTenant env eff.resource ctx = .ok pinned ∧ cols = own ++ auto ∧
      InOrder (Writes env.hooks (some ctx) args (some pinned) eff.resource) eff.binds.entries own ∧
      List.Forall₂ (fun e b => b.1 = e.1 ∧
        writtenValue env.hooks (some pinned) eff.resource e.1 e.2 = .ok b.2)
        (autoColumns env eff pinned) auto := by
  obtain ⟨resolved, hresolved, ok⟩ := bind_eq_ok.mp ok
  obtain ⟨pinned, hpinned, ok⟩ := bind_eq_ok.mp ok
  have encrypted := mapError_eq_ok.mp ok
  rw [sanitizeColumnValues, List.map_append] at encrypted
  obtain ⟨own, auto, rfl, hown, hauto⟩ := encryptColumnValues_append encrypted
  exact ⟨pinned, own, auto, hpinned, rfl,
    writes_of_resolved (resolveBinds_own hresolved) (encrypted_written hown),
    encrypted_written hauto⟩

variable (env eff) in
/-- The automatic columns are among three, and no binding sets them. -/
theorem autoColumns_sublist (pinned : Ctx) :
    ((autoColumns env eff pinned).map Prod.fst).Sublist
      (([colOrgID, colOrg] ++ [colUpdatedAt]).filter fun col => !eff.binds.has col.text) := by
  unfold autoColumns
  rw [List.filter_append, List.map_append]
  refine List.Sublist.append ?_ ?_
  · split
    · rw [List.map_map]
      exact (List.map_id _).symm ▸ List.Sublist.refl _
    · exact List.nil_sublist _
  · split
    next touch =>
      have unbound : (!eff.binds.has "updated_at") = true := (Bool.and_eq_true_iff.mp touch).2
      rw [List.filter_cons_of_pos (a := colUpdatedAt) unbound]
      exact List.Sublist.refl _
    · exact List.nil_sublist _

theorem columns_nodup {own auto : List (Ident × Value)} {pinned : Ctx}
    (written : InOrder (Writes env.hooks (some ctx) args (some pinned) eff.resource)
      eff.binds.entries own)
    (added : List.Forall₂ (fun e b => b.1 = e.1 ∧
      writtenValue env.hooks (some pinned) eff.resource e.1 e.2 = .ok b.2)
      (autoColumns env eff pinned) auto) :
    ((own ++ auto).map Prod.fst).Nodup := by
  obtain ⟨nodup, declared⟩ := written.nodup
  have columns : auto.map Prod.fst = (autoColumns env eff pinned).map Prod.fst := by
    generalize autoColumns env eff pinned = entries at added
    induction added with
    | nil => rfl
    | cons here _ ih => rw [List.map_cons, List.map_cons, here.1, ih]
  have sub := autoColumns_sublist env eff pinned
  have three : ([colOrgID, colOrg] ++ [colUpdatedAt]).Nodup := by decide
  rw [List.map_append, columns]
  refine List.Nodup.append nodup ((three.filter _).sublist sub) fun col mem added => ?_
  obtain ⟨e, he, same⟩ := declared col mem
  have unbound := (List.mem_filter.mp (sub.subset added)).2
  have has : eff.binds.has col.text = true :=
    List.any_eq_true.mpr ⟨e, he, by rw [same]; exact decide_eq_true rfl⟩
  rw [has] at unbound
  cases unbound

/-- Each column has the number of its value. -/
theorem inserted_eq {s : InsertStmt} {bound : List (Ident × Value)} (after : List Value)
    (cols : s.cols = bound.map Prod.fst)
    (placeholders : s.placeholders = List.range' 1 bound.length) :
    s.inserted (bound.map Prod.snd ++ after) = bound := by
  have sets := assigned_zipIdx bound [] after
  rw [List.filterMap_map] at sets
  have pairs : s.cols.zip s.placeholders = (bound.zipIdx 1).map fun b => (b.1.1, b.2) := by
    rw [cols, placeholders, List.zipIdx_eq_zip_range', List.zip_map_left]
    rfl
  rw [InsertStmt.inserted, pairs, List.filterMap_map]
  exact sets

theorem numbered_insert {s : InsertStmt} {n : Nat}
    (placeholders : s.placeholders = List.range' 1 n) (k : Nat) :
    k ∈ s.placeholders ↔ 1 ≤ k ∧ k ≤ n := by
  rw [placeholders, List.mem_range'_1]
  omega

theorem insertSQL_linesUp {s : InsertStmt} {values : List Value}
    (ok : insertSQL env args eff ctx = .ok (s, values)) : s.LinesUp env args eff ctx values := by
  obtain ⟨bound, hbound, cols, placeholders, sent⟩ := insertSQL_cases ok
  obtain ⟨pinned, own, auto, hpinned, both, written, added⟩ := insertColumns_own hbound
  have once : s.cols.Nodup := by
    rw [cols, both]
    exact columns_nodup written added
  have paired : s.placeholders.length = s.cols.length := by
    rw [cols, placeholders, List.length_range', List.length_map]
  rcases sent with ⟨-, unchecked, rfl⟩ | ⟨oc, i, actor, hoc, hi, hactor, checked, rfl⟩
  · have inserted := inserted_eq [] cols placeholders
    rw [List.append_nil] at inserted
    refine ⟨fun k => ?_, once, paired,
      ⟨pinned, own, auto, hpinned, inserted.trans both, written, added⟩, fun check same => ?_⟩
    · rw [placeholdersIn_insert, unchecked, List.length_map]
      exact numbered_insert placeholders k
    · rw [unchecked] at same
      cases same
  · have inserted := inserted_eq [actor] cols placeholders
    obtain ⟨within, fk, -⟩ := List.findIdx?_eq_some_iff_getElem.mp hi
    rw [List.length_map] at within
    refine ⟨fun k => ?_, once, paired,
      ⟨pinned, own, auto, hpinned, inserted.trans both, written, added⟩, fun check same => ?_⟩
    · rw [placeholdersIn_insert, checked, Option.toList_some, List.flatMap_singleton,
        List.mem_append, numbered_insert placeholders, OwnerCheck.slots, List.mem_cons,
        List.mem_singleton, List.length_append, List.length_map, List.length_singleton]
      dsimp only
      omega
    · cases checked.symm.trans same
      refine ⟨oc, _, actor, hoc, rfl, rfl, ?_, of_decide_eq_true fk, hactor, ?_⟩
      · rw [cols, placeholders]
        refine List.mem_iff_getElem.mpr ⟨i, ?_, ?_⟩
        · rw [List.length_zip, List.length_map, List.length_range', Nat.min_self]
          exact within
        · rw [List.getElem_zip, List.getElem_range', Nat.one_mul, Nat.add_comm 1 i]
      · have value := arg_length (bound.map Prod.snd) actor
        rwa [List.length_map] at value

end Inserts

/-! ### Every builder -/

/-- What reaches the database with these arguments lines up. The values of conditions are those of
their sources; the values of columns are sanitized and encrypted on the way. -/
structure StatementsLineUp (env : Env) (args : Slot) : Prop where
  creates : ∀ ctx eff s values, insertSQL env args eff ctx = .ok (s, values) →
    s.LinesUp env args eff ctx values
  updates : ∀ ctx eff p, applyUpdates env.hooks ctx args eff = .ok p →
    p.LinesUp ctx ∧ List.Forall₂ (Compares env.hooks ctx args) eff.wheres.entries p.compared ∧
      InOrder (Writes env.hooks ctx args ctx eff.resource) eff.binds.entries p.assigned
  selects : ∀ ctx eff p, selectByEffectWhere env.hooks ctx args eff = .ok p →
    p.LinesUp ctx ∧ List.Forall₂ (Compares env.hooks ctx args) eff.wheres.entries p.compared ∧
      p.assigned = []
  deletes : ∀ ctx eff p, applyDeletes env.hooks ctx args eff = .ok p →
    p.LinesUp ctx ∧ List.Forall₂ (Compares env.hooks ctx args) eff.wheres.entries p.compared ∧
      ∀ b ∈ p.assigned, b = (colDeletedBy, deletedBy ctx)
  reorders : ∀ ctx eff p, applyReorder eff args = .ok (some p) →
    p.LinesUp ctx ∧ ∃ ids tuples, reorderIds args = .ok ids ∧
      p.stmt = .renumber eff.resource.name eff.positionColumn tuples ∧
      tuples.map (fun t => (arg p.values t.1, t.2)) =
        ids.zipIdx.map fun id => (some id.1, id.2)
  lists : ∀ ctx q p, buildListSQL env.hooks ctx args q = .ok p →
    p.LinesUp ctx ∧ ∃ filters search, p.compared = filters ++ search ∧
      InOrder (Compares env.hooks ctx args) (q.filters.map fun f => (f.column, f.when)) filters ∧
      InOrder (SearchesFor env.hooks ctx args) q.search.toList search
  lookups : ∀ ctx q p, buildLookupSQL env.hooks ctx args q = .ok p →
    p.LinesUp ctx ∧ List.Forall₂ (Compares env.hooks ctx args)
      (q.lookupBy.map fun k => (k.column, k.source)) p.compared

theorem lines_up (env : Env) (args : Slot) : StatementsLineUp env args where
  creates _ _ _ _ ok := insertSQL_linesUp ok
  updates _ _ _ ok := applyUpdates_linesUp ok
  selects _ _ _ ok := selectByEffectWhere_linesUp ok
  deletes _ _ _ ok := applyDeletes_linesUp ok
  reorders _ _ _ ok := applyReorder_linesUp ok
  lists _ _ _ ok := buildListSQL_linesUp ok
  lookups _ _ _ ok := buildLookupSQL_linesUp ok

/-! ### A condition on a sanitized column -/

/-- A policy that takes a tag away. -/
def strictHooks : Hooks :=
  { noHooks with sanitizeHTML := fun _ text => if text = "<br>" then "" else text }

def colCaption : Ident := ⟨"caption", by decide⟩

/-- `updates Page`, which finds the page by its caption and sets the caption. -/
def recaption : UpdatesEffect where
  resource :=
    { name := ⟨"Page", by decide⟩
      sanitizeColumns := fun col => if col = "caption" then some "strict" else none }
  wheres := .single colCaption (.input "caption")
  binds := .single colCaption (.input "caption")

def captionInput : Slot :=
  .direct (.struct (.cons "Caption" "caption" (.direct (.string "<br>")) .nil))

/-- The value that is set is sanitized, the value that is compared is not; and a text is inserted
into an encrypted column as it is. -/
theorem raw_values :
    (∃ p, applyUpdates strictHooks (some member) captionInput recaption = .ok p ∧
      p.stmt.text = "UPDATE \"page\" SET \"caption\" = $1 WHERE \"caption\" = $2 RETURNING *" ∧
      p.values = [.string "", .string "<br>"] ∧
      ¬∃ v, resolveSource strictHooks (some member) captionInput (.input "caption") = .ok v ∧
        writtenValue strictHooks (some member) recaption.resource colCaption v =
          .ok (.string "<br>")) ∧
    ∃ s, insertSQL plainEnv credentialInput createCredential member =
        .ok (s, [.string "sk_live_1"]) ∧
      s.text = "INSERT INTO \"credential\" (\"access_token\") VALUES ($1) RETURNING *" ∧
      createCredential.resource.encryptedColumns "access_token" = some "@key.tenant" := by
  refine ⟨⟨_, rfl, ?_, rfl, ?_⟩, _, rfl, ?_, rfl⟩
  · decide
  · rintro ⟨v, resolved, written⟩
    cases resolved
    have same : "" = "<br>" := Value.string.inj (Except.ok.inj written)
    exact absurd same (by decide)
  · decide

end Lazuli.Runtime
