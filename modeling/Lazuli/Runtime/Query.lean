import Lazuli.General.Text
import Lazuli.Runtime.CacheKey
import Lazuli.Runtime.Statement

/-!
The statements of list and lookup queries (`buildListSQL` and `buildLookupSQL` in
`runtime/go/lazuli/run.go`, `read_projection.go`).

A query collects conditions and values behind the tenant scope, one for each filter or key.
What is collected later never changes what was collected before (`Collected.Extends`).
-/

namespace Lazuli.Runtime

open Lazuli.General

/-! ### The column list -/

/-- The Go kinds of a row field that the mask tells apart. -/
inductive RowKind where
  | pointer
  | string
  | bool
  | integer
  | float
  | other
  deriving DecidableEq

structure RowField where
  exported : Bool := true
  db : Option String
  kind : RowKind
  deriving DecidableEq

/-- The row type of a query, behind its pointers. -/
inductive RowType where
  | struct (fields : List RowField)
  | time
  | scalar
  deriving DecidableEq

structure DbColumn where
  name : String
  kind : RowKind
  deriving DecidableEq

/-- The column name of a `db` tag, without options. -/
def dbTagName (tag : String) : String :=
  String.ofList (Text.trim (tag.toList.takeWhile (· ≠ ',')))

def dbColumnOf (field : RowField) : Option DbColumn :=
  if field.exported then
    field.db.bind fun tag =>
      let name := dbTagName tag
      if name = "" ∨ name = "-" then none else some ⟨name, field.kind⟩
  else none

def dbColumnsOf : RowType → List DbColumn
  | .struct fields => fields.filterMap dbColumnOf
  | .time | .scalar => []

def maskLiteral : RowKind → String
  | .pointer => "NULL"
  | .string => "''"
  | .bool => "FALSE"
  | .integer => "0"
  | .float => "0"
  | .other => "NULL"

def quoteName (name : String) : Except Failure String :=
  match Ident.of name with
  | some ident => .ok (quoteIdent ident)
  | none => .error .panic

/-- Does a read policy keep this column from the caller? A nil context has nothing to
evaluate a policy on. -/
def columnDenied (h : Hooks) (ctx : Option Ctx) (res : Resource) (col : DbColumn) :
    Except Failure Bool :=
  match res.fieldReadPolicies col.name with
  | none => .ok false
  | some pol => do
      let ctx ← deref ctx
      .ok (evalPolicy h.rbac ctx pol).isSome

def projectColumn (h : Hooks) (ctx : Option Ctx) (res : Resource) (col : DbColumn) :
    Except Failure String := do
  let denied ← columnDenied h ctx res col
  let quoted ← quoteName col.name
  .ok (if denied then maskLiteral col.kind ++ " AS " ++ quoted else quoted)

def projectColumns (h : Hooks) (ctx : Option Ctx) (res : Resource) :
    List DbColumn → Except Failure (List String)
  | [] => .ok []
  | col :: cols => do
      let part ← projectColumn h ctx res col
      let parts ← projectColumns h ctx res cols
      .ok (part :: parts)

def readProjection (h : Hooks) (ctx : Option Ctx) (res : Resource) (rowType : RowType) :
    Except Failure String := do
  let parts ← projectColumns h ctx res (dbColumnsOf rowType)
  .ok (if parts = [] then "*" else ", ".intercalate parts)

/-! ### Queries -/

inductive QueryKind where
  | list
  | lookup
  deriving DecidableEq

structure FilterRule where
  column : Ident
  when : Source

structure OrderClause where
  column : Ident
  desc : Bool := false
  deriving DecidableEq

inductive SearchMode where
  | contains
  | startsWith
  | exact
  deriving DecidableEq

structure SearchSpec where
  source : Source
  overColumns : List Ident
  mode : SearchMode := .contains

structure LookupKey where
  column : Ident
  source : Source

structure Query where
  name : QueryName
  kind : QueryKind
  resource : Option Resource
  rowType : RowType
  filters : List FilterRule := []
  order : List OrderClause := []
  search : Option SearchSpec := none
  paginate : Int := 0
  lookupBy : List LookupKey := []

def orderText (o : OrderClause) : String :=
  quoteIdent o.column ++ " " ++ if o.desc then "DESC" else "ASC"

def buildOrder (order : List OrderClause) : String :=
  if order = [] then "ORDER BY created_at DESC"
  else "ORDER BY " ++ ", ".intercalate (order.map orderText)

def paginateOrDefault (n : Int) : Int := if n ≤ 0 then 100 else n

def escapeLike (c : Char) : List Char :=
  if c = '\\' ∨ c = '%' ∨ c = '_' then ['\\', c] else [c]

def buildSearchPattern (term : String) (mode : SearchMode) : String :=
  let escaped := String.ofList (term.toList.flatMap escapeLike)
  match mode with
  | .startsWith => escaped ++ "%"
  | .exact => escaped
  | .contains => "%" ++ escaped ++ "%"

def noResource (q : Query) : Error :=
  { status := 500, code := CodeInternal, message := "query " ++ q.name.text ++ " has no resource" }

def noLookupKeys (q : Query) : Error :=
  { status := 500, code := CodeInternal
    message := "lookup query has no LookupBy keys: " ++ q.name.text }

def lookupKeyRequired (column : Ident) : Error :=
  { status := 400, code := CodeBadRequest
    message := "lookup key " ++ column.text ++ " is required" }

/-- Conditions and values, as far as they have been collected. -/
abbrev Collected := List Cond × List Value

/-- One more value, with a condition on it. -/
def Collected.push (c : Collected) (f : Fragment) (v : Value) : Collected :=
  (c.1 ++ [.bound f (c.2.length + 1)], c.2 ++ [v])

def Collected.Extends (c c' : Collected) : Prop :=
  ∃ conds values, c' = (c.1 ++ conds, c.2 ++ values)

namespace Collected.Extends

variable {c c' c'' : Collected}

theorem refl (c : Collected) : c.Extends c := ⟨[], [], by simp⟩

theorem trans (first : c.Extends c') (second : c'.Extends c'') : c.Extends c'' := by
  obtain ⟨conds, values, rfl⟩ := first
  obtain ⟨conds', values', rfl⟩ := second
  exact ⟨conds ++ conds', values ++ values', by simp⟩

theorem push (c : Collected) (f : Fragment) (v : Value) : c.Extends (c.push f v) := ⟨_, _, rfl⟩

theorem orgConjunct {orgID : Int} (ext : c.Extends c') (h : OrgConjunct c.1 c.2 orgID) :
    OrgConjunct c'.1 c'.2 orgID := by
  obtain ⟨conds, values, rfl⟩ := ext
  exact h.append conds values

end Collected.Extends

section Build

variable (h : Hooks) (ctx : Option Ctx) (args : Slot)

/-- A filter whose value is nil or zero is left out. -/
def addFilters : List FilterRule → Collected → Except Failure Collected
  | [], c => .ok c
  | f :: rest, c => do
      let val ← resolveSource h ctx args f.when
      if isNilOrZero val then addFilters rest c
      else addFilters rest (c.push (fragmentOf f.column f.when) val)

def addSearch (search : Option SearchSpec) (c : Collected) : Except Failure Collected :=
  match search with
  | none => .ok c
  | some s =>
      if s.overColumns = [] then .ok c
      else do
        let val ← resolveSource h ctx args s.source
        if isNilOrZero val then .ok c
        else .ok (c.push (.search s.overColumns) (.string (buildSearchPattern val.text s.mode)))

def addLookupKeys : List LookupKey → Collected → Except Failure Collected
  | [], c => .ok c
  | k :: rest, c => do
      let val ← resolveSource h ctx args k.source
      if isNilOrZero val then fail (lookupKeyRequired k.column)
      else addLookupKeys rest (c.push (fragmentOf k.column k.source) val)

/-- The conditions of a list query: scope, filters, search. -/
def listConditions (q : Query) (res : Resource) : Except Failure Collected := do
  let scope ← baseScopeConditions ctx res 1
  let filtered ← addFilters h ctx args q.filters scope
  addSearch h ctx args q.search filtered

def buildListSQL (q : Query) : Except Failure Plan :=
  match q.resource with
  | none => fail (noResource q)
  | some res => do
      let found ← listConditions h ctx args q res
      let projection ← readProjection h ctx res q.rowType
      .ok ⟨.select projection res.name found.1
        (buildOrder q.order ++ " LIMIT " ++ toString (paginateOrDefault q.paginate)), found.2⟩

/-- The conditions of a lookup query: scope, keys. -/
def lookupConditions (q : Query) (res : Resource) : Except Failure Collected := do
  let scope ← baseScopeConditions ctx res 1
  addLookupKeys h ctx args q.lookupBy scope

def buildLookupSQL (q : Query) : Except Failure Plan :=
  match q.resource with
  | none => fail (noResource q)
  | some res =>
      if q.lookupBy = [] then fail (noLookupKeys q)
      else do
        let found ← lookupConditions h ctx args q res
        let projection ← readProjection h ctx res q.rowType
        .ok ⟨.select projection res.name found.1 "LIMIT 1", found.2⟩

variable {h ctx args} {c c' : Collected}

theorem addFilters_extends {filters : List FilterRule}
    (ok : addFilters h ctx args filters c = .ok c') : c.Extends c' := by
  induction filters generalizing c with
  | nil =>
      cases ok
      exact .refl _
  | cons f rest ih =>
      obtain ⟨val, -, ok⟩ := bind_eq_ok.mp ok
      split at ok
      · exact ih ok
      · exact (Collected.Extends.push c _ val).trans (ih ok)

theorem addSearch_extends {search : Option SearchSpec}
    (ok : addSearch h ctx args search c = .ok c') : c.Extends c' := by
  unfold addSearch at ok
  split at ok
  · cases ok
    exact .refl _
  · split at ok
    · cases ok
      exact .refl _
    · obtain ⟨val, -, ok⟩ := bind_eq_ok.mp ok
      split at ok
      · cases ok
        exact .refl _
      · cases ok
        exact .push c _ _

theorem addLookupKeys_extends {keys : List LookupKey}
    (ok : addLookupKeys h ctx args keys c = .ok c') : c.Extends c' := by
  induction keys generalizing c with
  | nil =>
      cases ok
      exact .refl _
  | cons k rest ih =>
      obtain ⟨val, -, ok⟩ := bind_eq_ok.mp ok
      split at ok
      · cases ok
      · exact (Collected.Extends.push c _ val).trans (ih ok)

end Build

end Lazuli.Runtime
