import Mathlib.Data.List.DropRight
import Lazuli.Runtime.Source

/-!
Resources, and the statements the runtime sends for them (`resource.go`, `run.go`,
`handle.go`).

A statement is kept in parts, with its text (`Stmt.text`) and with what it can touch
(`Stmt.touches`). Its placeholders are numbers into the list of bound values. The conjuncts
of a WHERE clause are collected in a list while the values are, so what has been collected
stays in place when more is added (`OrgConjunct.append`); that is what every statement
builder relies on.
-/

namespace Lazuli.Runtime

/-! ### Resources -/

inductive TenancyMode where
  | none
  | org
  | team
  | custom
  deriving DecidableEq

structure Resource where
  name : Ident
  tenancy : TenancyMode := .none
  softDelete : Bool := false
  softDeleteActor : Bool := false
  timestamps : Bool := false
  encryptedColumns : String → Option String := fun _ => none
  sanitizeColumns : String → Option String := fun _ => none
  fieldReadPolicies : String → Option Policy := fun _ => none

def Resource.hasColumn (res : Resource) (name : String) : Bool :=
  match name with
  | "updated_at" | "created_at" => res.timestamps
  | "deleted_at" => res.softDelete
  | "deleted_by" => res.softDeleteActor
  | _ => false

/-! ### Table names -/

/-- An underscore, unless there is one already or nothing before it. -/
def underscored (out : List Char) : List Char :=
  if out ≠ [] ∧ out.getLast? ≠ some '_' then out ++ ['_'] else out

/-- `snakeCase` after the first `i` characters, the last of them `prev`. -/
def snakeFrom (i : Nat) (prev : Char) (out : List Char) : List Char → List Char
  | [] => out
  | r :: rest =>
      if r = '-' ∨ r = ' ' ∨ r = '.' ∨ r = '_' then
        snakeFrom (i + 1) '_' (underscored out) rest
      else
        let out := if isUpper r ∧ 0 < i ∧ prev ≠ '_' then out ++ ['_'] else out
        snakeFrom (i + 1) r (out ++ [r.toLower]) rest

def snakeCase (name : String) : String :=
  String.ofList (((snakeFrom 0 '\x00' [] name.toList).dropWhile (· = '_')).rdropWhile (· = '_'))

theorem isLower_toLower {c : Char} (h : isUpper c = true) : isLower c.toLower = true := by
  have hrange : c.val ≥ 'A'.val ∧ c.val ≤ 'Z'.val := of_decide_eq_true h
  have hval : 65 ≤ c.val.toNat ∧ c.val.toNat ≤ 90 := hrange
  have hlower : c.toLower.val.toNat = c.val.toNat + 32 := by
    unfold Char.toLower
    rw [dif_pos hrange]
    show (c.val + 32).toNat = _
    rw [UInt32.toNat_add]
    show (c.val.toNat + 32) % 4294967296 = _
    omega
  apply decide_eq_true
  show 97 ≤ c.toLower.val.toNat ∧ c.toLower.val.toNat ≤ 122
  omega

theorem isIdentChar_toLower {c : Char} (h : isIdentChar c = true) :
    isIdentChar c.toLower = true := by
  cases hupper : isUpper c with
  | true => simp [isIdentChar, isLower_toLower hupper]
  | false =>
      have hsame : c.toLower = c := by
        unfold Char.toLower
        exact dif_neg (of_decide_eq_false hupper)
      rwa [hsame]

theorem isIdentChar_underscored {out : List Char} (h : ∀ c ∈ out, isIdentChar c = true) :
    ∀ c ∈ underscored out, isIdentChar c = true := by
  unfold underscored
  split
  · intro c hc
    rcases List.mem_append.mp hc with hc | hc
    · exact h c hc
    · obtain rfl := List.mem_singleton.mp hc
      rfl
  · exact h

theorem isIdentChar_snakeFrom (name : List Char) : ∀ (i : Nat) (prev : Char) (out : List Char),
    (∀ c ∈ name, isIdentChar c = true) → (∀ c ∈ out, isIdentChar c = true) →
      ∀ c ∈ snakeFrom i prev out name, isIdentChar c = true := by
  induction name with
  | nil => exact fun _ _ _ _ hout => hout
  | cons r rest ih =>
      intro i prev out hname hout
      have hrest : ∀ c ∈ rest, isIdentChar c = true :=
        fun c hc => hname c (List.mem_cons_of_mem _ hc)
      have hr := isIdentChar_toLower (hname r List.mem_cons_self)
      unfold snakeFrom
      split
      · exact ih _ _ _ hrest (isIdentChar_underscored hout)
      · apply ih _ _ _ hrest
        intro c hc
        rcases List.mem_append.mp hc with hc | hc
        · split at hc
          · rcases List.mem_append.mp hc with hc | hc
            · exact hout c hc
            · obtain rfl := List.mem_singleton.mp hc
              rfl
          · exact hout c hc
        · obtain rfl := List.mem_singleton.mp hc
          exact hr

/-- The table of a resource: its name is quoted without a panic. -/
def tableOf (name : Ident) : Ident where
  text := snakeCase name.text
  safe := by
    rw [List.all_eq_true]
    intro c hc
    rw [snakeCase, String.toList_ofList] at hc
    apply isIdentChar_snakeFrom name.text.toList 0 '\x00' []
    · exact List.all_eq_true.mp name.safe
    · exact fun c hc => absurd hc List.not_mem_nil
    · exact List.dropWhile_sublist _ |>.subset ((List.rdropWhile_prefix _ _).subset hc)

def quoteResourceTable (name : Ident) : String := quoteIdent (tableOf name)

example : quoteResourceTable ⟨"UserSession", by decide⟩ = "\"user_session\"" := by decide

/-! ### Conditions -/

/-- A condition on a column with one bound value. -/
inductive Fragment where
  | eq (col : Ident)
  | inOwned (col relatedTable ownerColumn : Ident)
  | search (cols : List Ident)
  deriving DecidableEq

/-- A conjunct of a WHERE clause. -/
inductive Cond where
  | notDeleted
  | org (k : Nat)
  | bound (f : Fragment) (k : Nat)
  deriving DecidableEq

def placeholder (k : Nat) : String := "$" ++ toString k

def Fragment.text (f : Fragment) (k : Nat) : String :=
  match f with
  | .eq col => quoteIdent col ++ " = " ++ placeholder k
  | .inOwned col relatedTable ownerColumn =>
      quoteIdent col ++ " IN (SELECT id FROM " ++ quoteIdent relatedTable ++ " WHERE " ++
        quoteIdent ownerColumn ++ " = " ++ placeholder k ++ ")"
  | .search cols =>
      "(" ++ " OR ".intercalate (cols.map fun col => quoteIdent col ++ " ILIKE " ++ placeholder k) ++
        ")"

def Cond.text : Cond → String
  | .notDeleted => "deleted_at IS NULL"
  | .org k => "org_id = " ++ placeholder k
  | .bound f k => f.text k

/-- The shape of the condition of a column and its source. -/
def fragmentOf (col : Ident) : Source → Fragment
  | .ctxOwnedVia _ relatedTable ownerColumn => .inOwned col relatedTable ownerColumn
  | _ => .eq col

def whereConditionFragment (col : Ident) (src : Source) (placeholderIdx : Nat) : Cond :=
  .bound (fragmentOf col src) placeholderIdx

/-- Soft-delete filter and tenant scope. The one value it binds gets the placeholder
`placeholderStart`. -/
def baseScopeConditions (ctx : Option Ctx) (res : Resource) (placeholderStart : Nat) :
    Except Failure (List Cond × List Value) :=
  let live := if res.softDelete then [Cond.notDeleted] else []
  match res.tenancy with
  | .org =>
      match ctx.bind Ctx.tenant with
      | none => fail tenantRequiredError
      | some tenant => .ok (live ++ [.org placeholderStart], [.int tenant.orgID])
  | _ => .ok (live, [])

/-! ### Statements -/

inductive Assign where
  | bound (col : Ident) (k : Nat)
  | now (col : Ident)
  deriving DecidableEq

/-- `renumber` is the batch of `reorder`: the position of each id, given as a placeholder. -/
inductive Stmt where
  | select (projection : String) (table : Ident) (conds : List Cond) (tail : String)
  | update (table : Ident) (sets : List Assign) (conds : List Cond) (returning : Bool)
  | delete (table : Ident) (conds : List Cond)
  | renumber (table position : Ident) (tuples : List (Nat × Nat))
  deriving DecidableEq

def Assign.text : Assign → String
  | .bound col k => quoteIdent col ++ " = " ++ placeholder k
  | .now col => quoteIdent col ++ " = now()"

def conjunction (conds : List Cond) : String := " AND ".intercalate (conds.map Cond.text)

/-- Only a query can be without conditions. -/
def whereClause (conds : List Cond) : String :=
  if conds = [] then "" else " WHERE " ++ conjunction conds

def Stmt.text : Stmt → String
  | .select projection table conds tail =>
      "SELECT " ++ projection ++ " FROM " ++ quoteResourceTable table ++ whereClause conds ++ " " ++
        tail
  | .update table sets conds returning =>
      "UPDATE " ++ quoteResourceTable table ++ " SET " ++
        ", ".intercalate (sets.map Assign.text) ++ whereClause conds ++
        if returning then " RETURNING *" else ""
  | .delete table conds =>
      "DELETE FROM " ++ quoteResourceTable table ++ whereClause conds ++ " RETURNING *"
  | .renumber table position tuples =>
      "UPDATE " ++ quoteResourceTable table ++ " SET " ++ quoteIdent position ++
        " = data.position FROM (VALUES " ++
        ", ".intercalate (tuples.map fun t =>
          "(" ++ placeholder t.1 ++ ", " ++ toString t.2 ++ ")") ++
        ") AS data(id, position) WHERE " ++ quoteResourceTable table ++ ".id = data.id"

/-- The conjuncts that bind values. The only conjunct of `renumber` joins the listed ids. -/
def Stmt.conds : Stmt → List Cond
  | .select _ _ conds _ => conds
  | .update _ _ conds _ => conds
  | .delete _ conds => conds
  | .renumber _ _ _ => []

/-- What is sent: a statement and its values. -/
structure Plan where
  stmt : Stmt
  values : List Value
  deriving DecidableEq

/-! ### What a statement can touch -/

abbrev Row := String → Value

/-- What a condition asks of the rest of the database and of the server. -/
structure Server where
  ownedIds : Ident → Ident → Value → List Value
  ilike : Value → Value → Bool

/-- Equality with a NULL is not true. -/
def sqlEq (a b : Value) : Bool := a ≠ .nil ∧ a = b

/-- The value of a placeholder. -/
def arg (values : List Value) (k : Nat) : Option Value :=
  match k with
  | 0 => none
  | k + 1 => values[k]?

def Fragment.holds (server : Server) (row : Row) (v : Value) : Fragment → Bool
  | .eq col => sqlEq (row col.text) v
  | .inOwned col relatedTable ownerColumn =>
      (server.ownedIds relatedTable ownerColumn v).any (sqlEq (row col.text))
  | .search cols => cols.any fun col => server.ilike (row col.text) v

def Cond.holds (server : Server) (values : List Value) (row : Row) : Cond → Bool
  | .notDeleted => row "deleted_at" = .nil
  | .org k => (arg values k).any (sqlEq (row "org_id"))
  | .bound f k => (arg values k).any fun v => f.holds server row v

/-- Can the statement read or modify this row of its table? -/
def Plan.touches (server : Server) (row : Row) (p : Plan) : Bool :=
  match p.stmt with
  | .renumber _ _ tuples => tuples.any fun t => (arg p.values t.1).any (sqlEq (row "id"))
  | stmt => stmt.conds.all (Cond.holds server p.values row)

/-- A row that a statement touches satisfies each of its conditions. -/
theorem Plan.holds_of_touches {p : Plan} {server : Server} {row : Row} {c : Cond}
    (touched : p.touches server row = true) (mem : c ∈ p.stmt.conds) :
    c.holds server p.values row = true := by
  unfold Plan.touches at touched
  split at touched
  next hstmt =>
    rw [hstmt] at mem
    cases mem
  · exact List.all_eq_true.mp touched c mem

/-! ### The tenant conjunct -/

/-- Among the conjuncts is `org_id = $k`, and the value of `$k` is `orgID`. -/
def OrgConjunct (conds : List Cond) (values : List Value) (orgID : Int) : Prop :=
  ∃ k, Cond.org k ∈ conds ∧ arg values k = some (.int orgID)

section OrgConjunct

variable {ctx : Option Ctx} {res : Resource} {start : Nat} {conds conds' : List Cond}
  {values values' : List Value} {orgID : Int}

theorem arg_append {k : Nat} {v : Value} (h : arg values k = some v) :
    arg (values ++ values') k = some v := by
  cases k with
  | zero => cases h
  | succ k =>
      have hk : k < values.length := (List.getElem?_eq_some_iff.mp h).1
      show (values ++ values')[k]? = some v
      rw [List.getElem?_append_left hk]
      exact h

/-- A value that is bound next has the placeholder after the last. -/
theorem arg_length (values : List Value) (v : Value) :
    arg (values ++ [v]) (values.length + 1) = some v := by
  show (values ++ [v])[values.length]? = some v
  simp

/-- What has been collected stays in place. -/
theorem OrgConjunct.append (h : OrgConjunct conds values orgID) (more : List Cond)
    (moreValues : List Value) : OrgConjunct (conds ++ more) (values ++ moreValues) orgID := by
  obtain ⟨k, hmem, hk⟩ := h
  exact ⟨k, List.mem_append_left _ hmem, arg_append hk⟩

/-- The scope of a tenant resource, put behind values that were bound before. -/
theorem orgConjunct_of_scope (tenancy : res.tenancy = .org)
    (h : baseScopeConditions ctx res (values.length + 1) = .ok (conds, values')) :
    ∃ tenant, ctx.bind Ctx.tenant = some tenant ∧
      OrgConjunct conds (values ++ values') tenant.orgID := by
  unfold baseScopeConditions at h
  rw [tenancy] at h
  dsimp only at h
  split at h
  · cases h
  next tenant htenant =>
    obtain ⟨rfl, rfl⟩ := Prod.mk.inj (Except.ok.inj h)
    refine ⟨tenant, htenant, values.length + 1, ?_, arg_length values _⟩
    exact List.mem_append_right _ List.mem_cons_self

theorem baseScopeConditions_of_no_tenant (tenancy : res.tenancy = .org)
    (h : ctx.bind Ctx.tenant = none) : baseScopeConditions ctx res start = fail tenantRequiredError := by
  unfold baseScopeConditions
  rw [tenancy, h]

/-- A statement with the conjunct touches rows of that organisation only. -/
theorem OrgConjunct.row {p : Plan} {server : Server} {row : Row}
    (h : OrgConjunct p.stmt.conds p.values orgID) (touched : p.touches server row = true) :
    row "org_id" = .int orgID := by
  obtain ⟨k, hmem, hk⟩ := h
  have hholds := Plan.holds_of_touches touched hmem
  simp only [Cond.holds, hk, Option.any_some, sqlEq, decide_eq_true_eq] at hholds
  exact hholds.2

end OrgConjunct

end Lazuli.Runtime
