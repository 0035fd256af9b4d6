import Lazuli.General.SqlText
import Lazuli.Runtime.StatementText
import Lazuli.Runtime.Handle

/-!
The INSERT of a `creates` effect (`applyCreates` in `runtime/go/lazuli/handle.go`).

The columns, the values and the placeholders are three lists that grow together; a placeholder is
the number of values at its time. With an owner check the INSERT takes its row from a query that
finds the referenced row by the placeholder of the foreign key, and the actor is one more value.
-/

namespace Lazuli.Runtime

/-- The three lists. -/
structure InsertSlots where
  cols : List Ident
  values : List Value
  placeholders : List Nat

def InsertSlots.push (s : InsertSlots) (col : Ident) (val : Value) : InsertSlots where
  cols := s.cols ++ [col]
  values := s.values ++ [val]
  placeholders := s.placeholders ++ [s.values.length + 1]

def insertSlots (bound : List (Ident × Value)) : InsertSlots :=
  bound.foldl (fun s b => s.push b.1 b.2) ⟨[], [], []⟩

/-- The `owner_check` query: what its placeholders are compared with. -/
structure OwnerCheck where
  relatedTable : Ident
  fkPlaceholder : Nat
  throughColumn : Ident
  actorPlaceholder : Nat

structure InsertStmt where
  table : Ident
  cols : List Ident
  placeholders : List Nat
  ownerCheck : Option OwnerCheck

/-- What stands in front of the INSERT. -/
def OwnerCheck.text (oc : OwnerCheck) : String :=
  "WITH owner_check AS (SELECT 1 FROM " ++ quoteIdent oc.relatedTable ++ " WHERE id = " ++
    placeholder oc.fkPlaceholder ++ " AND " ++ quoteIdent oc.throughColumn ++ " = " ++
    placeholder oc.actorPlaceholder ++ ") "

def InsertStmt.text (s : InsertStmt) : String :=
  let cols := ", ".intercalate (s.cols.map quoteIdent)
  let placeholders := ", ".intercalate (s.placeholders.map placeholder)
  match s.ownerCheck with
  | none =>
      "INSERT INTO " ++ quoteResourceTable s.table ++ " (" ++ cols ++ ") VALUES (" ++
        placeholders ++ ") RETURNING *"
  | some oc =>
      oc.text ++ "INSERT INTO " ++ quoteResourceTable s.table ++ " (" ++ cols ++ ") SELECT " ++
        placeholders ++ " FROM owner_check RETURNING *"

/-- The statement of an effect and its values. -/
def insertSQL (env : Env) (input : Slot) (eff : CreatesEffect) (ctx : Ctx) :
    Except Failure (InsertStmt × List Value) := do
  let bound ← insertColumns env input eff ctx
  let s := insertSlots bound
  match eff.ownerCheck with
  | none => .ok (⟨eff.resource.name, s.cols, s.placeholders, none⟩, s.values)
  | some oc =>
      match s.cols.findIdx? fun col => col.text = oc.fkColumn.text with
      | none => fail (ownerColumnNotBound oc.fkColumn)
      | some i => do
          let actor ← readCtx env.hooks.wall (some ctx) "user.id"
          let check := ⟨oc.relatedTable, i + 1, oc.throughColumn, s.values.length + 1⟩
          .ok (⟨eff.resource.name, s.cols, s.placeholders, some check⟩, s.values ++ [actor])

/-! ### The lists -/

theorem foldl_push (bound : List (Ident × Value)) (s : InsertSlots) :
    bound.foldl (fun s b => s.push b.1 b.2) s =
      ⟨s.cols ++ bound.map Prod.fst, s.values ++ bound.map Prod.snd,
        s.placeholders ++ List.range' (s.values.length + 1) bound.length⟩ := by
  induction bound generalizing s with
  | nil => simp
  | cons b bound ih =>
      rw [List.foldl_cons, ih, InsertSlots.push]
      simp [List.range'_succ]

/-- The columns and the values of the bindings, with the numbers from one on. -/
theorem insertSlots_eq (bound : List (Ident × Value)) :
    insertSlots bound =
      ⟨bound.map Prod.fst, bound.map Prod.snd, List.range' 1 bound.length⟩ := by
  rw [insertSlots, foldl_push]
  simp

/-! ### What is sent -/

/-- An INSERT is sent for its columns, and with the actor when the owner is checked. -/
theorem insertSQL_cases {env : Env} {input : Slot} {eff : CreatesEffect} {ctx : Ctx}
    {stmt : InsertStmt} {values : List Value}
    (ok : insertSQL env input eff ctx = .ok (stmt, values)) :
    ∃ bound, insertColumns env input eff ctx = .ok bound ∧
      stmt.cols = bound.map Prod.fst ∧ stmt.placeholders = List.range' 1 bound.length ∧
        (eff.ownerCheck = none ∧ stmt.ownerCheck = none ∧ values = bound.map Prod.snd ∨
          ∃ oc i actor, eff.ownerCheck = some oc ∧
            (bound.map Prod.fst).findIdx? (fun col => col.text = oc.fkColumn.text) = some i ∧
            readCtx env.hooks.wall (some ctx) "user.id" = .ok actor ∧
            stmt.ownerCheck = some ⟨oc.relatedTable, i + 1, oc.throughColumn, bound.length + 1⟩ ∧
            values = bound.map Prod.snd ++ [actor]) := by
  obtain ⟨bound, hbound, sent⟩ := bind_eq_ok.mp ok
  simp only [insertSlots_eq] at sent
  refine ⟨bound, hbound, ?_⟩
  cases check : eff.ownerCheck with
  | none =>
      rw [check] at sent
      obtain ⟨rfl, rfl⟩ := Prod.mk.inj (Except.ok.inj sent)
      exact ⟨rfl, rfl, Or.inl ⟨rfl, rfl, rfl⟩⟩
  | some oc =>
      rw [check] at sent
      dsimp only at sent
      cases found : (bound.map Prod.fst).findIdx? fun col => col.text = oc.fkColumn.text with
      | none =>
          rw [found] at sent
          cases sent
      | some i =>
          rw [found] at sent
          obtain ⟨actor, hactor, sent⟩ := bind_eq_ok.mp sent
          obtain ⟨rfl, rfl⟩ := Prod.mk.inj (Except.ok.inj sent)
          refine ⟨rfl, rfl, Or.inr ⟨oc, i, actor, rfl, found, hactor, ?_, rfl⟩⟩
          rw [List.length_map]

end Lazuli.Runtime

/-!
The placeholders of the generated statements (`handle.go`, `run.go`), read back from their text.

A statement is put together of names in quotes, fixed texts, and placeholders with a bracket, a
comma or a blank behind them. `placeholdersIn_stmt` and `placeholdersIn_insert` say that the
placeholders in the text are the numbers of its assignments and conditions, and no others.
-/

namespace Lazuli.Runtime

open General SqlText

def placeholdersIn (sql : String) : List Nat := placeholders none sql.toList

/-! ### Reading a text back -/

theorem quiet_literal {s : String}
    (h : (s.toList.all fun c => !isQuote c && c ≠ '$') = true) : Quiet s.toList := by
  refine Quiet.plain fun c hc => ?_
  simpa using List.all_eq_true.mp h c hc

theorem apart_literal {s : String} (h : (s.toList.head?.all fun c => !c.isDigit) = true) :
    Apart s.toList := by
  intro c hc
  rw [Option.mem_def.mp hc] at h
  simpa using h

/-- A text in front, whatever follows it. -/
theorem apart_front {s : String} {t : List Char}
    (h : (s.toList.head?.any fun c => !c.isDigit) = true) : Apart (s.toList ++ t) := by
  intro c hc
  cases text : s.toList with
  | nil =>
      rw [text] at h
      cases h
  | cons d rest =>
      rw [text] at h hc
      cases hc
      simpa using h

theorem quiet_quoteIdent (name : Ident) : Quiet (quoteIdent name).toList := by
  have text := toList_quoteIdent name []
  rw [List.append_nil] at text
  rw [text]
  exact Quiet.quoted rfl (quote_notMem name)

theorem quiet_table (name : Ident) : Quiet (quoteResourceTable name).toList :=
  quiet_quoteIdent (tableOf name)

theorem yields_placeholder (k : Nat) : Yields (placeholder k).toList [k] := by
  rw [placeholder, String.toList_append]
  exact Yields.placeholder k

theorem quiet_int (n : Int) : Quiet (toString n).toList := by
  refine Quiet.plain fun c hc => ?_
  rcases Text.isDigit_of_mem_toString_int hc with digit | rfl
  · exact plain_of_isDigit digit
  · exact ⟨rfl, by decide⟩

def Fragment.slots (k : Nat) : Fragment → List Nat
  | .eq _ | .inOwned _ _ _ => [k]
  | .search cols => cols.flatMap fun _ => [k]

def Cond.slots : Cond → List Nat
  | .notDeleted => []
  | .org k => [k]
  | .bound f k => f.slots k

def Assign.slots : Assign → List Nat
  | .bound _ k => [k]
  | .now _ => []

theorem yields_fragment (f : Fragment) (k : Nat) : Yields (f.text k).toList (f.slots k) := by
  have column (col : Ident) : Quiet ((quoteIdent col).toList ++ " = ".toList) :=
    (quiet_quoteIdent col).append (quiet_literal rfl)
  cases f with
  | eq col =>
      simp only [Fragment.text, String.toList_append]
      exact Yields.quiet_append (column col) (yields_placeholder k)
  | inOwned col relatedTable ownerColumn =>
      have owned : Quiet ((quoteIdent col).toList ++ " IN (SELECT id FROM ".toList ++
          (quoteIdent relatedTable).toList ++ " WHERE ".toList) :=
        (((quiet_quoteIdent col).append (quiet_literal rfl)).append
          (quiet_quoteIdent relatedTable)).append (quiet_literal rfl)
      have compared := Yields.quiet_append (owned.append (column ownerColumn)) (yields_placeholder k)
      have whole := compared.append_quiet (apart_literal (s := ")") rfl) (quiet_literal rfl)
      simpa only [Fragment.text, Fragment.slots, String.toList_append, List.append_assoc]
        using whole
  | search cols =>
      have one (col : Ident) :
          Yields (quoteIdent col ++ " ILIKE " ++ placeholder k).toList [k] := by
        simp only [String.toList_append]
        exact Yields.quiet_append ((quiet_quoteIdent col).append (quiet_literal rfl))
          (yields_placeholder k)
      have ors := Yields.intercalate cols (quiet_literal (s := " OR ") rfl)
        (by decide) (apart_literal rfl) fun col _ => one col
      have opened := Yields.quiet_append (quiet_literal (s := "(") rfl) ors
      have whole := opened.append_quiet (apart_literal (s := ")") rfl) (quiet_literal rfl)
      simpa only [Fragment.text, Fragment.slots, String.toList_append, String.toList_intercalate,
        List.map_map, Function.comp_def] using whole

theorem yields_cond (c : Cond) : Yields c.text.toList c.slots := by
  cases c with
  | notDeleted => exact (quiet_literal (s := "deleted_at IS NULL") rfl).yields
  | org k =>
      rw [Cond.text, String.toList_append]
      exact Yields.quiet_append (quiet_literal rfl) (yields_placeholder k)
  | bound f k => exact yields_fragment f k

theorem yields_assign (a : Assign) : Yields a.text.toList a.slots := by
  cases a with
  | bound col k =>
      simp only [Assign.text, String.toList_append]
      exact Yields.quiet_append ((quiet_quoteIdent col).append (quiet_literal rfl))
        (yields_placeholder k)
  | now col =>
      rw [Assign.text, String.toList_append]
      exact ((quiet_quoteIdent col).append (quiet_literal rfl)).yields

/-- Pieces of one kind, joined by a comma or another separator. -/
theorem yields_joined {α : Type} {sep : String} {text : α → String} {slots : α → List Nat}
    (quiet : Quiet sep.toList) (some : sep.toList ≠ []) (apart : Apart sep.toList)
    (pieces : List α) (h : ∀ a, Yields (text a).toList (slots a)) :
    Yields (sep.intercalate (pieces.map text)).toList (pieces.flatMap slots) := by
  have joined := Yields.intercalate pieces quiet some apart fun a _ => h a
  simpa only [String.toList_intercalate, List.map_map, Function.comp_def] using joined

theorem yields_whereClause (conds : List Cond) :
    Yields (whereClause conds).toList (conds.flatMap Cond.slots) := by
  rw [whereClause]
  by_cases none : conds = []
  · rw [if_pos none, none]
    exact Quiet.nil.yields
  · rw [if_neg none, String.toList_append]
    have joined := yields_joined (quiet_literal (s := " AND ") rfl) (by decide)
      (apart_literal rfl) conds yields_cond
    exact Yields.quiet_append (quiet_literal rfl) joined

theorem apart_whereClause (conds : List Cond) : Apart (whereClause conds).toList := by
  rw [whereClause]
  split
  · exact apart_literal rfl
  · rw [String.toList_append]
    exact apart_front (s := " WHERE ") rfl

/-- The parts of a SELECT that are given as text have no placeholders. -/
def Stmt.Plain : Stmt → Prop
  | .select projection _ _ tail => Quiet projection.toList ∧ Quiet tail.toList
  | _ => True

def Stmt.sets : Stmt → List Assign
  | .update _ sets _ _ => sets
  | _ => []

def Stmt.slots : Stmt → List Nat
  | .renumber _ _ tuples => tuples.flatMap fun t => [t.1]
  | stmt => stmt.sets.flatMap Assign.slots ++ stmt.conds.flatMap Cond.slots

theorem yields_update (table : Ident) (sets : List Assign) (conds : List Cond) (returning : Bool) :
    Yields (Stmt.update table sets conds returning).text.toList
      (sets.flatMap Assign.slots ++ conds.flatMap Cond.slots) := by
  have front : Quiet ("UPDATE ".toList ++ (quoteResourceTable table).toList ++ " SET ".toList) :=
    ((quiet_literal rfl).append (quiet_table table)).append (quiet_literal rfl)
  have assigned := yields_joined (quiet_literal (s := ", ") rfl) (by decide) (apart_literal rfl)
    sets yields_assign
  have whole := (Yields.quiet_append front assigned).append (apart_whereClause conds)
    (yields_whereClause conds)
  cases returning with
  | false => simpa only [Stmt.text, String.toList_append, Bool.false_eq_true, if_false,
      String.toList_empty, List.append_nil] using whole
  | true =>
      have ended := whole.append_quiet (apart_literal (s := " RETURNING *") rfl)
        (quiet_literal rfl)
      simpa only [Stmt.text, String.toList_append, if_true] using ended

theorem yields_select {projection tail : String} (table : Ident) (conds : List Cond)
    (quiet : Quiet projection.toList) (quietTail : Quiet tail.toList) :
    Yields (Stmt.select projection table conds tail).text.toList (conds.flatMap Cond.slots) := by
  have front : Quiet ("SELECT ".toList ++ projection.toList ++ " FROM ".toList ++
      (quoteResourceTable table).toList) :=
    (((quiet_literal rfl).append quiet).append (quiet_literal rfl)).append (quiet_table table)
  have found := Yields.quiet_append front (yields_whereClause conds)
  have ended : Quiet (" ".toList ++ tail.toList) := (quiet_literal rfl).append quietTail
  have whole := found.append_quiet (apart_front (s := " ") rfl) ended
  simpa only [Stmt.text, String.toList_append, List.append_assoc] using whole

theorem yields_delete (table : Ident) (conds : List Cond) :
    Yields (Stmt.delete table conds).text.toList (conds.flatMap Cond.slots) := by
  have front : Quiet ("DELETE FROM ".toList ++ (quoteResourceTable table).toList) :=
    (quiet_literal rfl).append (quiet_table table)
  have found := Yields.quiet_append front (yields_whereClause conds)
  have whole := found.append_quiet (apart_literal (s := " RETURNING *") rfl) (quiet_literal rfl)
  simpa only [Stmt.text, String.toList_append] using whole

theorem yields_renumber (table position : Ident) (tuples : List (Nat × Nat)) :
    Yields (Stmt.renumber table position tuples).text.toList (tuples.flatMap fun t => [t.1]) := by
  have tuple (t : Nat × Nat) :
      Yields ("(" ++ placeholder t.1 ++ ", " ++ toString t.2 ++ ")").toList [t.1] := by
    have number : Quiet (", ".toList ++ ((toString t.2).toList ++ ")".toList)) :=
      (quiet_literal rfl).append ((Yields.quiet_digits t.2).append (quiet_literal rfl))
    have opened := Yields.quiet_append (quiet_literal (s := "(") rfl) (yields_placeholder t.1)
    have whole := opened.append_quiet (apart_front (s := ", ") rfl) number
    simpa only [String.toList_append, List.append_assoc] using whole
  have front : Quiet ("UPDATE ".toList ++ (quoteResourceTable table).toList ++ " SET ".toList ++
      (quoteIdent position).toList ++ " = data.position FROM (VALUES ".toList) :=
    ((((quiet_literal rfl).append (quiet_table table)).append (quiet_literal rfl)).append
      (quiet_quoteIdent position)).append (quiet_literal rfl)
  have behind : Quiet (") AS data(id, position) WHERE ".toList ++
      ((quoteResourceTable table).toList ++ ".id = data.id".toList)) :=
    (quiet_literal rfl).append ((quiet_table table).append (quiet_literal rfl))
  have joined := yields_joined (quiet_literal (s := ", ") rfl) (by decide) (apart_literal rfl)
    tuples tuple
  have whole := (Yields.quiet_append front joined).append_quiet
    (apart_front (s := ") AS data(id, position) WHERE ") rfl) behind
  simpa only [Stmt.text, String.toList_append, List.append_assoc] using whole

theorem placeholdersIn_stmt (stmt : Stmt) (plain : stmt.Plain) :
    placeholdersIn stmt.text = stmt.slots := by
  cases stmt with
  | select projection table conds tail => exact (yields_select table conds plain.1 plain.2).eq
  | update table sets conds returning => exact (yields_update table sets conds returning).eq
  | delete table conds => exact (yields_delete table conds).eq
  | renumber table position tuples => exact (yields_renumber table position tuples).eq

/-! ### The texts of a query -/

section Projection

variable {h : Hooks} {ctx : Option Ctx} {res : Resource}

theorem quiet_maskLiteral (kind : RowKind) : Quiet (maskLiteral kind).toList := by
  cases kind with
  | string => exact Quiet.quoted (q := '\'') (p := []) rfl List.not_mem_nil
  | pointer | bool | integer | float | other => exact quiet_literal rfl

theorem quiet_quoteName {name quoted : String} (ok : quoteName name = .ok quoted) :
    Quiet quoted.toList := by
  unfold quoteName at ok
  split at ok
  next ident _ =>
    cases ok
    exact quiet_quoteIdent ident
  · cases ok

theorem quiet_projectColumn {col : DbColumn} {part : String}
    (ok : projectColumn h ctx res col = .ok part) : Quiet part.toList := by
  obtain ⟨denied, -, ok⟩ := bind_eq_ok.mp ok
  obtain ⟨quoted, named, ok⟩ := bind_eq_ok.mp ok
  cases ok
  split
  · simp only [String.toList_append]
    exact ((quiet_maskLiteral col.kind).append (quiet_literal rfl)).append (quiet_quoteName named)
  · exact quiet_quoteName named

theorem quiet_projectColumns {cols : List DbColumn} {parts : List String}
    (ok : projectColumns h ctx res cols = .ok parts) : ∀ part ∈ parts, Quiet part.toList := by
  induction cols generalizing parts with
  | nil =>
      cases ok
      exact fun part hpart => absurd hpart List.not_mem_nil
  | cons col cols ih =>
      obtain ⟨part, here, ok⟩ := bind_eq_ok.mp ok
      obtain ⟨rest, later, ok⟩ := bind_eq_ok.mp ok
      cases ok
      exact List.forall_mem_cons.mpr ⟨quiet_projectColumn here, ih later⟩

theorem quiet_readProjection {rowType : RowType} {projection : String}
    (ok : readProjection h ctx res rowType = .ok projection) : Quiet projection.toList := by
  obtain ⟨parts, hparts, ok⟩ := bind_eq_ok.mp ok
  cases ok
  split
  · exact quiet_literal rfl
  · rw [String.toList_intercalate]
    refine Quiet.intercalate (quiet_literal rfl) (List.forall_mem_map.mpr ?_)
    exact quiet_projectColumns hparts

end Projection

theorem quiet_orderText (o : OrderClause) : Quiet (orderText o).toList := by
  simp only [orderText, String.toList_append]
  refine ((quiet_quoteIdent o.column).append (quiet_literal rfl)).append ?_
  split <;> exact quiet_literal rfl

theorem quiet_buildOrder (order : List OrderClause) : Quiet (buildOrder order).toList := by
  rw [buildOrder]
  split
  · exact quiet_literal rfl
  · rw [String.toList_append, String.toList_intercalate, List.map_map]
    refine (quiet_literal rfl).append (Quiet.intercalate (quiet_literal rfl) ?_)
    exact List.forall_mem_map.mpr fun o _ => quiet_orderText o

theorem quiet_queryTail (q : Query) : Quiet (buildOrder q.order ++ " LIMIT " ++
    toString (paginateOrDefault q.paginate)).toList := by
  simp only [String.toList_append]
  exact ((quiet_buildOrder q.order).append (quiet_literal rfl)).append (quiet_int _)

/-! ### The text of an INSERT -/

def OwnerCheck.slots (oc : OwnerCheck) : List Nat := [oc.fkPlaceholder, oc.actorPlaceholder]

theorem yields_ownerCheck (oc : OwnerCheck) : Yields oc.text.toList oc.slots := by
  have front : Quiet ("WITH owner_check AS (SELECT 1 FROM ".toList ++
      (quoteIdent oc.relatedTable).toList ++ " WHERE id = ".toList) :=
    ((quiet_literal rfl).append (quiet_quoteIdent oc.relatedTable)).append (quiet_literal rfl)
  have through : Quiet ((quoteIdent oc.throughColumn).toList ++ " = ".toList) :=
    (quiet_quoteIdent oc.throughColumn).append (quiet_literal rfl)
  have actor := Yields.quiet_append (quiet_literal (s := " AND ") rfl)
    (Yields.quiet_append through (yields_placeholder oc.actorPlaceholder))
  have both : Yields _ oc.slots := (Yields.quiet_append front (yields_placeholder
    oc.fkPlaceholder)).append (apart_front (s := " AND ") rfl) actor
  have whole := both.append_quiet (apart_literal (s := ") ") rfl) (quiet_literal rfl)
  unfold OwnerCheck.text
  simp only [String.toList_append]
  simp only [List.append_assoc] at whole ⊢
  exact whole

theorem yields_insertOf (stmt : InsertStmt) {middle ending : String} (quiet : Quiet middle.toList)
    (quietEnding : Quiet ending.toList) (apart : Apart ending.toList) :
    Yields ("INSERT INTO " ++ quoteResourceTable stmt.table ++ " (" ++
      ", ".intercalate (stmt.cols.map quoteIdent) ++ middle ++
      ", ".intercalate (stmt.placeholders.map placeholder) ++ ending).toList
      stmt.placeholders := by
  have cols : Quiet (", ".intercalate (stmt.cols.map quoteIdent)).toList := by
    rw [String.toList_intercalate]
    refine Quiet.intercalate (quiet_literal rfl) ?_
    rw [List.map_map]
    exact List.forall_mem_map.mpr fun col _ => quiet_quoteIdent col
  have front : Quiet ("INSERT INTO ".toList ++ (quoteResourceTable stmt.table).toList ++
      " (".toList ++ (", ".intercalate (stmt.cols.map quoteIdent)).toList ++ middle.toList) :=
    ((((quiet_literal rfl).append (quiet_table stmt.table)).append (quiet_literal rfl)).append
      cols).append quiet
  have numbers := yields_joined (quiet_literal (s := ", ") rfl) (by decide) (apart_literal rfl)
    stmt.placeholders yields_placeholder
  rw [List.flatMap_singleton'] at numbers
  have whole := (Yields.quiet_append front numbers).append_quiet apart quietEnding
  simpa only [String.toList_append] using whole

theorem placeholdersIn_insert (stmt : InsertStmt) :
    placeholdersIn stmt.text =
      (stmt.ownerCheck.toList.flatMap OwnerCheck.slots) ++ stmt.placeholders := by
  cases check : stmt.ownerCheck with
  | none =>
      have whole := yields_insertOf stmt (quiet_literal (s := ") VALUES (") rfl)
        (quiet_literal (s := ") RETURNING *") rfl) (apart_literal rfl)
      rw [placeholdersIn, InsertStmt.text, check]
      exact whole.eq
  | some oc =>
      have row := yields_insertOf stmt (quiet_literal (s := ") SELECT ") rfl)
        (quiet_literal (s := " FROM owner_check RETURNING *") rfl) (apart_literal rfl)
      have apart : Apart ("INSERT INTO " ++ quoteResourceTable stmt.table ++ " (" ++
          ", ".intercalate (stmt.cols.map quoteIdent) ++ ") SELECT " ++
          ", ".intercalate (stmt.placeholders.map placeholder) ++
          " FROM owner_check RETURNING *").toList := by
        simp only [String.toList_append, List.append_assoc]
        exact apart_front (s := "INSERT INTO ") rfl
      have whole := (yields_ownerCheck oc).append apart row
      rw [placeholdersIn, InsertStmt.text, check]
      simp only [String.toList_append, List.append_assoc] at whole ⊢
      exact whole.eq

end Lazuli.Runtime
