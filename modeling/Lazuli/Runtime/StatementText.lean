import Lazuli.Runtime.Query

/-!
Reading a statement's text back.

Identifiers are quoted and contain no quote, so the text of a query determines its column
list and its conditions, as far as these can differ between two calls of one query.
-/

namespace Lazuli.Runtime

open Lazuli.General

/-! ### Quoted names -/

theorem quote_notMem (name : Ident) : '"' ∉ name.text.toList := by
  intro h
  have safe := List.all_eq_true.mp name.safe '"' h
  revert safe
  decide

theorem toList_quoteIdent (name : Ident) (s : List Char) :
    (quoteIdent name).toList ++ s = '"' :: (name.text.toList ++ '"' :: s) := by
  simp [quoteIdent]

theorem quoteIdent_inj {a b : Ident} {s t : List Char}
    (h : (quoteIdent a).toList ++ s = (quoteIdent b).toList ++ t) : a = b ∧ s = t := by
  rw [toList_quoteIdent, toList_quoteIdent] at h
  obtain ⟨hname, hrest⟩ :=
    Text.append_cons_inj_left (quote_notMem a) (quote_notMem b) (List.cons.inj h).2
  cases a
  cases b
  obtain rfl := String.toList_injective hname
  exact ⟨rfl, hrest⟩

/-! ### Conditions -/

/-- Two conditions of one query that search, search the same columns. -/
def SameSearch (f f' : Fragment) : Prop :=
  ∀ cols cols', f = .search cols → f' = .search cols' → cols = cols'

/-- The text of a condition ends where it says, and shows which condition it is. -/
theorem fragment_inj {f f' : Fragment} {k : Nat} {s t : List Char} (search : SameSearch f f')
    (h : (f.text k).toList ++ s = (f'.text k).toList ++ t) : f = f' ∧ s = t := by
  cases f with
  | eq col =>
      cases f' with
      | eq col' =>
          simp only [Fragment.text, String.toList_append, List.append_assoc] at h
          obtain ⟨rfl, h⟩ := quoteIdent_inj h
          exact ⟨rfl, by simpa using h⟩
      | inOwned col' table owner =>
          simp only [Fragment.text, String.toList_append, List.append_assoc] at h
          obtain ⟨-, h⟩ := quoteIdent_inj h
          simp at h
      | search cols =>
          simp [Fragment.text, quoteIdent] at h
  | inOwned col table owner =>
      cases f' with
      | eq col' =>
          simp only [Fragment.text, String.toList_append, List.append_assoc] at h
          obtain ⟨-, h⟩ := quoteIdent_inj h
          simp at h
      | inOwned col' table' owner' =>
          simp only [Fragment.text, String.toList_append, List.append_assoc] at h
          obtain ⟨rfl, hcol⟩ := quoteIdent_inj h
          have hfrom := List.append_cancel_left hcol
          obtain ⟨rfl, htable⟩ := quoteIdent_inj hfrom
          have hwhere := List.append_cancel_left htable
          obtain ⟨rfl, howner⟩ := quoteIdent_inj hwhere
          have hnumber := List.append_cancel_left (List.append_cancel_left howner)
          exact ⟨rfl, List.append_cancel_left hnumber⟩
      | search cols =>
          simp [Fragment.text, quoteIdent] at h
  | search cols =>
      cases f' with
      | eq col' =>
          simp [Fragment.text, quoteIdent] at h
      | inOwned col' table owner =>
          simp [Fragment.text, quoteIdent] at h
      | search cols' =>
          obtain rfl := search cols cols' rfl rfl
          exact ⟨rfl, List.append_cancel_left h⟩

/-- Conditions behind the scope, with their values. -/
abbrev Conditions := List (Fragment × Value)

/-- The conjuncts, with placeholders from `k` on. -/
def numbered (k : Nat) : Conditions → List Cond
  | [] => []
  | b :: rest => .bound b.1 k :: numbered (k + 1) rest

/-- Whatever searches, searches `cols`. -/
def Searches (cols : Option (List Ident)) (l : Conditions) : Prop :=
  ∀ b ∈ l, ∀ c, b.1 = .search c → cols = some c

theorem Searches.same {cols : Option (List Ident)} {l l' : Conditions} {b b' : Fragment × Value}
    (hl : Searches cols l) (hl' : Searches cols l') (hb : b ∈ l) (hb' : b' ∈ l') :
    SameSearch b.1 b'.1 := by
  intro c c' hc hc'
  have same := hl b hb c hc
  rw [hl' b' hb' c' hc'] at same
  exact (Option.some.inj same).symm

def textsOf (conds : List Cond) : List (List Char) := conds.map fun c => c.text.toList

theorem toList_whereClause (c : Cond) (conds : List Cond) :
    (whereClause (c :: conds)).toList =
      " WHERE ".toList ++ (c.text.toList ++ Text.trail " AND ".toList (textsOf conds)) := by
  unfold whereClause conjunction textsOf
  rw [if_neg (List.cons_ne_nil c conds), String.toList_append, String.toList_intercalate,
    List.map_cons, List.map_cons, Text.intercalate_eq_trail, List.map_map]
  rfl

section Where

variable {cols : Option (List Ident)} {tail : List Char}

theorem trail_numbered_inj (apart : ∀ s, tail ≠ " AND ".toList ++ s) {l l' : Conditions} (k : Nat)
    (hl : Searches cols l) (hl' : Searches cols l')
    (h : Text.trail " AND ".toList (textsOf (numbered k l)) ++ tail =
      Text.trail " AND ".toList (textsOf (numbered k l')) ++ tail) :
    l.map Prod.fst = l'.map Prod.fst := by
  induction l generalizing l' k with
  | nil =>
      cases l' with
      | nil => rfl
      | cons b' l' =>
          simp only [numbered, textsOf, List.map_cons, Text.trail_cons, List.append_assoc] at h
          exact absurd h (apart _)
  | cons b l ih =>
      cases l' with
      | nil =>
          simp only [numbered, textsOf, List.map_cons, Text.trail_cons, List.append_assoc] at h
          exact absurd h.symm (apart _)
      | cons b' l' =>
          simp only [numbered, textsOf, List.map_cons, Text.trail_cons, List.append_assoc] at h
          have hpieces := List.append_cancel_left h
          have hsame := hl.same hl' (List.mem_cons_self (a := b)) (List.mem_cons_self (a := b'))
          obtain ⟨hfragment, hrest⟩ := fragment_inj hsame hpieces
          have htail := ih (k + 1) (fun b hb => hl b (List.mem_cons_of_mem _ hb))
            (fun b hb => hl' b (List.mem_cons_of_mem _ hb)) hrest
          rw [List.map_cons, List.map_cons, hfragment, htail]

/-- With one scope in front and one text behind, a WHERE clause shows its conditions. -/
theorem whereClause_inj (apart : ∀ s, tail ≠ " AND ".toList ++ s)
    (apart' : ∀ s, tail ≠ " WHERE ".toList ++ s) (scope : List Cond) {l l' : Conditions} (k : Nat)
    (hl : Searches cols l) (hl' : Searches cols l')
    (h : (whereClause (scope ++ numbered k l)).toList ++ tail =
      (whereClause (scope ++ numbered k l')).toList ++ tail) :
    l.map Prod.fst = l'.map Prod.fst := by
  cases scope with
  | cons c scope =>
      rw [List.cons_append, List.cons_append, toList_whereClause, toList_whereClause] at h
      simp only [List.append_assoc] at h
      have hconds := List.append_cancel_left (List.append_cancel_left h)
      simp only [textsOf, List.map_append, Text.trail_append, List.append_assoc] at hconds
      exact trail_numbered_inj apart k hl hl' (List.append_cancel_left hconds)
  | nil =>
      cases l with
      | nil =>
          cases l' with
          | nil => rfl
          | cons b' l' =>
              rw [List.nil_append, List.nil_append, numbered, numbered, toList_whereClause] at h
              simp only [List.append_assoc] at h
              exact absurd h (apart' _)
      | cons b l =>
          cases l' with
          | nil =>
              rw [List.nil_append, List.nil_append, numbered, numbered, toList_whereClause] at h
              simp only [List.append_assoc] at h
              exact absurd h.symm (apart' _)
          | cons b' l' =>
              rw [List.nil_append, List.nil_append, numbered, numbered, toList_whereClause,
                toList_whereClause] at h
              simp only [List.append_assoc] at h
              have hpieces := List.append_cancel_left h
              have hsame := hl.same hl' (List.mem_cons_self (a := b)) (List.mem_cons_self (a := b'))
              obtain ⟨hfragment, hrest⟩ := fragment_inj hsame hpieces
              have htail := trail_numbered_inj apart (k + 1)
                (fun b hb => hl b (List.mem_cons_of_mem _ hb))
                (fun b hb => hl' b (List.mem_cons_of_mem _ hb)) hrest
              rw [List.map_cons, List.map_cons, hfragment, htail]

end Where

/-! ### The column list -/

/-- The read policy of the column turns this caller away. -/
def denied (h : Hooks) (ctx : Ctx) (res : Resource) (col : DbColumn) : Bool :=
  match res.fieldReadPolicies col.name with
  | none => false
  | some pol => (evalPolicy h.rbac ctx pol).isSome

/-- The columns have names that can be quoted. -/
def quotable (cols : List DbColumn) : Bool := cols.all fun col => (Ident.of col.name).isSome

def columnText (h : Hooks) (ctx : Ctx) (res : Resource) (col : DbColumn) : String :=
  let quoted := "\"" ++ col.name ++ "\""
  if denied h ctx res col then maskLiteral col.kind ++ " AS " ++ quoted else quoted

section Projection

variable {h : Hooks} {ctx ctx' : Ctx} {res : Resource}

theorem quoteName_eq {name : String} (safe : (Ident.of name).isSome = true) :
    quoteName name = .ok ("\"" ++ name ++ "\"") := by
  unfold Ident.of at safe
  unfold quoteName Ident.of
  split at safe
  next hsafe =>
    rw [dif_pos hsafe]
    rfl
  · cases safe

theorem columnDenied_some (col : DbColumn) :
    columnDenied h (some ctx) res col = .ok (denied h ctx res col) := by
  unfold columnDenied denied
  cases res.fieldReadPolicies col.name <;> rfl

theorem projectColumns_some {cols : List DbColumn} (safe : quotable cols = true) :
    projectColumns h (some ctx) res cols = .ok (cols.map (columnText h ctx res)) := by
  induction cols with
  | nil => rfl
  | cons col cols ih =>
      rw [quotable, List.all_cons, Bool.and_eq_true] at safe
      simp only [projectColumns, projectColumn, columnDenied_some, quoteName_eq safe.1, ih safe.2]
      rfl

theorem quoteName_panic {name : String} (bad : (Ident.of name).isSome = false) :
    quoteName name = .error .panic := by
  unfold quoteName
  rw [Option.isSome_eq_false_iff, Option.isNone_iff_eq_none] at bad
  rw [bad]

variable (h ctx res) in
theorem projectColumns_panic {cols : List DbColumn} (bad : quotable cols = false) :
    ∃ e, projectColumns h (some ctx) res cols = .error e := by
  induction cols with
  | nil => cases bad
  | cons col cols ih =>
      cases hcol : (Ident.of col.name).isSome with
      | false =>
          simp only [projectColumns, projectColumn, columnDenied_some, quoteName_panic hcol]
          exact ⟨.panic, rfl⟩
      | true =>
          rw [quotable, List.all_cons, hcol, Bool.true_and] at bad
          obtain ⟨e, he⟩ := ih bad
          simp only [projectColumns, projectColumn, columnDenied_some, quoteName_eq hcol, he]
          exact ⟨e, rfl⟩

/-- The text of a column shows whether it is masked. -/
theorem columnText_inj {col : DbColumn} {s t : List Char}
    (heq : (columnText h ctx res col).toList ++ s = (columnText h ctx' res col).toList ++ t) :
    denied h ctx res col = denied h ctx' res col ∧ s = t := by
  have clash (u v : List Char) : (maskLiteral col.kind).toList ++ u ≠ '"' :: v := by
    intro hclash
    cases hkind : col.kind <;> simp [hkind, maskLiteral] at hclash
  unfold columnText at heq
  dsimp only at heq
  cases hd : denied h ctx res col with
  | true =>
      cases hd' : denied h ctx' res col with
      | true =>
          rw [hd, hd', if_pos rfl] at heq
          exact ⟨rfl, List.append_cancel_left heq⟩
      | false =>
          rw [hd, hd', if_pos rfl, if_neg Bool.false_ne_true] at heq
          simp only [String.toList_append, List.append_assoc] at heq
          exact absurd heq (clash _ _)
  | false =>
      cases hd' : denied h ctx' res col with
      | true =>
          rw [hd, hd', if_neg Bool.false_ne_true, if_pos rfl] at heq
          simp only [String.toList_append, List.append_assoc] at heq
          exact absurd heq.symm (clash _ _)
      | false =>
          rw [hd, hd', if_neg Bool.false_ne_true] at heq
          exact ⟨rfl, List.append_cancel_left heq⟩

theorem trail_columns_inj {cols : List DbColumn}
    (heq : Text.trail ", ".toList (cols.map fun col => (columnText h ctx res col).toList) =
      Text.trail ", ".toList (cols.map fun col => (columnText h ctx' res col).toList)) :
    ∀ col ∈ cols, denied h ctx res col = denied h ctx' res col := by
  induction cols with
  | nil => exact fun col hcol => absurd hcol List.not_mem_nil
  | cons first cols ih =>
      simp only [List.map_cons, Text.trail_cons] at heq
      obtain ⟨hfirst, hrest⟩ := columnText_inj (List.append_cancel_left heq)
      intro col hcol
      cases hcol with
      | head => exact hfirst
      | tail _ hcol => exact ih hrest col hcol

/-- The column list of a query is a text that shows which columns are masked. -/
def projectionText (h : Hooks) (ctx : Ctx) (res : Resource) (cols : List DbColumn) : String :=
  if cols = [] then "*" else ", ".intercalate (cols.map (columnText h ctx res))

theorem readProjection_some {rowType : RowType} (safe : quotable (dbColumnsOf rowType) = true) :
    readProjection h (some ctx) res rowType =
      .ok (projectionText h ctx res (dbColumnsOf rowType)) := by
  unfold readProjection projectionText
  rw [projectColumns_some safe]
  simp only [bind, Except.bind, List.map_eq_nil_iff]

variable (h ctx res) in
theorem readProjection_panic {rowType : RowType} (bad : quotable (dbColumnsOf rowType) = false) :
    ∃ e, readProjection h (some ctx) res rowType = .error e := by
  obtain ⟨e, he⟩ := projectColumns_panic h ctx res bad
  unfold readProjection
  rw [he]
  exact ⟨e, rfl⟩

theorem projectionText_inj {cols : List DbColumn}
    (heq : projectionText h ctx res cols = projectionText h ctx' res cols) :
    ∀ col ∈ cols, denied h ctx res col = denied h ctx' res col := by
  cases cols with
  | nil => exact fun col hcol => absurd hcol List.not_mem_nil
  | cons first cols =>
      unfold projectionText at heq
      rw [if_neg (List.cons_ne_nil _ _), if_neg (List.cons_ne_nil _ _)] at heq
      have hlist := congrArg String.toList heq
      simp only [String.toList_intercalate, List.map_cons, List.map_map,
        Text.intercalate_eq_trail] at hlist
      obtain ⟨hfirst, hrest⟩ := columnText_inj hlist
      intro col hcol
      cases hcol with
      | head => exact hfirst
      | tail _ hcol => exact trail_columns_inj hrest col hcol

end Projection

end Lazuli.Runtime
