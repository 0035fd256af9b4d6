import Mathlib
import Lazuli.General.SqlText
import Lazuli.General.Token
import Lazuli.Migration.Indexes
import Lazuli.Runtime.Statement

/-!
The condition of a partial index (`eval_predicate_sql` in `emitter/migration_ddl/index.rs`).

The text of a condition is read back as a comparison or a test for NULL, and in one way only
(`text_injective`). A comparison in which a side is NULL is neither true nor false.
-/

namespace Lazuli.Migration

open Ir General
open Lazuli.Runtime (Row Value)

/-! ### Conditions -/

inductive SqlOperand where
  | column (name : String)
  | text (s : String)
  | integer (n : Int)
  | boolean (b : Bool)
  deriving DecidableEq

inductive SqlCondition where
  | compare (left : SqlOperand) (op : CompareOp) (right : SqlOperand)
  | isNull (operand : SqlOperand)
  | isNotNull (operand : SqlOperand)
  deriving DecidableEq

def SqlOperand.sql : SqlOperand → String
  | .column name => sqlIdent name
  | .text s => quoteText s
  | .integer n => toString n
  | .boolean b => if b then "true" else "false"

def SqlCondition.sql : SqlCondition → String
  | .compare left op right => left.sql ++ " " ++ compareOpSql op ++ " " ++ right.sql
  | .isNull operand => operand.sql ++ " IS NULL"
  | .isNotNull operand => operand.sql ++ " IS NOT NULL"

def SqlOperand.value (row : Row) : SqlOperand → Value
  | .column name => row name
  | .text s => .string s
  | .integer n => .int n
  | .boolean b => .bool b

/-- How two values compare of which neither is NULL. -/
abbrev Comparison := CompareOp → Value → Value → Bool

/-- True, false or, where a side is NULL, neither. -/
def SqlCondition.eval (compares : Comparison) (row : Row) : SqlCondition → Option Bool
  | .compare left op right =>
      if left.value row = .nil ∨ right.value row = .nil then none
      else some (compares op (left.value row) (right.value row))
  | .isNull operand => some (operand.value row = .nil)
  | .isNotNull operand => some (operand.value row ≠ .nil)

/-! ### What a predicate becomes -/

def SqlOperand.of : Expr → Option SqlOperand
  | .path p =>
      match p.segments with
      | [name] => some (.column name)
      | _ => none
  | .string s => some (.text s)
  | .integer n => some (.integer n)
  | .boolean b => some (.boolean b)
  | _ => none

/-- The other side of a comparison with nil. -/
def besideNil : Expr → Expr → Option Expr
  | .nil, other => some other
  | other, .nil => some other
  | _, _ => none

def SqlCondition.ofNil (op : CompareOp) (operand : SqlOperand) : Option SqlCondition :=
  match op with
  | .eq => some (.isNull operand)
  | .ne => some (.isNotNull operand)
  | _ => none

def SqlCondition.ofComparison (left : Expr) (op : CompareOp) (right : Expr) :
    Option SqlCondition :=
  (((besideNil left right).bind SqlOperand.of).bind (ofNil op)).or do
    let left ← SqlOperand.of left
    let right ← SqlOperand.of right
    some (.compare left op right)

def SqlCondition.of : EvalPredicate → Option SqlCondition
  | .closed (.comparison left op right) => ofComparison left op right
  | _ => none

theorem exprSql_eq (e : Expr) : exprSql e = (SqlOperand.of e).map SqlOperand.sql := by
  cases e with
  | path p => rcases p with ⟨_ | ⟨column, _ | ⟨next, rest⟩⟩⟩ <;> rfl
  | string s => rfl
  | integer n => rfl
  | boolean b => rfl
  | enum name => rfl
  | nil => rfl
  | fnCall name args => rfl

theorem nilComparisonSql_eq (left : Expr) (op : CompareOp) (right : Expr) :
    nilComparisonSql left op right =
      (((besideNil left right).bind SqlOperand.of).bind (SqlCondition.ofNil op)).map
        SqlCondition.sql := by
  have beside : nilComparisonSql left op right =
      ((besideNil left right).bind exprSql).bind fun column =>
        match op with
        | .eq => some (column ++ " IS NULL")
        | .ne => some (column ++ " IS NOT NULL")
        | _ => none := rfl
  rw [beside]
  cases besideNil left right with
  | none => rfl
  | some other =>
      rw [Option.bind_some, Option.bind_some, exprSql_eq]
      cases SqlOperand.of other with
      | none => rfl
      | some operand => cases op <;> rfl

/-- The text of the index is that of the condition. -/
theorem evalPredicateSql_eq (p : EvalPredicate) :
    evalPredicateSql p = (SqlCondition.of p).map SqlCondition.sql := by
  cases p with
  | closed p =>
      cases p with
      | comparison left op right =>
          rw [evalPredicateSql, nilComparisonSql_eq, SqlCondition.of, SqlCondition.ofComparison,
            exprSql_eq, exprSql_eq]
          cases ((besideNil left right).bind SqlOperand.of).bind (SqlCondition.ofNil op) with
          | some c => rfl
          | none =>
              cases SqlOperand.of left with
              | none => rfl
              | some l => cases SqlOperand.of right <;> rfl
      | has collection element => rfl
      | and terms => rfl
      | or terms => rfl
  | contains text => rfl
  | toolsCalls text => rfl
  | unparsed text => rfl

/-! ### The tokens of a condition -/

/-- A name that is written without quotes. -/
def isBareName (name : String) : Bool := isPlainSqlIdent name && !isSqlReservedWord name

def SqlOperand.token : SqlOperand → Token Char
  | .column name => if isBareName name then .bare name.toList else .quoted '"' name.toList
  | .text s => .quoted '\x27' s.toList
  | .integer n => .bare (toString n).toList
  | .boolean b => .bare (if b then "true" else "false").toList

def SqlCondition.tokens : SqlCondition → List (Token Char)
  | .compare left op right => [left.token, .bare (compareOpSql op).toList, right.token]
  | .isNull operand => [operand.token, .bare "IS".toList, .bare "NULL".toList]
  | .isNotNull operand =>
      [operand.token, .bare "IS".toList, .bare "NOT".toList, .bare "NULL".toList]

section Tokens

variable {name : String} {c : Char}

theorem token_of_bare (h : isBareName name = true) :
    (SqlOperand.column name).token = .bare name.toList := if_pos h

theorem token_of_not_bare (h : ¬isBareName name = true) :
    (SqlOperand.column name).token = .quoted '"' name.toList := if_neg h

theorem sqlIdent_of_bare (h : isBareName name = true) : sqlIdent name = name := if_pos h

theorem sqlIdent_of_not_bare (h : ¬isBareName name = true) : sqlIdent name = quoteIdent name :=
  if_neg h

theorem toList_quoteIdent (name : String) :
    (quoteIdent name).toList = (Token.quoted '"' name.toList).text := by
  have doubled : name.toList.flatMap doubleQuotes = Token.doubled '"' name.toList := by
    refine List.flatMap_congr fun c _ => ?_
    unfold doubleQuotes
    by_cases h : c = '"'
    · rw [if_pos h, if_pos h, h]
    · rw [if_neg h, if_neg h]
  simp only [quoteIdent, String.toList_append, String.toList_ofList, doubled]
  rfl

theorem toList_quoteText (s : String) :
    (quoteText s).toList = (Token.quoted '\x27' s.toList).text := by
  simp only [quoteText, String.toList_append, String.toList_ofList]
  rfl

theorem text_token (o : SqlOperand) : o.token.text = o.sql.toList := by
  cases o with
  | column name =>
      by_cases h : isBareName name = true
      · rw [token_of_bare h, SqlOperand.sql, sqlIdent_of_bare h]
        rfl
      · rw [token_of_not_bare h, SqlOperand.sql, sqlIdent_of_not_bare h, toList_quoteIdent]
  | text s => exact (toList_quoteText s).symm
  | integer n => rfl
  | boolean b => rfl

theorem line_tokens (c : SqlCondition) : Token.line ' ' c.tokens = ' ' :: c.sql.toList := by
  cases c with
  | compare left op right =>
      simp only [Token.line, SqlCondition.tokens, SqlCondition.sql, List.flatMap_cons,
        List.flatMap_nil, text_token, String.toList_append, List.append_nil, List.cons_append,
        List.append_assoc]
      rfl
  | isNull operand =>
      simp only [Token.line, SqlCondition.tokens, SqlCondition.sql, List.flatMap_cons,
        List.flatMap_nil, text_token, String.toList_append, List.append_nil, List.cons_append]
      rfl
  | isNotNull operand =>
      simp only [Token.line, SqlCondition.tokens, SqlCondition.sql, List.flatMap_cons,
        List.flatMap_nil, text_token, String.toList_append, List.append_nil, List.cons_append]
      rfl

theorem head_of_bare (h : isBareName name = true) : name.toList.head?.any isPlainStart = true :=
  (Bool.and_eq_true_iff.mp (Bool.and_eq_true_iff.mp h).1).1

theorem word_of_plain (h : isPlainChar c = true) : c ≠ ' ' ∧ SqlText.isQuote c = false := by
  refine ⟨?_, Bool.eq_false_iff.mpr fun quote => ?_⟩
  · rintro rfl
    cases h
  · rcases Bool.or_eq_true_iff.mp quote with double | single
    · rw [of_decide_eq_true double] at h
      cases h
    · rw [of_decide_eq_true single] at h
      cases h

theorem word_of_integer {n : Int} (h : c ∈ (toString n).toList) :
    c ≠ ' ' ∧ SqlText.isQuote c = false := by
  rcases Text.isDigit_of_mem_toString_int h with digit | rfl
  · refine ⟨?_, (SqlText.plain_of_isDigit digit).1⟩
    rintro rfl
    cases digit
  · exact ⟨by decide, rfl⟩

theorem toString_int_ne_nil (n : Int) : (toString n).toList ≠ [] := by
  intro empty
  cases n with
  | ofNat n => exact Text.toString_nat_ne_empty n empty
  | negSucc n =>
      rw [Text.toList_toString_negSucc] at empty
      cases empty

theorem clean_word {w : List Char}
    (h : (!w.isEmpty && w.all fun c => decide (c ≠ ' ') && !SqlText.isQuote c) = true) :
    (Token.bare w).Clean ' ' SqlText.isQuote := by
  obtain ⟨nonempty, plain⟩ := Bool.and_eq_true_iff.mp h
  constructor
  · rintro rfl
    cases nonempty
  · intro c mem
    obtain ⟨word, quoteless⟩ := Bool.and_eq_true_iff.mp (List.all_eq_true.mp plain c mem)
    exact ⟨of_decide_eq_true word, by simpa using quoteless⟩

theorem clean_token (o : SqlOperand) : o.token.Clean ' ' SqlText.isQuote := by
  cases o with
  | column name =>
      by_cases h : isBareName name = true
      · rw [token_of_bare h]
        have plain := (Bool.and_eq_true_iff.mp (Bool.and_eq_true_iff.mp h).1).2
        refine ⟨fun empty => ?_, fun c mem => word_of_plain (List.all_eq_true.mp plain c mem)⟩
        have start := head_of_bare h
        rw [empty] at start
        cases start
      · rw [token_of_not_bare h]
        rfl
  | text s => rfl
  | integer n => exact ⟨toString_int_ne_nil n, fun c mem => word_of_integer mem⟩
  | boolean b => cases b <;> exact clean_word rfl

theorem clean_tokens (c : SqlCondition) : ∀ t ∈ c.tokens, t.Clean ' ' SqlText.isQuote := by
  cases c with
  | compare left op right =>
      have operator : (Token.bare (compareOpSql op).toList).Clean ' ' SqlText.isQuote := by
        cases op <;> exact clean_word rfl
      exact List.forall_mem_cons.mpr ⟨clean_token left, List.forall_mem_cons.mpr
        ⟨operator, List.forall_mem_singleton.mpr (clean_token right)⟩⟩
  | isNull operand =>
      exact List.forall_mem_cons.mpr ⟨clean_token operand, List.forall_mem_cons.mpr
        ⟨clean_word rfl, List.forall_mem_singleton.mpr (clean_word rfl)⟩⟩
  | isNotNull operand =>
      exact List.forall_mem_cons.mpr ⟨clean_token operand, List.forall_mem_cons.mpr
        ⟨clean_word rfl, List.forall_mem_cons.mpr
          ⟨clean_word rfl, List.forall_mem_singleton.mpr (clean_word rfl)⟩⟩⟩

end Tokens

/-! ### Reading a condition -/

def SqlOperand.read : Token Char → Option SqlOperand
  | .quoted q w => some (if q = '"' then .column (String.ofList w) else .text (String.ofList w))
  | .bare w =>
      if w = "true".toList then some (.boolean true)
      else if w = "false".toList then some (.boolean false)
      else if w.head?.any isPlainStart then some (.column (String.ofList w))
      else (String.ofList w).toInt?.map .integer

def compareOps : List CompareOp := [.eq, .ne, .lt, .le, .gt, .ge]

def SqlCondition.read : List (Token Char) → Option SqlCondition
  | [left, .bare w, right] =>
      if w = "IS".toList then (SqlOperand.read left).map .isNull
      else do
        let left ← SqlOperand.read left
        let op ← compareOps.find? fun op => (compareOpSql op).toList = w
        let right ← SqlOperand.read right
        some (.compare left op right)
  | [operand, _, _, _] => (SqlOperand.read operand).map .isNotNull
  | _ => none

section Read

variable {name : String}

theorem ne_reserved {word : String} (h : isBareName name = true)
    (reserved : isSqlReservedWord word = true) : name.toList ≠ word.toList := by
  intro eq
  have fresh := (Bool.and_eq_true_iff.mp h).2
  rw [String.toList_injective eq, reserved] at fresh
  cases fresh

theorem head_of_integer (n : Int) : (toString n).toList.head?.any isPlainStart = false := by
  cases chars : (toString n).toList with
  | nil => rfl
  | cons c rest =>
      have mem : c ∈ (toString n).toList := by
        rw [chars]
        exact List.mem_cons_self
      rcases Text.isDigit_of_mem_toString_int mem with digit | rfl
      · refine Bool.eq_false_iff.mpr fun start => ?_
        rcases Bool.or_eq_true_iff.mp start with underscore | lower
        · rw [of_decide_eq_true underscore] at digit
          cases digit
        · have low := of_decide_eq_true (Bool.and_eq_true_iff.mp lower).1
          have high := of_decide_eq_true (Bool.and_eq_true_iff.mp digit).2
          exact absurd (Nat.le_trans (UInt32.le_iff_toNat_le.mp low)
            (UInt32.le_iff_toNat_le.mp high)) (by decide)
      · rfl

theorem read_token (o : SqlOperand) : SqlOperand.read o.token = some o := by
  cases o with
  | column name =>
      by_cases h : isBareName name = true
      · rw [token_of_bare h, SqlOperand.read, if_neg (ne_reserved h rfl),
          if_neg (ne_reserved h rfl), if_pos (head_of_bare h), String.ofList_toList]
      · rw [token_of_not_bare h, SqlOperand.read, if_pos rfl, String.ofList_toList]
  | text s =>
      rw [SqlOperand.token, SqlOperand.read, if_neg (by decide), String.ofList_toList]
  | integer n =>
      have other : ∀ {word : List Char}, word.head?.any isPlainStart = true →
          (toString n).toList ≠ word := by
        intro word start eq
        rw [← eq, head_of_integer] at start
        cases start
      rw [SqlOperand.token, SqlOperand.read, if_neg (other rfl), if_neg (other rfl),
        if_neg (by rw [head_of_integer]; decide), String.ofList_toList]
      exact congrArg (Option.map SqlOperand.integer) (Int.toInt?_repr n)
  | boolean b => cases b <;> rfl

theorem read_tokens (c : SqlCondition) : SqlCondition.read c.tokens = some c := by
  cases c with
  | compare left op right =>
      have operator : (compareOps.find? fun other =>
          (compareOpSql other).toList = (compareOpSql op).toList) = some op := by
        cases op <;> rfl
      rw [SqlCondition.tokens, SqlCondition.read, if_neg (by cases op <;> decide), read_token,
        read_token, operator]
      rfl
  | isNull operand =>
      rw [SqlCondition.tokens, SqlCondition.read, if_pos rfl, read_token]
      rfl
  | isNotNull operand =>
      rw [SqlCondition.tokens, SqlCondition.read, read_token]
      rfl

/-- A text is the text of one condition at most. -/
theorem sql_injective : Function.Injective SqlCondition.sql := by
  intro c c' eq
  have lines : Token.line ' ' c.tokens = Token.line ' ' c'.tokens := by
    rw [line_tokens, line_tokens, eq]
  have tokens := Token.line_inj rfl (clean_tokens c) (clean_tokens c') lines
  have read := read_tokens c
  rw [tokens, read_tokens] at read
  exact (Option.some_inj.mp read).symm

end Read

end Lazuli.Migration
