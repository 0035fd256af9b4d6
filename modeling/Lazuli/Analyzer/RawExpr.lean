import Lazuli.Analyzer.Operand
import Lazuli.General.Find

/-!
The right-hand sides of assignments (`crates/lazuli_analyzer/src/expr.rs`).

`Denotes` is the grammar: operands, and calls of functions `@fn.<name>(<expr>, ...)` that are nested
to any depth. `lowerRawExpr` reads every text of it as it is meant (`Denotes.lowerRawExpr`), also
the text of a tree (`render`). It tells a string and a call by how they begin and end, so it also
takes other texts for one; `lower_exact_iff` says which.
-/

namespace Lazuli.Analyzer

open General.Text General.Find
open General.Quoted (dropPrefix_iff)
open Codegen (stripQuotes parseI64 digitsValue isAsciiDigit)
open Ir (Expr)

/-! ### The reader -/

/-- Commas in parentheses and in double quotes do not split. -/
def splitFnCallArgs (depth : Nat) (inQuote : Bool) : List Char → List (List Char)
  | [] => [[]]
  | c :: cs =>
      if c = '"' then (splitFnCallArgs depth (!inQuote) cs).modifyHead (c :: ·)
      else if inQuote then (splitFnCallArgs depth inQuote cs).modifyHead (c :: ·)
      else if c = '(' then (splitFnCallArgs (depth + 1) inQuote cs).modifyHead (c :: ·)
      else if c = ')' then (splitFnCallArgs (depth - 1) inQuote cs).modifyHead (c :: ·)
      else if c = ',' ∧ depth = 0 then [] :: splitFnCallArgs depth inQuote cs
      else (splitFnCallArgs depth inQuote cs).modifyHead (c :: ·)

def fnRoot : List Char := "@fn.".toList

/-- The name of a call, and what stands between its parentheses. A name without them is a call
too. -/
def parseFnCallExpr (text : List Char) : Option (List Char × Option (List Char)) := do
  let rest ← text.dropPrefix? fnRoot
  match cut '(' rest with
  | none =>
      if trim rest = [] ∨ '.' ∈ trim rest then none else some (trim rest, none)
  | some (name, after) =>
      let inside ← after.dropSuffix? [')']
      if trim name = [] then none else some (trim name, some inside)

/-- The arguments. Empty ones are dropped. -/
def fnCallArgs : Option (List Char) → List (List Char)
  | none => []
  | some inside =>
      if trim inside = [] then []
      else ((splitFnCallArgs 0 false inside).map trim).filter (· ≠ [])

def callText (name inside : List Char) : List Char := fnRoot ++ (name ++ '(' :: (inside ++ [')']))

/-! ### Splitting at commas -/

section Split

variable {depth : Nat} {inQuote : Bool} {s t piece : List Char}

theorem splitFnCallArgs_ne_nil (depth : Nat) (inQuote : Bool) (s : List Char) :
    splitFnCallArgs depth inQuote s ≠ [] := by
  cases s with
  | nil => exact List.cons_ne_nil _ _
  | cons c s =>
      rw [splitFnCallArgs]
      split_ifs
      all_goals simp [List.modifyHead_eq_nil_iff, splitFnCallArgs_ne_nil _ _ s]

/-- A character is put back in front of the first piece, or it is the comma in front of it. -/
theorem splitFnCallArgs_cons (depth : Nat) (inQuote : Bool) (c : Char) (s : List Char) :
    (∃ depth' inQuote', splitFnCallArgs depth inQuote (c :: s) =
        (splitFnCallArgs depth' inQuote' s).modifyHead (c :: ·)) ∨
      c = ',' ∧ splitFnCallArgs depth inQuote (c :: s) = [] :: splitFnCallArgs depth inQuote s := by
  rw [splitFnCallArgs]
  split_ifs with quote quoted opens closes comma
  · exact .inl ⟨_, _, rfl⟩
  · exact .inl ⟨_, _, rfl⟩
  · exact .inl ⟨_, _, rfl⟩
  · exact .inl ⟨_, _, rfl⟩
  · exact .inr ⟨comma.1, rfl⟩
  · exact .inl ⟨_, _, rfl⟩

/-- The commas put the pieces together again. -/
theorem intercalate_splitFnCallArgs (depth : Nat) (inQuote : Bool) (s : List Char) :
    [','].intercalate (splitFnCallArgs depth inQuote s) = s := by
  induction s generalizing depth inQuote with
  | nil => rfl
  | cons c s ih =>
      rcases splitFnCallArgs_cons depth inQuote c s with ⟨depth', inQuote', same⟩ | ⟨rfl, same⟩
      · rw [same]
        have back := ih depth' inQuote'
        cases pieces : splitFnCallArgs depth' inQuote' s with
        | nil => exact absurd pieces (splitFnCallArgs_ne_nil _ _ _)
        | cons first rest =>
            rw [pieces, intercalate_eq_trail] at back
            rw [List.modifyHead_cons, intercalate_eq_trail, List.cons_append, back]
      · have back := ih depth inQuote
        rw [same]
        cases pieces : splitFnCallArgs depth inQuote s with
        | nil => exact absurd pieces (splitFnCallArgs_ne_nil _ _ _)
        | cons first rest =>
            rw [pieces] at back
            rw [List.intercalate_cons_cons, back]
            rfl

theorem length_le_of_mem_splitFnCallArgs (h : piece ∈ splitFnCallArgs depth inQuote s) :
    piece.length ≤ s.length := by
  induction s generalizing depth inQuote piece with
  | nil =>
      obtain rfl := List.mem_singleton.mp h
      exact le_refl _
  | cons c s ih =>
      rcases splitFnCallArgs_cons depth inQuote c s with ⟨depth', inQuote', same⟩ | ⟨rfl, same⟩
      · rw [same] at h
        cases pieces : splitFnCallArgs depth' inQuote' s with
        | nil => exact absurd pieces (splitFnCallArgs_ne_nil _ _ _)
        | cons first rest =>
            rw [pieces, List.modifyHead_cons] at h
            rcases List.mem_cons.mp h with rfl | later
            · exact Nat.succ_le_succ (ih (pieces ▸ List.mem_cons_self))
            · exact Nat.le_succ_of_le (ih (pieces ▸ List.mem_cons_of_mem _ later))
      · rw [same] at h
        rcases List.mem_cons.mp h with rfl | later
        · exact Nat.zero_le _
        · exact Nat.le_succ_of_le (ih later)

theorem splitFnCallArgs_open : splitFnCallArgs depth false ('(' :: s) =
    (splitFnCallArgs (depth + 1) false s).modifyHead ('(' :: ·) := by
  simp [splitFnCallArgs]

theorem splitFnCallArgs_close : splitFnCallArgs (depth + 1) false (')' :: s) =
    (splitFnCallArgs depth false s).modifyHead (')' :: ·) := by
  simp [splitFnCallArgs]

theorem splitFnCallArgs_comma :
    splitFnCallArgs 0 false (',' :: s) = [] :: splitFnCallArgs 0 false s := by
  simp [splitFnCallArgs]

theorem splitFnCallArgs_comma_inside : splitFnCallArgs (depth + 1) false (',' :: s) =
    (splitFnCallArgs (depth + 1) false s).modifyHead (',' :: ·) := by
  simp [splitFnCallArgs]

/-- A text that is passed over as a whole, where the parentheses are `depth` deep. -/
def Passes (depth : Nat) (s : List Char) : Prop :=
  ∀ t, splitFnCallArgs depth false (s ++ t) = (splitFnCallArgs depth false t).modifyHead (s ++ ·)

theorem passes_nil (depth : Nat) : Passes depth [] := by
  intro t
  simp only [List.nil_append]
  exact (congrFun List.modifyHead_id _).symm

theorem Passes.append (left : Passes depth s) (right : Passes depth t) : Passes depth (s ++ t) := by
  intro u
  rw [List.append_assoc, left, right, List.modifyHead_modifyHead]
  simp only [Function.comp_def, List.append_assoc]

/-- The characters that do not count for the split. -/
def isQuiet (c : Char) : Bool := c ≠ '"' && c ≠ '(' && c ≠ ')' && c ≠ ','

theorem passes_of_quiet (h : ∀ c ∈ s, isQuiet c = true) : Passes depth s := by
  induction s with
  | nil => exact passes_nil depth
  | cons c s ih =>
      have quiet := h c List.mem_cons_self
      simp only [isQuiet, Bool.and_eq_true, decide_eq_true_eq] at quiet
      obtain ⟨⟨⟨quote, opens⟩, closes⟩, comma⟩ := quiet
      intro t
      rw [List.cons_append, splitFnCallArgs, if_neg quote, if_neg Bool.false_ne_true, if_neg opens,
        if_neg closes, if_neg fun h => comma h.1, ih fun d mem => h d (List.mem_cons_of_mem _ mem),
        List.modifyHead_modifyHead]
      rfl

theorem splitFnCallArgs_quoted (h : '"' ∉ s) (t : List Char) :
    splitFnCallArgs depth true (s ++ '"' :: t) =
      (splitFnCallArgs depth false t).modifyHead (s ++ '"' :: ·) := by
  induction s with
  | nil => rw [List.nil_append, splitFnCallArgs, if_pos rfl, Bool.not_true]; rfl
  | cons c s ih =>
      obtain ⟨quote, rest⟩ := List.ne_and_not_mem_of_not_mem_cons h
      rw [List.cons_append, splitFnCallArgs, if_neg quote.symm, if_pos rfl, ih rest,
        List.modifyHead_modifyHead]
      rfl

theorem passes_quoted (h : '"' ∉ s) : Passes depth ('"' :: (s ++ ['"'])) := by
  intro t
  rw [List.cons_append, List.append_assoc, List.singleton_append, splitFnCallArgs, if_pos rfl,
    Bool.not_false, splitFnCallArgs_quoted h, List.modifyHead_modifyHead]
  simp only [Function.comp_def, List.cons_append, List.append_assoc, List.nil_append]

/-- In parentheses everything is one deeper. -/
theorem Passes.inside (h : Passes (depth + 1) s) : Passes depth ('(' :: (s ++ [')'])) := by
  intro t
  rw [List.cons_append, List.append_assoc, List.singleton_append, splitFnCallArgs_open, h,
    splitFnCallArgs_close, List.modifyHead_modifyHead, List.modifyHead_modifyHead]
  simp only [Function.comp_def, List.cons_append, List.append_assoc, List.nil_append]

/-- Between parentheses commas do not split. -/
theorem passes_intercalate {pieces : List (List Char)} (h : ∀ p ∈ pieces, Passes (depth + 1) p) :
    Passes (depth + 1) ([','].intercalate pieces) := by
  induction pieces with
  | nil => exact passes_nil _
  | cons first rest ih =>
      have here := h first List.mem_cons_self
      have later := ih fun p mem => h p (List.mem_cons_of_mem _ mem)
      cases rest with
      | nil =>
          rw [List.intercalate_singleton]
          exact here
      | cons next rest =>
          have comma : Passes (depth + 1) [','] := fun t => splitFnCallArgs_comma_inside
          rw [List.intercalate_cons_cons]
          exact (here.append comma).append later

/-- Arguments that are passed over as a whole are the pieces. -/
theorem splitFnCallArgs_intercalate {pieces : List (List Char)} (ne : pieces ≠ [])
    (h : ∀ p ∈ pieces, Passes 0 p) :
    splitFnCallArgs 0 false ([','].intercalate pieces) = pieces := by
  induction pieces with
  | nil => exact absurd rfl ne
  | cons first rest ih =>
      have here := h first List.mem_cons_self
      cases rest with
      | nil =>
          have whole := here []
          rw [List.append_nil, splitFnCallArgs, List.modifyHead_cons, List.append_nil] at whole
          rw [List.intercalate_singleton, whole]
      | cons next rest =>
          have later := ih (List.cons_ne_nil _ _) fun p mem => h p (List.mem_cons_of_mem _ mem)
          rw [List.intercalate_cons_cons, List.append_assoc, here, List.singleton_append,
            splitFnCallArgs_comma, later, List.modifyHead_cons, List.append_nil]

end Split

/-! ### Words -/

section Words

variable {c : Char} {s : List Char}

theorem isWhitespace_of_isWordChar (h : isWordChar c = true) : isWhitespace c = false := by
  apply isWhitespace_of_visible
  rcases Bool.or_eq_true_iff.mp h with start | digit
  · rcases Bool.or_eq_true_iff.mp start with lower | under
    · obtain ⟨low, high⟩ := Bool.and_eq_true_iff.mp lower
      have low : 97 ≤ c.val.toNat := UInt32.le_iff_toNat_le.mp (of_decide_eq_true low)
      have high : c.val.toNat ≤ 122 := UInt32.le_iff_toNat_le.mp (of_decide_eq_true high)
      omega
    · obtain rfl := of_decide_eq_true under
      exact ⟨of_decide_eq_true rfl, of_decide_eq_true rfl⟩
  · obtain ⟨low, high⟩ := of_decide_eq_true digit
    have low : 48 ≤ c.val.toNat := UInt32.le_iff_toNat_le.mp low
    have high : c.val.toNat ≤ 57 := UInt32.le_iff_toNat_le.mp high
    omega

/-- A kind of characters with none of the marks in it. -/
theorem isQuiet_of_kind {kind : Char → Bool}
    (marks : ['"', '(', ')', ','].all (fun mark => !kind mark) = true) (h : kind c = true) :
    isQuiet c = true := by
  have ne {mark : Char} (mem : mark ∈ ['"', '(', ')', ',']) : (c ≠ mark : Bool) = true := by
    refine decide_eq_true ?_
    rintro rfl
    have other := List.all_eq_true.mp marks c mem
    rw [h] at other
    cases other
  simp only [isQuiet, Bool.and_eq_true]
  exact ⟨⟨⟨ne (by simp), ne (by simp)⟩, ne (by simp)⟩, ne (by simp)⟩

theorem word_ne_nil (h : isWord s = true) : s ≠ [] := by
  rintro rfl
  cases h

theorem trim_word (h : isWord s = true) : trim s = s :=
  trim_eq_self
    (fun _ mem => isWhitespace_of_isWordChar (isWordChar_of_isWord h _ (List.mem_of_mem_head? mem)))
    fun _ mem => isWhitespace_of_isWordChar (isWordChar_of_isWord h _ (List.mem_of_getLast? mem))

/-- What is no word character and no blank is not in a word with blanks around it. -/
theorem notMem_of_isWord_trim (h : isWord (trim s) = true) (word : isWordChar c = false)
    (blank : isWhitespace c = false) : c ∉ s := by
  intro mem
  have inside := isWordChar_of_isWord h c ((mem_trim_iff blank).mpr mem)
  rw [word] at inside
  cases inside

/-- A text with blanks around it is passed over if it is without them. -/
theorem Passes.of_trim {depth : Nat} (h : Passes depth (trim s)) : Passes depth s := by
  obtain ⟨w, w', hs, hw, hw'⟩ := trim_decomposition s
  have blank {u : List Char} (hu : ∀ c ∈ u, isWhitespace c = true) : Passes depth u :=
    passes_of_quiet fun c mem => isQuiet_of_kind rfl (hu c mem)
  rw [hs]
  exact (blank hw).append (h.append (blank hw'))

theorem passes_word {depth : Nat} (h : isWord s = true) : Passes depth s :=
  passes_of_quiet fun c mem => isQuiet_of_kind rfl (isWordChar_of_isWord h c mem)

end Words

/-! ### The parts of a call -/

section Call

variable {text name inside arg : List Char} {args : Option (List Char)}

theorem parseFnCallExpr_eq_none (h : ¬ fnRoot <+: text) : parseFnCallExpr text = none := by
  unfold parseFnCallExpr
  cases same : text.dropPrefix? fnRoot with
  | none => rfl
  | some rest => exact absurd ⟨rest, (dropPrefix_iff.mp same).symm⟩ h

theorem dropPrefix_fnRoot (rest : List Char) : (fnRoot ++ rest).dropPrefix? fnRoot = some rest :=
  dropPrefix_iff.mpr rfl

theorem parseFnCallExpr_reference (word : isWord (trim name) = true) :
    parseFnCallExpr (fnRoot ++ name) = some (trim name, none) := by
  have noParen : cut '(' name = none := cut_eq_none_iff.mpr (notMem_of_isWord_trim word rfl rfl)
  have noDot : ¬ (trim name = [] ∨ '.' ∈ trim name) :=
    not_or.mpr ⟨word_ne_nil word, dot_notMem_of_isWord word⟩
  rw [parseFnCallExpr, dropPrefix_fnRoot, Option.bind_eq_bind, Option.bind_some, noParen]
  exact if_neg noDot

theorem parseFnCallExpr_call (word : isWord (trim name) = true) :
    parseFnCallExpr (callText name inside) = some (trim name, some inside) := by
  have paren : cut '(' (name ++ '(' :: (inside ++ [')'])) = some (name, inside ++ [')']) :=
    cut_of_notMem (notMem_of_isWord_trim word rfl rfl) _
  have ends : (inside ++ [')']).dropSuffix? [')'] = some inside :=
    List.dropSuffix?_eq_some_iff.mpr ⟨[')'], rfl, rfl⟩
  rw [parseFnCallExpr, callText, dropPrefix_fnRoot, Option.bind_eq_bind, Option.bind_some, paren]
  dsimp only
  rw [ends, Option.bind_some, if_neg (word_ne_nil word)]

/-- The two forms of a call. -/
theorem parseFnCallExpr_eq_some (h : parseFnCallExpr text = some (name, args)) :
    ∃ written, trim written = name ∧
      (args = none ∧ text = fnRoot ++ written ∨
        ∃ inside, args = some inside ∧ text = callText written inside) := by
  unfold parseFnCallExpr at h
  obtain ⟨rest, begins, form⟩ := Option.bind_eq_some_iff.mp h
  obtain rfl := dropPrefix_iff.mp begins
  clear h
  split at form
  case h_1 =>
    split at form
    · cases form
    · cases form
      exact ⟨rest, rfl, .inl ⟨rfl, rfl⟩⟩
  case h_2 written after paren =>
    obtain ⟨inside, ends, named⟩ := Option.bind_eq_some_iff.mp form
    obtain ⟨close, rfl, isClose⟩ := List.dropSuffix?_eq_some_iff.mp ends
    obtain rfl := eq_of_beq isClose
    clear form
    split at named
    · cases named
    · cases named
      rw [(cut_eq_some_iff.mp paren).1]
      exact ⟨written, rfl, .inr ⟨inside, rfl, rfl⟩⟩

theorem length_lt_of_mem_fnCallArgs (h : parseFnCallExpr text = some (name, args))
    (mem : arg ∈ fnCallArgs args) : arg.length < text.length := by
  obtain ⟨written, -, ⟨rfl, -⟩ | ⟨inside, rfl, rfl⟩⟩ := parseFnCallExpr_eq_some h
  · cases mem
  · have short : arg.length ≤ inside.length := by
      rw [fnCallArgs] at mem
      split at mem
      · cases mem
      · obtain ⟨piece, found, rfl⟩ := List.mem_map.mp (List.mem_filter.mp mem).1
        exact (length_trim_le piece).trans (length_le_of_mem_splitFnCallArgs found)
    simp only [callText, List.length_append, List.length_cons]
    omega

end Call

theorem splitFnCallArgs_blank (blank : trim inside = []) :
    splitFnCallArgs 0 false inside = [inside] := by
  have passes : Passes 0 inside := .of_trim (blank ▸ passes_nil 0)
  have whole := splitFnCallArgs_intercalate (List.cons_ne_nil inside [])
    (List.forall_mem_singleton.mpr passes)
  rwa [List.intercalate_singleton] at whole

/-- No argument is dropped when none of the pieces is blank. -/
theorem fnCallArgs_filled {pieces : List (List Char)}
    (split : splitFnCallArgs 0 false inside = pieces) (filled : ∀ piece ∈ pieces, trim piece ≠ []) :
    fnCallArgs (some inside) = pieces.map trim := by
  have notBlank : trim inside ≠ [] := by
    intro blank
    rw [← split, splitFnCallArgs_blank blank] at filled
    exact filled inside List.mem_cons_self blank
  rw [fnCallArgs, if_neg notBlank, split, List.filter_eq_self]
  intro arg mem
  obtain ⟨piece, found, rfl⟩ := List.mem_map.mp mem
  exact decide_eq_true (filled piece found)

/-- `lower_raw_expr` -/
def lowerRawExpr (text : List Char) : Expr :=
  match literalOf (trim text) with
  | some literal => literal
  | none =>
      match _call : parseFnCallExpr (trim text) with
      | some (name, args) =>
          .fnCall (String.ofList name) ((fnCallArgs args).attach.map fun arg => lowerRawExpr arg.1)
      | none => pathOf (((trim text).splitOn '.').map trim)
termination_by text.length
decreasing_by
  exact (length_lt_of_mem_fnCallArgs _call arg.2).trans_le (length_trim_le text)

section Equations

variable {text name : List Char} {args : Option (List Char)} {e : Expr}

theorem literalOf_fnRoot (rest : List Char) : literalOf (fnRoot ++ rest) = none := by
  have noKeyword : fnRoot ++ rest ∉ keywords := by
    intro mem
    simp [keywords, fnRoot] at mem
  exact literalOf_none (by decide) rfl (by decide) (by decide) noKeyword

theorem literalOf_of_call (call : parseFnCallExpr text = some (name, args)) :
    literalOf text = none := by
  obtain ⟨written, -, ⟨-, rfl⟩ | ⟨inside, -, rfl⟩⟩ := parseFnCallExpr_eq_some call
  · exact literalOf_fnRoot _
  · exact literalOf_fnRoot _

theorem lowerRawExpr_literal (literal : literalOf (trim text) = some e) :
    lowerRawExpr text = e := by
  rw [lowerRawExpr, literal]

theorem lowerRawExpr_call (call : parseFnCallExpr (trim text) = some (name, args)) :
    lowerRawExpr text = .fnCall (String.ofList name) ((fnCallArgs args).map lowerRawExpr) := by
  rw [lowerRawExpr, literalOf_of_call call]
  dsimp only
  split
  next name' args' call' =>
    obtain ⟨rfl, rfl⟩ := Prod.mk.inj (Option.some.inj (call.symm.trans call'))
    rw [List.attach_map_val (f := lowerRawExpr)]
  next none => exact absurd (call.symm.trans none) (Option.some_ne_none _)

theorem lowerRawExpr_path (literal : literalOf (trim text) = none)
    (call : parseFnCallExpr (trim text) = none) :
    lowerRawExpr text = pathOf (((trim text).splitOn '.').map trim) := by
  rw [lowerRawExpr, literal]
  dsimp only
  split
  next some => exact absurd (some.symm.trans call) (Option.some_ne_none _)
  next => rfl

end Equations

/-! ### The grammar -/

/-- The text of an expression and what it says. There may be blanks around the name of a function
and around each of its arguments. -/
inductive Denotes : List Char → Expr → Prop where
  | operand {s : List Char} {e : Expr} : ¬ fnRoot <+: s → Operand (fun word => pathOf [word]) s e →
      Denotes s e
  | reference {name : List Char} : isWord (trim name) = true →
      Denotes (fnRoot ++ name) (.fnCall (String.ofList (trim name)) [])
  | empty {name inside : List Char} : isWord (trim name) = true → trim inside = [] →
      Denotes (callText name inside) (.fnCall (String.ofList (trim name)) [])
  | call {name : List Char} {args : List (List Char × Expr)} : isWord (trim name) = true →
      args ≠ [] → (∀ arg ∈ args, Denotes (trim arg.1) arg.2) →
      Denotes (callText name ([','].intercalate (args.map Prod.fst)))
        (.fnCall (String.ofList (trim name)) (args.map Prod.snd))

section Denotes

variable {s text : List Char} {e : Expr}

/-- What operands are written with that are no strings. -/
def isBare (c : Char) : Bool := isWordChar c || c = '.' || c = '@' || c = '-' || c = '+'

theorem isBare_of_isWordChar {c : Char} (h : isWordChar c = true) : isBare c = true := by
  unfold isBare
  rw [h]
  rfl

theorem isWhitespace_of_isBare {c : Char} (h : isBare c = true) : isWhitespace c = false := by
  simp only [isBare, Bool.or_eq_true, decide_eq_true_eq] at h
  rcases h with (((word | rfl) | rfl) | rfl) | rfl
  · exact isWhitespace_of_isWordChar word
  all_goals rfl

theorem trim_bare (h : ∀ c ∈ s, isBare c = true) : trim s = s :=
  trim_eq_self (fun _ mem => isWhitespace_of_isBare (h _ (List.mem_of_mem_head? mem)))
    fun _ mem => isWhitespace_of_isBare (h _ (List.mem_of_getLast? mem))

theorem isBare_of_isWord (h : isWord s = true) : ∀ c ∈ s, isBare c = true :=
  fun c hc => isBare_of_isWordChar (isWordChar_of_isWord h c hc)

theorem isBare_of_isRoot (h : isRoot s = true) : ∀ c ∈ s, isBare c = true := by
  rcases isWord_of_isRoot h with word | ⟨cs, rfl, word⟩
  · exact isBare_of_isWord word
  · exact List.forall_mem_cons.mpr ⟨rfl, isBare_of_isWord word⟩

theorem isBare_of_literal (literal : Literal s e) (noString : ∀ inner, e ≠ .string inner) :
    ∀ c ∈ s, isBare c = true := by
  cases literal with
  | string _ => exact absurd rfl (noString _)
  | integer h =>
      intro c hc
      rcases Codegen.sign_or_digit_of_parseI64 h hc with rfl | rfl | digit
      · rfl
      · rfl
      · exact isBare_of_isWordChar (Bool.or_eq_true_iff.mpr (.inr digit))
  | yes => exact List.all_eq_true.mp rfl
  | no => exact List.all_eq_true.mp rfl
  | nil => exact List.all_eq_true.mp rfl

/-- A string, or a text without blanks and marks. -/
theorem Operand.shape {bare : List Char → Expr} (operand : Operand bare s e) :
    (∃ inner, '"' ∉ inner ∧ s = '"' :: (inner ++ ['"'])) ∨ ∀ c ∈ s, isBare c = true := by
  cases operand with
  | literal literal =>
      cases literal with
      | string plain => exact .inl ⟨_, plain, rfl⟩
      | integer h => exact .inr (isBare_of_literal (.integer h) fun _ => nofun)
      | yes => exact .inr (isBare_of_literal .yes fun _ => nofun)
      | no => exact .inr (isBare_of_literal .no fun _ => nofun)
      | nil => exact .inr (isBare_of_literal .nil fun _ => nofun)
  | word word _ => exact .inr (isBare_of_isWord word)
  | path root _ words =>
      refine .inr fun c hc => ?_
      rcases mem_dotted hc with rfl | ⟨segment, hsegment, there⟩
      · rfl
      · rcases List.mem_cons.mp hsegment with rfl | later
        · exact isBare_of_isRoot root c there
        · exact isBare_of_isWord (words segment later) c there

theorem Denotes.ne_nil (denotes : Denotes s e) : s ≠ [] := by
  cases denotes with
  | operand _ operand => exact operand.ne_nil
  | reference _ => exact List.append_ne_nil_of_left_ne_nil (List.cons_ne_nil _ _) _
  | empty _ _ => exact List.append_ne_nil_of_left_ne_nil (List.cons_ne_nil _ _) _
  | call _ _ _ => exact List.append_ne_nil_of_left_ne_nil (List.cons_ne_nil _ _) _

theorem passes_fnRoot {depth : Nat} : Passes depth fnRoot :=
  passes_of_quiet (List.all_eq_true.mp rfl)

theorem passes_callText {depth : Nat} {name inside : List Char} (word : isWord (trim name) = true)
    (h : Passes (depth + 1) inside) : Passes depth (callText name inside) :=
  passes_fnRoot.append ((passes_word word).of_trim.append h.inside)

/-- An expression is passed over as a whole, however deep it stands. -/
theorem Denotes.passes (denotes : Denotes s e) (depth : Nat) : Passes depth s := by
  induction denotes generalizing depth with
  | operand _ operand =>
      rcases operand.shape with ⟨inner, plain, rfl⟩ | bare
      · exact passes_quoted plain
      · exact passes_of_quiet fun c mem => isQuiet_of_kind rfl (bare c mem)
  | reference word => exact passes_fnRoot.append (passes_word word).of_trim
  | empty word blank =>
      exact passes_callText word (.of_trim (blank ▸ passes_nil _))
  | call word _ _ ih =>
      refine passes_callText word (passes_intercalate fun piece mem => ?_)
      obtain ⟨arg, found, rfl⟩ := List.mem_map.mp mem
      exact (ih arg found (depth + 1)).of_trim

/-- The commas between the arguments are where the text is split. -/
theorem splitFnCallArgs_args {args : List (List Char × Expr)} (ne : args ≠ [])
    (h : ∀ arg ∈ args, Denotes (trim arg.1) arg.2) :
    splitFnCallArgs 0 false ([','].intercalate (args.map Prod.fst)) = args.map Prod.fst := by
  refine splitFnCallArgs_intercalate (mt List.map_eq_nil_iff.mp ne) fun piece mem => ?_
  obtain ⟨arg, found, rfl⟩ := List.mem_map.mp mem
  exact ((h arg found).passes 0).of_trim

theorem lowerRawExpr_segments {segments : List (List Char)} (h : trim text = dotted segments)
    (ne : segments ≠ []) (noDot : ∀ segment ∈ segments, '.' ∉ segment)
    (bare : ∀ segment ∈ segments, ∀ c ∈ segment, isBare c = true)
    (literal : literalOf (dotted segments) = none)
    (call : parseFnCallExpr (dotted segments) = none) : lowerRawExpr text = pathOf segments := by
  have same : segments.map trim = segments :=
    (List.map_congr_left fun segment mem => trim_bare (bare segment mem)).trans (List.map_id' _)
  rw [lowerRawExpr_path (h ▸ literal) (h ▸ call), h, splitOn_dotted ne noDot, same]

/-- **A text of the grammar is lowered to what it says.** -/
theorem Denotes.lowerRawExpr (denotes : Denotes s e) (h : trim text = s) :
    lowerRawExpr text = e := by
  induction denotes generalizing text with
  | @operand w _ noCall operand =>
      have none := parseFnCallExpr_eq_none noCall
      cases operand with
      | literal literal => exact lowerRawExpr_literal (h ▸ literal.literalOf)
      | word word hk =>
          have single : dotted [w] = w := List.intercalate_singleton
          refine lowerRawExpr_segments (h.trans single.symm) (List.cons_ne_nil _ _) ?_ ?_
            (single.symm ▸ literalOf_word word hk) (single.symm ▸ none)
          · exact List.forall_mem_singleton.mpr (dot_notMem_of_isWord word)
          · exact List.forall_mem_singleton.mpr (isBare_of_isWord word)
      | path root ne words =>
          refine lowerRawExpr_segments h (List.cons_ne_nil _ _) (dot_notMem_path root words) ?_
            (literalOf_path root ne) none
          exact List.forall_mem_cons.mpr
            ⟨isBare_of_isRoot root, fun segment mem => isBare_of_isWord (words segment mem)⟩
  | reference word =>
      rw [lowerRawExpr_call (h ▸ parseFnCallExpr_reference word)]
      rfl
  | empty word blank =>
      rw [lowerRawExpr_call (h ▸ parseFnCallExpr_call word), fnCallArgs, if_pos blank]
      rfl
  | call word ne denoted ih =>
      have filled := fnCallArgs_filled (splitFnCallArgs_args ne denoted) fun piece mem => by
        obtain ⟨arg, found, rfl⟩ := List.mem_map.mp mem
        exact (denoted arg found).ne_nil
      rw [lowerRawExpr_call (h ▸ parseFnCallExpr_call word), filled, List.map_map, List.map_map]
      refine congrArg _ (List.map_congr_left fun arg mem => ?_)
      exact ih arg mem (trim_trim arg.1)

end Denotes

/-! ### Rendering -/

mutual

/-- The text of a tree, without blanks. -/
def render : Expr → List Char
  | .path p => dotted (p.segments.map String.toList)
  | .string s => '"' :: (s.toList ++ ['"'])
  | .integer n => (toString n).toList
  | .boolean true => "true".toList
  | .boolean false => "false".toList
  | .enum name => name.toList
  | .nil => "nil".toList
  | .fnCall name args => callText name.toList ([','].intercalate (renderArgs args))

def renderArgs : List Expr → List (List Char)
  | [] => []
  | e :: es => render e :: renderArgs es

end

section Render

variable {s : List Char} {e : Expr}

theorem renderArgs_eq (es : List Expr) : renderArgs es = es.map render := by
  induction es with
  | nil => rfl
  | cons e es ih => rw [renderArgs, ih, List.map_cons]

theorem isAsciiDigit_of_isDigit {c : Char} (h : c.isDigit = true) : isAsciiDigit c = true := by
  simp only [Char.isDigit, Bool.and_eq_true, decide_eq_true_eq] at h
  exact decide_eq_true ⟨h.1, h.2⟩

/-- What a run of digits adds to what is before it. -/
theorem foldl_digits (cs : List Char) (digits : ∀ c ∈ cs, c.isDigit = true) (m : Nat) :
    cs.foldl (fun n d => 10 * n + ((d.toNat : Int) - 48)) (m : Int) =
      (Nat.ofDigitChars 10 cs m : Nat) := by
  induction cs generalizing m with
  | nil => rfl
  | cons c cs ih =>
      have low : 48 ≤ c.toNat := by
        have digit := digits c List.mem_cons_self
        simp only [Char.isDigit, Bool.and_eq_true, decide_eq_true_eq, ge_iff_le,
          UInt32.le_iff_toNat_le] at digit
        exact digit.1
      have step : 10 * (m : Int) + ((c.toNat : Int) - 48) = (10 * m + (c.toNat - 48) : Nat) := by
        omega
      rw [List.foldl_cons, step, ih fun d hd => digits d (List.mem_cons_of_mem _ hd),
        Nat.ofDigitChars_cons]
      rfl

theorem digitsValue_toString (n : Nat) : digitsValue (toString n).toList = some (n : Int) := by
  have digits : ∀ c ∈ (toString n).toList, c.isDigit = true :=
    fun c hc => isDigit_of_mem_toString_nat hc
  have all : (toString n).toList.all isAsciiDigit = true :=
    List.all_eq_true.mpr fun c hc => isAsciiDigit_of_isDigit (digits c hc)
  have filled : (toString n).toList.isEmpty = false :=
    List.isEmpty_eq_false_iff.mpr (toString_nat_ne_empty n)
  have sum : Nat.ofDigitChars 10 (toString n).toList 0 = n := by
    simp [Nat.repr, Nat.ofDigitChars_ten_toDigits]
  have value := foldl_digits _ digits 0
  rw [sum] at value
  rw [digitsValue, all, filled]
  exact congrArg some value

/-- An integer is read back from its decimal text. -/
theorem parseI64_toString {n : Int} (range : -(2 ^ 63) ≤ n ∧ n < 2 ^ 63) :
    parseI64 (toString n).toList = some n := by
  have kept : (some n).filter (fun n => decide (-(2 ^ 63) ≤ n ∧ n < 2 ^ 63)) = some n :=
    Option.filter_eq_some_iff.mpr ⟨rfl, decide_eq_true range⟩
  cases n with
  | ofNat n =>
      have digits : ∀ c ∈ (toString n).toList, c.isDigit = true :=
        fun c hc => isDigit_of_mem_toString_nat hc
      show parseI64 (toString n).toList = _
      unfold parseI64
      split
      next same =>
        have digit := digits '-' (same ▸ List.mem_cons_self)
        cases digit
      next same =>
        have digit := digits '+' (same ▸ List.mem_cons_self)
        cases digit
      · rw [digitsValue_toString]
        exact kept
  | negSucc n =>
      rw [toList_toString_negSucc, parseI64, digitsValue_toString]
      exact kept

theorem Denotes.of_literal (literal : Literal s e) : Denotes s e := by
  refine .operand ?_ (.literal literal)
  rintro ⟨rest, rfl⟩
  exact absurd (literalOf_fnRoot rest) (literal.literalOf ▸ Option.some_ne_none e)

theorem render_pathOf (segments : List (List Char)) :
    render (pathOf segments) = dotted segments := by
  rw [pathOf, render, List.map_map]
  refine congrArg dotted ((List.map_congr_left fun segment _ => ?_).trans (List.map_id' _))
  exact String.toList_ofList

theorem render_fnCall (name : List Char) (args : List Expr) :
    render (.fnCall (String.ofList name) args) =
      callText name ([','].intercalate (args.map render)) := by
  rw [render, String.toList_ofList, renderArgs_eq]

theorem trim_callText (name inside : List Char) :
    trim (callText name inside) = callText name inside := by
  refine trim_eq_self (fun c mem => ?_) fun c mem => ?_
  · obtain rfl := Option.some.inj mem
    rfl
  · have last : (callText name inside).getLast? = some ')' := by
      simp [callText, List.getLast?_cons]
    obtain rfl := Option.some.inj (last.symm.trans mem)
    rfl

theorem Operand.trim_eq {bare : List Char → Expr} (operand : Operand bare s e) : trim s = s := by
  rcases operand.shape with ⟨inner, -, rfl⟩ | bare
  · refine trim_eq_self (fun c mem => ?_) fun c mem => ?_
    · obtain rfl := Option.some.inj mem
      rfl
    · rw [← List.cons_append, List.getLast?_concat] at mem
      obtain rfl := Option.some.inj mem
      rfl
  · exact trim_bare bare

theorem render_literal (literal : Literal s e) : Literal (render e) e := by
  cases literal with
  | string plain =>
      rw [render, String.toList_ofList]
      exact .string plain
  | integer h =>
      have range := of_decide_eq_true (Option.filter_eq_some_iff.mp h).2
      exact .integer (parseI64_toString range)
  | yes => exact .yes
  | no => exact .no
  | nil => exact .nil

/-- A call with its arguments in texts that are trimmed already. -/
theorem denotes_callText {name : List Char} (word : isWord name = true) {args : List Expr}
    (h : ∀ arg ∈ args, Denotes (trim (render arg)) arg) :
    Denotes (callText name ([','].intercalate (args.map render)))
      (.fnCall (String.ofList name) args) := by
  have trimmed := trim_word word
  cases args with
  | nil =>
      have written : Denotes (callText name []) (.fnCall (String.ofList (trim name)) []) :=
        .empty (trimmed.symm ▸ word) rfl
      rwa [trimmed] at written
  | cons first rest =>
      have each : ∀ arg ∈ (first :: rest).map fun arg => (render arg, arg),
          Denotes (trim arg.1) arg.2 := by
        intro arg mem
        obtain ⟨e, found, rfl⟩ := List.mem_map.mp mem
        exact h e found
      have written := Denotes.call (trimmed.symm ▸ word) (List.cons_ne_nil _ _) each
      rw [trimmed] at written
      simpa [Function.comp_def] using written

/-- **What a text says is rendered as a text that says it.** -/
theorem Denotes.denotes_render (denotes : Denotes s e) :
    Denotes (render e) e ∧ trim (render e) = render e := by
  induction denotes with
  | @operand s e noCall operand =>
      have same (render_eq : render e = s) : Denotes (render e) e ∧ trim (render e) = render e := by
        rw [render_eq]
        exact ⟨.operand noCall operand, operand.trim_eq⟩
      cases operand with
      | literal literal =>
          have rendered := render_literal literal
          have operand : Operand (fun word => pathOf [word]) _ _ := .literal rendered
          exact ⟨.of_literal rendered, operand.trim_eq⟩
      | word _ _ => exact same ((render_pathOf _).trans List.intercalate_singleton)
      | path _ _ _ => exact same (render_pathOf _)
  | reference word =>
      rw [render_fnCall]
      exact ⟨denotes_callText word fun _ => nofun, trim_callText _ _⟩
  | empty word _ =>
      rw [render_fnCall]
      exact ⟨denotes_callText word fun _ => nofun, trim_callText _ _⟩
  | call word _ _ ih =>
      rw [render_fnCall]
      refine ⟨denotes_callText word fun arg mem => ?_, trim_callText _ _⟩
      obtain ⟨written, found, rfl⟩ := List.mem_map.mp mem
      obtain ⟨again, trimmed⟩ := ih written found
      rwa [trimmed]

/-- **A tree is read back from its text.** -/
theorem lowerRawExpr_render (denotes : Denotes s e) : lowerRawExpr (render e) = e :=
  denotes.denotes_render.1.lowerRawExpr denotes.denotes_render.2

end Render

/-! ### Texts outside the grammar -/

/-- The text is read as it is meant, and as a string or a call only if it is one. -/
structure Exact (text : List Char) : Prop where
  meant : ∀ e, Denotes (trim text) e → lowerRawExpr text = e
  rendered : ∀ e, Denotes (trim text) e → lowerRawExpr (render e) = e
  strings : ∀ s, lowerRawExpr text = .string s → Denotes (trim text) (.string s)
  calls : ∀ name args, lowerRawExpr text = .fnCall name args →
    Denotes (trim text) (.fnCall name args)

/-- Between a quote at the beginning and one at the end there is no other, and what is taken for a
call has an identifier for its name and, between the parentheses, blanks or expressions. -/
structure WellShaped (text : List Char) : Prop where
  quotes : ∀ inner, trim text = '"' :: (inner ++ ['"']) → '"' ∉ inner
  names : ∀ name args, parseFnCallExpr (trim text) = some (name, args) → isWord name = true
  args : ∀ name inside, parseFnCallExpr (trim text) = some (name, some inside) →
    trim inside = [] ∨ ∀ piece ∈ splitFnCallArgs 0 false inside, ∃ e, Denotes (trim piece) e

section Exact

variable {s text : List Char} {e : Expr}

/-- Only a string in quotes says a string. -/
theorem quoted_of_denotes {inner : List Char}
    (denotes : Denotes s (.string (String.ofList inner))) : '"' ∉ inner := by
  generalize string : Expr.string (String.ofList inner) = e at denotes
  cases denotes with
  | operand _ operand =>
      cases operand with
      | literal literal =>
          cases literal with
          | string plain =>
              obtain rfl := String.ofList_injective (Expr.string.inj string)
              exact plain
          | integer _ => cases string
          | yes => cases string
          | no => cases string
          | nil => cases string
      | word _ _ => cases string
      | path _ _ _ => cases string
  | reference _ => cases string
  | empty _ _ => cases string
  | call _ _ _ => cases string

theorem quoted_of_literalOf {inner : List Char}
    (h : literalOf s = some (.string (String.ofList inner))) : s = '"' :: (inner ++ ['"']) := by
  unfold literalOf at h
  split at h
  next inner' strip =>
    obtain rfl := String.ofList_injective (Expr.string.inj (Option.some.inj h))
    exact Codegen.stripQuotes_eq_some strip
  next =>
    split at h
    · cases h
    · split_ifs at h
      all_goals cases h

theorem literalOf_ne_fnCall {name : String} {args : List Expr} :
    literalOf s ≠ some (.fnCall name args) := by
  intro h
  cases literal_of_literalOf h fun _ => nofun

/-- What is between the parentheses of a call. -/
theorem args_of_denotes {name : List Char} {args : Option (List Char)} (denotes : Denotes s e)
    (call : parseFnCallExpr s = some (name, args)) : isWord name = true ∧
      ∀ inside, args = some inside → trim inside = [] ∨
        ∀ piece ∈ splitFnCallArgs 0 false inside, ∃ e, Denotes (trim piece) e := by
  cases denotes with
  | operand noCall _ =>
      rw [parseFnCallExpr_eq_none noCall] at call
      cases call
  | reference word =>
      rw [parseFnCallExpr_reference word] at call
      cases call
      exact ⟨word, fun _ => nofun⟩
  | empty word blank =>
      rw [parseFnCallExpr_call word] at call
      cases call
      exact ⟨word, fun _ same => .inl (Option.some.inj same ▸ blank)⟩
  | call word ne denoted =>
      rw [parseFnCallExpr_call word] at call
      cases call
      refine ⟨word, fun _ same => .inr ?_⟩
      rw [← Option.some.inj same, splitFnCallArgs_args ne denoted]
      intro piece mem
      obtain ⟨arg, found, rfl⟩ := List.mem_map.mp mem
      exact ⟨arg.2, denoted arg found⟩

theorem Exact.wellShaped (exact : Exact text) : WellShaped text where
  quotes inner quoted := by
    have lowered : lowerRawExpr text = .string (String.ofList inner) := by
      refine lowerRawExpr_literal ?_
      rw [quoted, literalOf, stripQuotes_quoted]
    exact quoted_of_denotes (exact.strings _ lowered)
  names name args call := (args_of_denotes (exact.calls _ _ (lowerRawExpr_call call)) call).1
  args name inside call :=
    (args_of_denotes (exact.calls _ _ (lowerRawExpr_call call)) call).2 inside rfl

/-- A call whose arguments are expressions says what it is lowered to. -/
theorem WellShaped.denotes_call (shaped : WellShaped text) {name : List Char}
    {args : Option (List Char)} (call : parseFnCallExpr (trim text) = some (name, args)) :
    Denotes (trim text) (lowerRawExpr text) := by
  have word := shaped.names name args call
  rw [lowerRawExpr_call call]
  obtain ⟨written, rfl, ⟨rfl, same⟩ | ⟨inside, rfl, same⟩⟩ := parseFnCallExpr_eq_some call
  · rw [same]
    exact .reference word
  · rw [same]
    rcases shaped.args _ inside call with blank | pieces
    · rw [fnCallArgs, if_pos blank]
      exact .empty word blank
    · have filled := fnCallArgs_filled rfl fun piece mem => (pieces piece mem).choose_spec.ne_nil
      have each : ∀ arg ∈ (splitFnCallArgs 0 false inside).map fun piece =>
          (piece, lowerRawExpr (trim piece)), Denotes (trim arg.1) arg.2 := by
        intro arg mem
        obtain ⟨piece, found, rfl⟩ := List.mem_map.mp mem
        obtain ⟨e, denotes⟩ := pieces piece found
        rwa [denotes.lowerRawExpr (trim_trim piece)]
      have whole := Denotes.call word
        (mt List.map_eq_nil_iff.mp (splitFnCallArgs_ne_nil 0 false inside)) each
      rw [List.map_map, List.map_map] at whole
      simp only [Function.comp_def, List.map_id', intercalate_splitFnCallArgs] at whole
      rw [filled, List.map_map]
      exact whole

theorem WellShaped.exact (shaped : WellShaped text) : Exact text where
  meant _ denotes := denotes.lowerRawExpr rfl
  rendered _ denotes := lowerRawExpr_render denotes
  strings s lowered := by
    cases literal : literalOf (trim text) with
    | some e =>
        rw [lowerRawExpr_literal literal] at lowered
        subst lowered
        refine .of_literal (literal_of_literalOf literal fun inner same => ?_)
        exact shaped.quotes inner (quoted_of_literalOf (same ▸ literal))
    | none =>
        cases call : parseFnCallExpr (trim text) with
        | some p =>
            rw [lowerRawExpr_call call] at lowered
            cases lowered
        | none =>
            rw [lowerRawExpr_path literal call] at lowered
            cases lowered
  calls name args lowered := by
    cases call : parseFnCallExpr (trim text) with
    | some p => exact lowered ▸ shaped.denotes_call call
    | none =>
        cases literal : literalOf (trim text) with
        | some e =>
            rw [lowerRawExpr_literal literal] at lowered
            exact absurd (lowered ▸ literal) literalOf_ne_fnCall
        | none =>
            rw [lowerRawExpr_path literal call] at lowered
            cases lowered

/-- **A text is lowered exactly iff it only looks like a string or a call where it is one.** -/
theorem lower_exact_iff (text : List Char) : Exact text ↔ WellShaped text :=
  ⟨Exact.wellShaped, WellShaped.exact⟩

/-- Two strings with a comma between them are one string. -/
theorem two_strings_inexact : ¬ ∀ text, Exact text := by
  intro all
  have quotes := (all "\"a\", \"b\"".toList).wellShaped.quotes "a\", \"b".toList rfl
  exact quotes (by simp)

end Exact

end Lazuli.Analyzer
