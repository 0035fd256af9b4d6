import Mathlib
import Lazuli.Syntax.PolicyTrees
import Lazuli.Codegen.CommandPolicy

/-!
Printing a policy expression and parsing it again
(`crates/lazuli_codegen_go/src/emitter/command/policy.rs`, `crates/lazuli_syntax`).

`write_policy_expr_display` puts a combination below another one in parentheses and drops the
arguments of atoms. What the parser reads from such a text is the tree without the arguments
(`parsePolicyExpr_display`).
-/

namespace Lazuli.Syntax

open Lazuli.General

/-! ### The printed text -/

def inParentheses (parenthesize : Bool) (text : List Char) : List Char :=
  if parenthesize then '(' :: text ++ [')'] else text

mutual

def writePolicyExprDisplay (parenthesize : Bool) : PolicyExprAst → List Char
  | .authenticated => "authenticated".toList
  | .hasRole name => "has_role ".toList ++ name
  | .hasPermission perm => "has_permission ".toList ++ perm
  | .atom atom => '@' :: atom.ns ++ '.' :: atom.name
  | .and terms => inParentheses parenthesize (writeTermsDisplay " and ".toList terms)
  | .or terms => inParentheses parenthesize (writeTermsDisplay " or ".toList terms)
  | .not inner => "not ".toList ++ writePolicyExprDisplay true inner

def writeTermsDisplay (connective : List Char) : List PolicyExprAst → List Char
  | [] => []
  | [term] => writePolicyExprDisplay true term
  | term :: terms => writePolicyExprDisplay true term ++ connective ++
      writeTermsDisplay connective terms

end

def policyExprDisplayName (expr : PolicyExprAst) : List Char := writePolicyExprDisplay false expr

mutual

/-- The atoms of a tree, from left to right. -/
def PolicyExprAst.atoms : PolicyExprAst → List PolicyAtomAst
  | .authenticated => []
  | .hasRole _ => []
  | .hasPermission _ => []
  | .atom atom => [atom]
  | .and terms => atomsOf terms
  | .or terms => atomsOf terms
  | .not inner => inner.atoms

def atomsOf : List PolicyExprAst → List PolicyAtomAst
  | [] => []
  | term :: terms => term.atoms ++ atomsOf terms

end

mutual

/-- The tree without the arguments of its atoms. -/
def PolicyExprAst.bare : PolicyExprAst → PolicyExprAst
  | .authenticated => .authenticated
  | .hasRole name => .hasRole name
  | .hasPermission perm => .hasPermission perm
  | .atom atom => .atom { atom with args := none }
  | .and terms => .and (bareTerms terms)
  | .or terms => .or (bareTerms terms)
  | .not inner => .not inner.bare

def bareTerms : List PolicyExprAst → List PolicyExprAst
  | [] => []
  | term :: terms => term.bare :: bareTerms terms

end

/-! ### Reading tokens back -/

/-- What can stand behind a printed expression. -/
def Ends (rest : List Char) : Prop := ∀ c ∈ rest.head?, c = ' ' ∨ c = ')'

/-- What can stand behind a printed combination. -/
def Closes (rest : List Char) : Prop := ∀ c ∈ rest.head?, c = ')'

section Tokens

variable {c : Char} {kw s s' rest token a b : List Char} {letter : Char → Bool}

theorem Closes.ends (h : Closes rest) : Ends rest := fun c hc => .inr (h c hc)

theorem skipWs_of_head (h : ∀ c ∈ s.head?, isAsciiWhitespace c = false) : skipWs s = s := by
  cases s with
  | nil => rfl
  | cons c s => exact List.dropWhile_cons_of_neg (by simp [h c rfl])

theorem skipWs_space (s : List Char) : skipWs (' ' :: s) = skipWs s := rfl

theorem Closes.skipWs (h : Closes rest) : skipWs rest = rest :=
  skipWs_of_head fun c hc => h c hc ▸ rfl

theorem consumeKeyword_congr (h : skipWs s = skipWs s') :
    consumeKeyword kw s = consumeKeyword kw s' := by
  rw [consumeKeyword, consumeKeyword, h]

variable (kw rest) in
theorem consumeKeyword_hit (opens : ∀ c ∈ kw.head?, isAsciiWhitespace c = false) (some : kw ≠ [])
    (ends : Ends rest) : consumeKeyword kw (kw ++ rest) = (true, rest) := by
  have skipped : skipWs (kw ++ rest) = kw ++ rest := by
    refine skipWs_of_head fun c hc => opens c ?_
    rwa [List.head?_append_of_ne_nil _ some] at hc
  simp only [consumeKeyword, skipped]
  rw [if_pos (List.prefix_append kw rest), List.drop_left]
  cases rest with
  | nil => rfl
  | cons d after =>
      rcases ends d rfl with rfl | rfl
      · rfl
      · rfl

theorem consumeKeyword_miss (skipped : skipWs s = s) (other : ¬ kw <+: s) :
    consumeKeyword kw s = (false, s) := by
  simp only [consumeKeyword, skipped]
  exact if_neg other

/-- No keyword follows where a combination closes. -/
theorem Closes.consumeKeyword (h : Closes rest) (opens : ∀ d ∈ kw.head?, d ≠ ')') (some : kw ≠ []) :
    consumeKeyword kw rest = (false, rest) := by
  refine consumeKeyword_miss h.skipWs ?_
  cases kw with
  | nil => exact absurd rfl some
  | cons d kw =>
      cases rest with
      | nil => simp
      | cons e rest =>
          intro lead
          exact opens d rfl ((List.cons_prefix_cons.mp lead).1.trans (h e rfl))

theorem consumeChar_hit (visible : isAsciiWhitespace c = false) (rest : List Char) :
    consumeChar c (c :: rest) = (true, rest) := by
  have skipped : skipWs (c :: rest) = c :: rest := skipWs_of_head (by simpa using visible)
  rw [consumeChar, skipped]
  exact if_pos rfl

theorem consumeChar_miss (skipped : skipWs s = s) (other : ∀ d ∈ s.head?, d ≠ c) :
    consumeChar c s = (false, s) := by
  rw [consumeChar, skipped]
  cases s with
  | nil => rfl
  | cons d s => exact if_neg (other d rfl)

theorem span_append {p : Char → Bool} (all : a.all p = true) (stop : ∀ c ∈ b.head?, p c = false) :
    (a ++ b).takeWhile p = a ∧ (a ++ b).dropWhile p = b := by
  have each : ∀ c ∈ a, p c = true := List.all_eq_true.mp all
  rw [List.takeWhile_append_of_pos each, List.dropWhile_append_of_pos each]
  cases b with
  | nil => exact ⟨List.append_nil a, rfl⟩
  | cons c b =>
      have other : ¬ p c = true := by simp [stop c rfl]
      rw [List.takeWhile_cons_of_neg other, List.dropWhile_cons_of_neg other, List.append_nil]
      exact ⟨rfl, rfl⟩

/-- The letters of tokens are neither white space nor a parenthesis. -/
def Plain (letter : Char → Bool) : Prop :=
  ∀ c ∈ [' ', '\t', '\n', '\x0c', '\r', ')'], letter c = false

theorem readToken_append (h : IsToken letter token) (plain : Plain letter) (ends : Ends rest) :
    readToken letter (' ' :: (token ++ rest)) = some (token, rest) := by
  obtain ⟨c, tail, rfl, first, all⟩ := h
  have visible : isAsciiWhitespace c = false := by
    rw [isAsciiWhitespace, decide_eq_false_iff_not]
    intro mem
    rw [plain c (List.mem_append_left [')'] mem)] at first
    cases first
  have skipped : skipWs (' ' :: (c :: tail ++ rest)) = c :: (tail ++ rest) :=
    skipWs_of_head (s := c :: (tail ++ rest)) (by simpa using visible)
  have stop : ∀ d ∈ rest.head?, (letter d || d.isDigit) = false := by
    intro d hd
    rcases ends d hd with rfl | rfl
    · rw [plain ' ' (by simp)]; rfl
    · rw [plain ')' (by simp)]; rfl
  obtain ⟨taken, left⟩ := span_append all stop
  rw [readToken, skipped]
  simp only [if_pos first, taken, left]

theorem plain_ident : Plain fun c => c.isLower || c = '_' := by simp [Plain, Char.isLower]

theorem plain_permissionRef : Plain fun c => c.isLower || c = '_' || c = ':' := by
  simp [Plain, Char.isLower]

theorem splitOnce_append (h : c ∉ a) : splitOnce c (a ++ c :: b) = some (a, b) := by
  have all : a.all (fun d => decide (d ≠ c)) = true := by
    rw [List.all_eq_true]
    intro d hd
    exact decide_eq_true fun same => h (same ▸ hd)
  obtain ⟨taken, left⟩ := span_append (b := c :: b) all (by simp)
  rw [splitOnce, left, taken]

theorem splitOnce_eq_none (h : c ∉ s) : splitOnce c s = none := by
  have gone : s.dropWhile (· ≠ c) = [] := by
    rw [List.dropWhile_eq_nil_iff]
    intro d hd
    exact decide_eq_true fun same => h (same ▸ hd)
  rw [splitOnce, gone]

end Tokens

section Atoms

variable {c : Char} {atom : PolicyAtomAst} {name rest : List Char}

theorem visible_of_isAtomChar (h : isAtomChar c = true) : 32 < c.val.toNat ∧ c.val.toNat < 127 := by
  simp only [isAtomChar, Char.isLower, Char.isDigit, Bool.or_eq_true, Bool.and_eq_true,
    decide_eq_true_eq, ge_iff_le, UInt32.le_iff_toNat_le] at h
  rcases h with (((lower | digit) | rfl) | rfl) | rfl
  · have range : 97 ≤ c.val.toNat ∧ c.val.toNat ≤ 122 := lower
    omega
  · have range : 48 ≤ c.val.toNat ∧ c.val.toNat ≤ 57 := digit
    omega
  all_goals decide

theorem atomChars_of_kebab (h : isKebabOrSnakeIdent name = true) : name.all isAtomChar = true := by
  cases name with
  | nil => rfl
  | cons first chars =>
      rw [isKebabOrSnakeIdent, Bool.and_eq_true, List.all_eq_true] at h
      rw [List.all_cons, Bool.and_eq_true, List.all_eq_true]
      refine ⟨by simp [isAtomChar, h.1], fun c hc => ?_⟩
      have char := h.2 c hc
      simp only [isAtomChar, Bool.or_eq_true] at char ⊢
      exact .inl char

theorem atomNamespaces_chars : ∀ ns ∈ atomNamespaces, ns.all isAtomChar = true ∧ '.' ∉ ns := by
  decide

/-- An atom without arguments, behind its sign. -/
def PolicyAtomAst.body (atom : PolicyAtomAst) : List Char := atom.ns ++ '.' :: atom.name

theorem atomChars_body (h : atom.WellFormed) : atom.body.all isAtomChar = true := by
  rw [PolicyAtomAst.body, List.all_append, List.all_cons, (atomNamespaces_chars _ h.ns).1,
    atomChars_of_kebab h.name]
  rfl

theorem readAtomToken_body (h : atom.WellFormed) (ends : Ends rest) :
    readAtomToken ('@' :: (atom.body ++ rest)) = some ('@' :: atom.body, rest) := by
  have skipped : skipWs ('@' :: (atom.body ++ rest)) = '@' :: (atom.body ++ rest) := rfl
  have stop : ∀ c ∈ rest.head?, isAtomChar c = false := by
    intro c hc
    rcases ends c hc with rfl | rfl <;> rfl
  obtain ⟨taken, left⟩ := span_append (atomChars_body h) stop
  have some : atom.body ≠ [] := by simp [PolicyAtomAst.body]
  rw [readAtomToken, skipped]
  simp only [taken, left, if_neg some]
  split
  case h_1 inside =>
    rcases ends '(' rfl with same | same <;> cases same
  case h_2 => rfl

theorem parsePolicyAtom_body (h : atom.WellFormed) :
    parsePolicyAtom ('@' :: atom.body) = .ok { atom with args := none } := by
  have chars := List.all_eq_true.mp (atomChars_body h)
  have plain : ∀ c ∈ '@' :: atom.body, Text.isWhitespace c = false := by
    rw [List.forall_mem_cons]
    exact ⟨by decide, fun c hc => Text.isWhitespace_of_visible (visible_of_isAtomChar (chars c hc))⟩
  have trimmed : Text.trim ('@' :: atom.body) = '@' :: atom.body :=
    Text.trim_eq_self (fun c hc => plain c (List.mem_of_mem_head? hc))
      fun c hc => plain c (List.mem_of_mem_getLast? hc)
  have unopened : '(' ∉ atom.body := fun mem => by cases chars '(' mem
  have trimmed' : Text.trim atom.body = atom.body :=
    Text.trim_eq_self (fun c hc => plain c (List.mem_cons_of_mem _ (List.mem_of_mem_head? hc)))
      fun c hc => plain c (List.mem_cons_of_mem _ (List.mem_of_mem_getLast? hc))
  rw [parsePolicyAtom, trimmed]
  simp only [splitOnce_eq_none unopened, trimmed']
  rw [parseAtomBody, PolicyAtomAst.body, splitOnce_append (atomNamespaces_chars _ h.ns).2]
  simp only [not_not.mpr h.ns, if_false, h.name, if_true]

end Atoms

/-! ### Reading expressions back -/

/-- The reader gets the value from the text, whatever stands behind it. -/
def Reads (p : Parser PolicyExprAst) (behind : List Char → Prop) (text : List Char)
    (value : PolicyExprAst) : Prop :=
  ∀ rest, behind rest → ∃ left, p (text ++ rest) = .ok (value, left) ∧ skipWs left = skipWs rest

/-- Behind a term comes the end, or the keyword and another term. -/
def Follows (kw rest : List Char) : Prop := Closes rest ∨ ∃ s, rest = ' ' :: (kw ++ ' ' :: s)

section Leaves

variable {unary : Parser PolicyExprAst} {s rest : List Char} {n : Nat}

theorem parseUnary_miss (skipped : skipWs s = s) (other : ¬ "not".toList <+: s) :
    parseUnary (n + 1) s = parseAtom (parseUnary n) s := by
  rw [parseUnary, consumeKeyword_miss skipped other]

theorem parseUnary_not (ends : Ends rest) :
    parseUnary (n + 1) ("not".toList ++ rest) =
      match parseUnary n rest with
      | .error e => .error e
      | .ok (inner, rest) => .ok (.not inner, rest) := by
  have hit := consumeKeyword_hit "not".toList rest (by simp [isAsciiWhitespace]) (by simp) ends
  cases inner : parseUnary n rest <;> simp only [parseUnary, hit, inner]

theorem parseUnary_space (n : Nat) (s : List Char) : parseUnary n (' ' :: s) = parseUnary n s := by
  cases n with
  | zero => rfl
  | succ n => rw [parseUnary, parseUnary, consumeKeyword_congr (skipWs_space s)]

theorem parseAtom_authenticated (ends : Ends rest) :
    parseAtom unary ("authenticated".toList ++ rest) = .ok (.authenticated, rest) := by
  have unopened : consumeChar '(' ("authenticated".toList ++ rest) =
      (false, "authenticated".toList ++ rest) := consumeChar_miss rfl (by simp)
  rw [parseAtom, unopened]
  simp only [consumeKeyword_hit "authenticated".toList _ (by simp [isAsciiWhitespace])
    (by simp) ends]

theorem parseAtom_hasRole {name : List Char} (h : IsToken (fun c => c.isLower || c = '_') name)
    (ends : Ends rest) :
    parseAtom unary ("has_role".toList ++ ' ' :: (name ++ rest)) = .ok (.hasRole name, rest) := by
  have unopened : consumeChar '(' ("has_role".toList ++ ' ' :: (name ++ rest)) =
      (false, "has_role".toList ++ ' ' :: (name ++ rest)) := consumeChar_miss rfl (by simp)
  have other : consumeKeyword "authenticated".toList ("has_role".toList ++ ' ' :: (name ++ rest)) =
      (false, "has_role".toList ++ ' ' :: (name ++ rest)) := consumeKeyword_miss rfl (by simp)
  have found := consumeKeyword_hit "has_role".toList (' ' :: (name ++ rest))
    (by simp [isAsciiWhitespace]) (by simp) (by simp [Ends])
  have read : readIdent (' ' :: (name ++ rest)) = some (name, rest) :=
    readToken_append h plain_ident ends
  rw [parseAtom, unopened]
  simp only [other, found, parseRole, read]

theorem parseAtom_hasPermission {perm : List Char}
    (h : IsToken (fun c => c.isLower || c = '_' || c = ':') perm)
    (valid : isValidPermissionRef perm = true) (ends : Ends rest) :
    parseAtom unary ("has_permission".toList ++ ' ' :: (perm ++ rest)) =
      .ok (.hasPermission perm, rest) := by
  have unopened : consumeChar '(' ("has_permission".toList ++ ' ' :: (perm ++ rest)) =
      (false, "has_permission".toList ++ ' ' :: (perm ++ rest)) := consumeChar_miss rfl (by simp)
  have other : consumeKeyword "authenticated".toList
      ("has_permission".toList ++ ' ' :: (perm ++ rest)) =
        (false, "has_permission".toList ++ ' ' :: (perm ++ rest)) :=
    consumeKeyword_miss rfl (by simp)
  have role : consumeKeyword "has_role".toList ("has_permission".toList ++ ' ' :: (perm ++ rest)) =
      (false, "has_permission".toList ++ ' ' :: (perm ++ rest)) := consumeKeyword_miss rfl (by simp)
  have found := consumeKeyword_hit "has_permission".toList (' ' :: (perm ++ rest))
    (by simp [isAsciiWhitespace]) (by simp) (by simp [Ends])
  have read : readPermissionRef (' ' :: (perm ++ rest)) = some (perm, rest) :=
    readToken_append h plain_permissionRef ends
  rw [parseAtom, unopened]
  simp only [other, role, found, parsePermission, read, valid, if_true]

theorem parseAtom_body {atom : PolicyAtomAst} (h : atom.WellFormed) (ends : Ends rest) :
    parseAtom unary ('@' :: (atom.body ++ rest)) =
      .ok (.atom { atom with args := none }, rest) := by
  have unopened : consumeChar '(' ('@' :: (atom.body ++ rest)) =
      (false, '@' :: (atom.body ++ rest)) := consumeChar_miss rfl (by simp)
  have authenticated : consumeKeyword "authenticated".toList ('@' :: (atom.body ++ rest)) =
      (false, '@' :: (atom.body ++ rest)) := consumeKeyword_miss rfl (by simp)
  have role : consumeKeyword "has_role".toList ('@' :: (atom.body ++ rest)) =
      (false, '@' :: (atom.body ++ rest)) := consumeKeyword_miss rfl (by simp)
  have permission : consumeKeyword "has_permission".toList ('@' :: (atom.body ++ rest)) =
      (false, '@' :: (atom.body ++ rest)) := consumeKeyword_miss rfl (by simp)
  rw [parseAtom, unopened]
  simp only [authenticated, role, permission, readAtomToken_body h ends, parsePolicyAtom_body h]

theorem parseAtom_paren {inside : List Char} {t : PolicyExprAst}
    (h : parseOr unary inside = .ok (t, ')' :: rest)) :
    parseAtom unary ('(' :: inside) = .ok (t, rest) := by
  rw [parseAtom, consumeChar_hit rfl]
  simp only [h, consumeChar_hit (c := ')') rfl]

end Leaves

section Terms

variable {term unary : Parser PolicyExprAst} {kw s rest left text : List Char}
  {t value : PolicyExprAst} {ts : List PolicyExprAst}
  {combine : List PolicyExprAst → PolicyExprAst}

/-- The terms behind the first one, as they are printed. -/
def printedMore (kw : List Char) (ts : List PolicyExprAst) : List Char :=
  ts.flatMap fun t => ' ' :: (kw ++ ' ' :: writePolicyExprDisplay true t)

theorem printedMore_cons (kw rest : List Char) (t : PolicyExprAst) (ts : List PolicyExprAst) :
    printedMore kw (t :: ts) ++ rest =
      ' ' :: (kw ++ ' ' :: (writePolicyExprDisplay true t ++ (printedMore kw ts ++ rest))) := by
  simp [printedMore]

theorem Follows.ends (h : Follows kw rest) : Ends rest := by
  rcases h with closes | ⟨s, rfl⟩
  · exact closes.ends
  · simp [Ends]

theorem follows_printedMore (closes : Closes rest) : Follows kw (printedMore kw ts ++ rest) := by
  cases ts with
  | nil => exact .inl closes
  | cons t ts => exact .inr ⟨_, printedMore_cons kw rest t ts⟩

theorem length_le_printedMore (kw : List Char) (ts : List PolicyExprAst) :
    ts.length ≤ (printedMore kw ts).length := by
  induction ts with
  | nil => exact Nat.zero_le _
  | cons t ts ih =>
      have step := congrArg List.length (printedMore_cons kw [] t ts)
      simp only [List.append_nil, List.length_cons, List.length_append] at step
      rw [List.length_cons]
      omega

/-- A keyword that is no white space and does not begin with a parenthesis. -/
structure Connects (kw : List Char) : Prop where
  some : kw ≠ []
  visible : ∀ c ∈ kw.head?, isAsciiWhitespace c = false
  closed : ∀ c ∈ kw.head?, c ≠ ')'

theorem connects_and : Connects "and".toList where
  some := by simp
  visible := by simp [isAsciiWhitespace]
  closed := by simp

theorem connects_or : Connects "or".toList where
  some := by simp
  visible := by simp [isAsciiWhitespace]
  closed := by simp

theorem skipWs_keyword (h : Connects kw) (s : List Char) : skipWs (' ' :: (kw ++ s)) = kw ++ s := by
  refine skipWs_of_head (s := kw ++ s) fun c hc => h.visible c ?_
  rwa [List.head?_append_of_ne_nil _ h.some] at hc

theorem parseMore_printed (h : Connects kw) (space : ∀ s, term (' ' :: s) = term s)
    (reads : ∀ t ∈ ts, Reads term (Follows kw) (writePolicyExprDisplay true t) t.bare)
    (closes : Closes rest) {n : Nat} (rounds : ts.length < n)
    (same : skipWs s = skipWs (printedMore kw ts ++ rest)) :
    parseMore kw term n s = .ok (ts.map PolicyExprAst.bare, rest) := by
  induction ts generalizing n s with
  | nil =>
      obtain ⟨n, rfl⟩ := Nat.exists_eq_succ_of_ne_zero (Nat.ne_zero_of_lt rounds)
      rw [parseMore, consumeKeyword_congr same]
      simp only [printedMore, List.flatMap_nil, List.nil_append,
        closes.consumeKeyword h.closed h.some]
      rfl
  | cons t ts ih =>
      obtain ⟨n, rfl⟩ := Nat.exists_eq_succ_of_ne_zero (Nat.ne_zero_of_lt rounds)
      obtain ⟨left, read, left_eq⟩ :=
        reads t List.mem_cons_self (printedMore kw ts ++ rest) (follows_printedMore closes)
      have more := ih (fun u hu => reads u (List.mem_cons_of_mem t hu))
        (Nat.lt_of_succ_lt_succ rounds) left_eq
      rw [printedMore_cons, skipWs_keyword h] at same
      have found : consumeKeyword kw s =
          (true, ' ' :: (writePolicyExprDisplay true t ++ (printedMore kw ts ++ rest))) := by
        rw [← consumeKeyword_hit _ _ h.visible h.some (by simp [Ends])]
        refine consumeKeyword_congr (same.trans ?_)
        exact (skipWs_of_head fun c hc => h.visible c (by
          rwa [List.head?_append_of_ne_nil _ h.some] at hc)).symm
      rw [parseMore, found]
      simp only [space, read, more, List.map_cons]

/-- Printed terms are read as the combination of what they are read as. -/
theorem parseTerms_printed (h : Connects kw) (space : ∀ s, term (' ' :: s) = term s)
    (reads : ∀ u ∈ t :: ts, Reads term (Follows kw) (writePolicyExprDisplay true u) u.bare)
    (closes : Closes rest) :
    parseTerms kw combine term (writePolicyExprDisplay true t ++ (printedMore kw ts ++ rest)) =
      .ok (collect combine t.bare (ts.map PolicyExprAst.bare), rest) := by
  obtain ⟨left, read, left_eq⟩ :=
    reads t List.mem_cons_self (printedMore kw ts ++ rest) (follows_printedMore closes)
  have rounds : ts.length < left.length + 1 := by
    have le := length_skipWs_le left
    rw [left_eq] at le
    cases ts with
    | nil => simp
    | cons u ts =>
        rw [printedMore_cons, skipWs_keyword h] at le
        have := length_le_printedMore kw ts
        simp only [List.length_append, List.length_cons] at le ⊢
        omega
  have more := parseMore_printed h space (fun u hu => reads u (List.mem_cons_of_mem t hu)) closes
    rounds left_eq
  rw [parseTerms, read]
  simp only [more]

variable (kw combine) in
/-- Where no keyword follows, a term stands for itself. -/
theorem parseTerms_single (read : term s = .ok (value, left))
    (none : (consumeKeyword kw left).1 = false) :
    parseTerms kw combine term s = .ok (value, skipWs left) := by
  have left_eq : consumeKeyword kw left = (false, skipWs left) :=
    Prod.ext none (eq_skipWs_of_consumeKeyword (Prod.ext none rfl))
  rw [parseTerms, read]
  simp only [parseMore, left_eq, collect]

theorem writeTermsDisplay_cons (kw : List Char) (t : PolicyExprAst) (ts : List PolicyExprAst) :
    writeTermsDisplay (' ' :: (kw ++ [' '])) (t :: ts) =
      writePolicyExprDisplay true t ++ printedMore kw ts := by
  induction ts generalizing t with
  | nil => rw [writeTermsDisplay, printedMore, List.flatMap_nil, List.append_nil]
  | cons u ts ih =>
      rw [writeTermsDisplay, ih, printedMore, printedMore, List.flatMap_cons]
      · simp only [List.cons_append, List.append_assoc, List.nil_append]
      · simp

theorem bareTerms_eq (ts : List PolicyExprAst) : bareTerms ts = ts.map PolicyExprAst.bare := by
  induction ts with
  | nil => rfl
  | cons t ts ih => rw [bareTerms, ih, List.map_cons]

/-- Between the terms of a disjunction no conjunction goes on. -/
theorem Reads.parseAnd (reads : Reads unary Ends text value) :
    Reads (parseAnd unary) (Follows "or".toList) text value := by
  intro rest follows
  obtain ⟨left, read, left_eq⟩ := reads rest follows.ends
  refine ⟨skipWs left, parseTerms_single _ _ read ?_, ?_⟩
  · rw [consumeKeyword_congr left_eq]
    rcases follows with closes | ⟨s, rfl⟩
    · rw [closes.consumeKeyword connects_and.closed connects_and.some]
    · have spaced : consumeKeyword "and".toList (' ' :: ("or".toList ++ ' ' :: s)) =
          (false, "or".toList ++ ' ' :: s) :=
        (consumeKeyword_congr (skipWs_space _)).trans (consumeKeyword_miss rfl (by simp))
      rw [spaced]
  · rw [left_eq]
    exact List.dropWhile_idempotent _ rest

theorem parseAnd_space (space : ∀ s, unary (' ' :: s) = unary s) (s : List Char) :
    parseAnd unary (' ' :: s) = parseAnd unary s := by
  rw [parseAnd, parseTerms, parseTerms, space]

/-- A printed expression that is no combination. -/
theorem parseOr_single (read : unary (text ++ rest) = .ok (value, rest)) (closes : Closes rest) :
    parseOr unary (text ++ rest) = .ok (value, rest) := by
  have inner : parseAnd unary (text ++ rest) = .ok (value, rest) := by
    have single := parseTerms_single "and".toList .and read
      (by rw [closes.consumeKeyword connects_and.closed connects_and.some])
    rwa [closes.skipWs] at single
  have outer := parseTerms_single "or".toList .or inner
    (by rw [closes.consumeKeyword connects_or.closed connects_or.some])
  rwa [closes.skipWs] at outer

end Terms

/-- Below another expression it is read by `parseUnary`, and alone by `parseOr`. -/
structure ReadsBack (t : PolicyExprAst) : Prop where
  unary : ∀ n rest, (writePolicyExprDisplay true t).length < n → Ends rest →
    parseUnary n (writePolicyExprDisplay true t ++ rest) = .ok (t.bare, rest)
  whole : ∀ n rest, (writePolicyExprDisplay false t).length < n → Closes rest →
    parseOr (parseUnary n) (writePolicyExprDisplay false t ++ rest) = .ok (t.bare, rest)

section ReadsBack

variable {t : PolicyExprAst} {ts : List PolicyExprAst}

/-- An expression that is printed without parentheses. -/
theorem ReadsBack.of_unary
    (same : writePolicyExprDisplay true t = writePolicyExprDisplay false t)
    (unary : ∀ n rest, (writePolicyExprDisplay true t).length < n → Ends rest →
      parseUnary n (writePolicyExprDisplay true t ++ rest) = .ok (t.bare, rest)) : ReadsBack t where
  unary := unary
  whole := by
    intro n rest room closes
    rw [← same] at room ⊢
    exact parseOr_single (unary n rest room closes.ends) closes

/-- An expression that is printed in parentheses. -/
theorem ReadsBack.of_whole
    (parens : writePolicyExprDisplay true t = '(' :: writePolicyExprDisplay false t ++ [')'])
    (whole : ∀ n rest, (writePolicyExprDisplay false t).length < n → Closes rest →
      parseOr (parseUnary n) (writePolicyExprDisplay false t ++ rest) = .ok (t.bare, rest)) :
    ReadsBack t where
  unary := by
    intro n rest room _
    have length : (writePolicyExprDisplay false t).length + 2 < n := by
      rw [parens] at room
      simpa using room
    obtain ⟨n, rfl⟩ : ∃ m, n = m + 1 := ⟨n - 1, by omega⟩
    have inside := whole n (')' :: rest) (by omega) (by simp [Closes])
    have shown : writePolicyExprDisplay true t ++ rest =
        '(' :: (writePolicyExprDisplay false t ++ ')' :: rest) := by simp [parens]
    rw [shown, parseUnary_miss rfl (by simp)]
    exact parseAtom_paren inside
  whole := whole

theorem printedMore_subterm (kw : List Char) {u : PolicyExprAst} (mem : u ∈ t :: ts) :
    (writePolicyExprDisplay true u).length ≤
      (writePolicyExprDisplay true t ++ printedMore kw ts).length := by
  rw [List.length_append]
  rcases List.mem_cons.mp mem with rfl | mem
  · omega
  · have piece := List.sublist_flatten_of_mem
      (List.mem_map_of_mem (f := fun t => ' ' :: (kw ++ ' ' :: writePolicyExprDisplay true t)) mem)
    have le := piece.length_le
    rw [← List.flatMap_def] at le
    simp only [List.length_append, List.length_cons] at le
    rw [printedMore]
    omega

/-- The terms of a combination are read by `parseUnary`. -/
theorem reads_terms {kw : List Char} {n : Nat} (ih : ∀ u ∈ t :: ts, ReadsBack u)
    (room : (writePolicyExprDisplay true t ++ printedMore kw ts).length < n) :
    ∀ u ∈ t :: ts, Reads (parseUnary n) Ends (writePolicyExprDisplay true u) u.bare := by
  intro u mem rest ends
  have le := printedMore_subterm kw mem
  exact ⟨rest, (ih u mem).unary n rest (by omega) ends, rfl⟩

theorem collect_bare (combine : List PolicyExprAst → PolicyExprAst) (some : ts ≠ []) :
    collect combine t.bare (ts.map PolicyExprAst.bare) = combine (bareTerms (t :: ts)) := by
  cases ts with
  | nil => exact absurd rfl some
  | cons u ts => rw [bareTerms_eq]; rfl

section Shown

variable (parenthesize : Bool) (rest : List Char)

theorem authenticated_shown : writePolicyExprDisplay parenthesize .authenticated ++ rest =
    "authenticated".toList ++ rest := rfl

theorem hasRole_shown (name : List Char) :
    writePolicyExprDisplay parenthesize (.hasRole name) ++ rest =
      "has_role".toList ++ ' ' :: (name ++ rest) := by
  have shown : writePolicyExprDisplay parenthesize (.hasRole name) =
      "has_role ".toList ++ name := rfl
  simp [shown]

theorem hasPermission_shown (perm : List Char) :
    writePolicyExprDisplay parenthesize (.hasPermission perm) ++ rest =
      "has_permission".toList ++ ' ' :: (perm ++ rest) := by
  have shown : writePolicyExprDisplay parenthesize (.hasPermission perm) =
      "has_permission ".toList ++ perm := rfl
  simp [shown]

theorem atom_shown (atom : PolicyAtomAst) :
    writePolicyExprDisplay parenthesize (.atom atom) ++ rest = '@' :: (atom.body ++ rest) := by
  have shown : writePolicyExprDisplay parenthesize (.atom atom) =
      '@' :: atom.ns ++ '.' :: atom.name := rfl
  simp [shown, PolicyAtomAst.body]

theorem not_shown (inner : PolicyExprAst) :
    writePolicyExprDisplay parenthesize (.not inner) ++ rest =
      "not".toList ++ ' ' :: (writePolicyExprDisplay true inner ++ rest) := by
  have shown : writePolicyExprDisplay parenthesize (.not inner) =
      "not ".toList ++ writePolicyExprDisplay true inner := rfl
  simp [shown]

end Shown

theorem readsBack (wellFormed : t.WellFormed) : ReadsBack t := by
  induction wellFormed with
  | authenticated =>
      refine .of_unary rfl fun n rest room ends => ?_
      obtain ⟨n, rfl⟩ := Nat.exists_eq_succ_of_ne_zero (Nat.ne_zero_of_lt room)
      rw [authenticated_shown, parseUnary_miss rfl (by simp)]
      exact parseAtom_authenticated ends
  | @hasRole name token =>
      refine .of_unary rfl fun n rest room ends => ?_
      obtain ⟨n, rfl⟩ := Nat.exists_eq_succ_of_ne_zero (Nat.ne_zero_of_lt room)
      rw [hasRole_shown, parseUnary_miss rfl (by simp)]
      exact parseAtom_hasRole token ends
  | @hasPermission perm token valid =>
      refine .of_unary rfl fun n rest room ends => ?_
      obtain ⟨n, rfl⟩ := Nat.exists_eq_succ_of_ne_zero (Nat.ne_zero_of_lt room)
      rw [hasPermission_shown, parseUnary_miss rfl (by simp)]
      exact parseAtom_hasPermission token valid ends
  | @atom atom h =>
      refine .of_unary rfl fun n rest room ends => ?_
      obtain ⟨n, rfl⟩ := Nat.exists_eq_succ_of_ne_zero (Nat.ne_zero_of_lt room)
      rw [atom_shown, parseUnary_miss rfl (by simp)]
      exact parseAtom_body h ends
  | @and t ts some _ ih =>
      refine .of_whole rfl fun n rest room closes => ?_
      have shown : writePolicyExprDisplay false (.and (t :: ts)) =
          writePolicyExprDisplay true t ++ printedMore "and".toList ts :=
        writeTermsDisplay_cons "and".toList t ts
      rw [shown] at room ⊢
      have inner : parseAnd (parseUnary n)
          (writePolicyExprDisplay true t ++ (printedMore "and".toList ts ++ rest)) =
            .ok (.and (bareTerms (t :: ts)), rest) := by
        rw [← collect_bare .and some]
        exact parseTerms_printed connects_and (parseUnary_space n)
          (fun u mem rest follows => reads_terms ih room u mem rest follows.ends) closes
      have outer := parseTerms_single "or".toList .or inner
        (by rw [closes.consumeKeyword connects_or.closed connects_or.some])
      rw [closes.skipWs] at outer
      rw [List.append_assoc]
      exact outer
  | @or t ts some _ ih =>
      refine .of_whole rfl fun n rest room closes => ?_
      have shown : writePolicyExprDisplay false (.or (t :: ts)) =
          writePolicyExprDisplay true t ++ printedMore "or".toList ts :=
        writeTermsDisplay_cons "or".toList t ts
      rw [shown] at room ⊢
      rw [List.append_assoc, PolicyExprAst.bare, ← collect_bare .or some]
      exact parseTerms_printed connects_or (parseAnd_space (parseUnary_space n))
        (fun u mem => (reads_terms ih room u mem).parseAnd) closes
  | @not inner _ ih =>
      refine .of_unary rfl fun n rest room ends => ?_
      have length : (writePolicyExprDisplay true inner).length + 4 < n := by
        have shown := congrArg List.length (not_shown true [] inner)
        simp only [List.append_nil, List.length_append, List.length_cons] at shown
        have kw : "not".toList.length = 3 := rfl
        omega
      obtain ⟨n, rfl⟩ : ∃ m, n = m + 1 := ⟨n - 1, by omega⟩
      rw [not_shown, parseUnary_not (by simp [Ends]), parseUnary_space,
        ih.unary n rest (by omega) ends]
      rfl

end ReadsBack

/-! ### Printing and parsing -/

section RoundTrip

variable {t : PolicyExprAst}

/-- A printed tree is read to its end, as the tree without arguments. -/
theorem parsePolicyExpr_display (wellFormed : t.WellFormed) :
    parsePolicyExpr (policyExprDisplayName t) = .ok t.bare := by
  have whole := (readsBack wellFormed).whole ((policyExprDisplayName t).length + 1) []
    (Nat.lt_succ_self _) (by simp [Closes])
  rw [List.append_nil] at whole
  have read : parseOr (parseUnary ((policyExprDisplayName t).length + 1))
      (policyExprDisplayName t) = .ok (t.bare, []) := whole
  rw [parsePolicyExpr, read]
  rfl

mutual

theorem bare_eq_self_iff : (t : PolicyExprAst) → (t.bare = t ↔ ∀ atom ∈ t.atoms, atom.args = none)
  | .authenticated => by simp [PolicyExprAst.bare, PolicyExprAst.atoms]
  | .hasRole _ => by simp [PolicyExprAst.bare, PolicyExprAst.atoms]
  | .hasPermission _ => by simp [PolicyExprAst.bare, PolicyExprAst.atoms]
  | .atom ⟨ns, name, args⟩ => by
      simp only [PolicyExprAst.bare, PolicyExprAst.atoms, List.forall_mem_singleton,
        PolicyExprAst.atom.injEq, PolicyAtomAst.mk.injEq, true_and]
      exact eq_comm
  | .and terms => by
      rw [PolicyExprAst.bare, PolicyExprAst.atoms, PolicyExprAst.and.injEq]
      exact bareTerms_eq_self_iff terms
  | .or terms => by
      rw [PolicyExprAst.bare, PolicyExprAst.atoms, PolicyExprAst.or.injEq]
      exact bareTerms_eq_self_iff terms
  | .not inner => by
      rw [PolicyExprAst.bare, PolicyExprAst.atoms, PolicyExprAst.not.injEq]
      exact bare_eq_self_iff inner

theorem bareTerms_eq_self_iff :
    (terms : List PolicyExprAst) →
      (bareTerms terms = terms ↔ ∀ atom ∈ atomsOf terms, atom.args = none)
  | [] => by simp [bareTerms, atomsOf]
  | term :: terms => by
      rw [bareTerms, atomsOf, List.cons.injEq, List.forall_mem_append]
      exact and_congr (bare_eq_self_iff term) (bareTerms_eq_self_iff terms)

end

/-- A parsed tree is printed faithfully as long as none of its atoms has arguments. -/
theorem display_roundTrip_iff {s : List Char} (parsed : parsePolicyExpr s = .ok t) :
    parsePolicyExpr (policyExprDisplayName t) = .ok t ↔ ∀ atom ∈ t.atoms, atom.args = none := by
  rw [parsePolicyExpr_display (wellFormed_of_parsePolicyExpr parsed), Except.ok.injEq]
  exact bare_eq_self_iff t

def guestTree : PolicyExprAst :=
  .and [.authenticated,
    .not (.or [.hasRole "guest".toList, .atom ⟨"scope".toList, "own".toList, none⟩])]

theorem guestTree_roundTrip :
    parsePolicyExpr (policyExprDisplayName guestTree) = .ok guestTree ↔
      ∀ atom ∈ guestTree.atoms, atom.args = none :=
  display_roundTrip_iff
    (s := "authenticated and not (has_role guest or @scope.own)".toList) rfl

def stepUpTree : PolicyExprAst :=
  .atom ⟨"mfa".toList, "required".toList, some "within:15m".toList⟩

/-- The time limit of a step-up atom is not printed. -/
theorem stepUpTree_loses_arguments :
    parsePolicyExpr "@mfa.required(within:15m)".toList = .ok stepUpTree ∧
      parsePolicyExpr (policyExprDisplayName stepUpTree) ≠ .ok stepUpTree := by
  refine ⟨rfl, fun same => ?_⟩
  have read : parsePolicyExpr (policyExprDisplayName stepUpTree) =
      .ok (.atom ⟨"mfa".toList, "required".toList, none⟩) := rfl
  rw [read, stepUpTree, Except.ok.injEq, PolicyExprAst.atom.injEq, PolicyAtomAst.mk.injEq] at same
  cases same.2.2

end RoundTrip

/-! ### The policies of the code generator -/

mutual

/-- `lower_policy_expr`. The expressions that code is generated from are kept without the arguments
of atoms, which nothing is generated from. -/
def lowerPolicyExpr : PolicyExprAst → Ir.PolicyExpr
  | .authenticated => .authenticated
  | .hasRole name => .hasRole (String.ofList name)
  | .hasPermission perm => .hasPermission (String.ofList perm)
  | .atom atom => .atom ⟨String.ofList atom.ns, String.ofList atom.name⟩
  | .and terms => .and (lowerTerms terms)
  | .or terms => .or (lowerTerms terms)
  | .not inner => .not (lowerPolicyExpr inner)

def lowerTerms : List PolicyExprAst → List Ir.PolicyExpr
  | [] => []
  | term :: terms => lowerPolicyExpr term :: lowerTerms terms

end

theorem toList_inParentheses (parenthesize : Bool) (text : String) :
    (Codegen.inParentheses parenthesize text).toList = inParentheses parenthesize text.toList := by
  cases parenthesize
  · rfl
  · simp [Codegen.inParentheses, inParentheses]

mutual

/-- The generated policy is named by the printed text. -/
theorem toList_writePolicyExprDisplay (parenthesize : Bool) : (t : PolicyExprAst) →
    (Codegen.writePolicyExprDisplay parenthesize (lowerPolicyExpr t)).toList =
      writePolicyExprDisplay parenthesize t
  | .authenticated => rfl
  | .hasRole name => by
      rw [lowerPolicyExpr, Codegen.writePolicyExprDisplay]
      simp only [String.toList_append, String.toList_ofList]
      rfl
  | .hasPermission perm => by
      rw [lowerPolicyExpr, Codegen.writePolicyExprDisplay]
      simp only [String.toList_append, String.toList_ofList]
      rfl
  | .atom atom => by
      rw [lowerPolicyExpr, Codegen.writePolicyExprDisplay]
      simp only [String.toList_append, String.toList_ofList, List.append_assoc]
      rfl
  | .and terms => by
      rw [lowerPolicyExpr, Codegen.writePolicyExprDisplay, toList_inParentheses,
        toList_writeTermsDisplay " and " terms]
      rfl
  | .or terms => by
      rw [lowerPolicyExpr, Codegen.writePolicyExprDisplay, toList_inParentheses,
        toList_writeTermsDisplay " or " terms]
      rfl
  | .not inner => by
      rw [lowerPolicyExpr, Codegen.writePolicyExprDisplay, String.toList_append,
        toList_writePolicyExprDisplay true inner]
      rfl

theorem toList_writeTermsDisplay (connective : String) : (terms : List PolicyExprAst) →
    (Codegen.writeTermsDisplay connective (lowerTerms terms)).toList =
      writeTermsDisplay connective.toList terms
  | [] => rfl
  | [term] => toList_writePolicyExprDisplay true term
  | term :: next :: terms => by
      have rest := toList_writeTermsDisplay connective (next :: terms)
      rw [lowerTerms] at rest
      rw [lowerTerms, lowerTerms, Codegen.writeTermsDisplay, String.toList_append,
        String.toList_append, toList_writePolicyExprDisplay true term, rest]
      · rfl
      · simp

end

end Lazuli.Syntax
