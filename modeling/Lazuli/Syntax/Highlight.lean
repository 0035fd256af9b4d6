import Lazuli.General.Text
import Lazuli.General.Utf8
import Mathlib

/-!
Semantic tokens (`parser/highlight.rs` and `parser/common.rs` in `lazuli_syntax`,
`semantic_tokens.rs` in `lazuli_lsp`).

Each line is cut into words, strings and a comment, and some of them are classified. The tokens
stand one behind the other in their line (`Cut`), and the comment starts where the parsers cut it
off. They are counted in bytes, while the protocol counts UTF-16 units, so what is sent is read
back as it was meant exactly if bytes and units agree for every token.
-/

namespace Lazuli.Syntax.Highlight

open Lazuli.General Utf8

abbrev Text := List Char

/-- The token types of the registry, in its order. -/
inductive SemanticToken where
  | keyword
  | typeName
  | function
  | namespaceName
  | decorator
  | modifier
  | enumMember
  | string
  | comment
  | operator
  | variableName
  | property
  deriving DecidableEq

/-- A token in its line; start and length are counted in bytes. -/
structure ClassifiedToken where
  line : Nat
  startCol : Nat
  len : Nat
  token : SemanticToken
  deriving DecidableEq

/-! ### The classifier -/

def isBlank (c : Char) : Bool := c = ' ' || c = '\t'

def isQuote (c : Char) : Bool := c = '"' || c = '\''

/-- Where a word ends. -/
def isBoundary (c : Char) : Bool :=
  isBlank c || isQuote c || c ∈ ['#', '(', ')', '[', ']', '{', '}', ',']

/-- The rest of a string with its closing quote, or up to the end of the line, and what is left.
A backslash takes the character behind it along. -/
def scanString (quote : Char) : Text → Text × Text
  | [] => ([], [])
  | [c] => ([c], [])
  | c :: d :: rest =>
      if c = '\\' then
        let (inner, behind) := scanString quote rest
        (c :: d :: inner, behind)
      else if c = quote then ([c], d :: rest)
      else
        let (inner, behind) := scanString quote (d :: rest)
        (c :: inner, behind)

theorem scanString_append (quote : Char) (s : Text) :
    (scanString quote s).1 ++ (scanString quote s).2 = s := by
  fun_induction scanString quote s with
  | case1 => rfl
  | case2 => rfl
  | case3 d rest inner behind same ih =>
      rw [same] at ih
      rw [← ih]
      rfl
  | case4 => rfl
  | case5 c d rest _ _ inner behind same ih =>
      rw [same] at ih
      rw [← ih]
      rfl

def isIdentUpper : Text → Bool
  | [] => false
  | first :: rest => first.isUpper && rest.all fun c => c.isAlphanum || c = '_'

section Classify

variable (find : Text → Option SemanticToken)

/-- The tokens of a word that begins with an at sign. -/
def classifyAtToken (line start : Nat) (token : Text) : List ClassifiedToken :=
  if "@doctor.allow".toList <+: token then
    [⟨line, start, size "@doctor.allow".toList, .decorator⟩]
  else
    let head := token.takeWhile (· ≠ '.')
    if find head = some .decorator then
      ⟨line, start, size head, .decorator⟩ ::
        match token.dropWhile (· ≠ '.') with
        | _ :: suffix =>
            if isIdentUpper suffix then [⟨line, start + size head + 1, size suffix, .typeName⟩]
            else []
        | [] => []
    else []

def classifyBareWord (line start : Nat) (word : Text) (isHead : Bool) : List ClassifiedToken :=
  if isIdentUpper word then [⟨line, start, size word, .typeName⟩]
  else if isHead && find word = some .keyword then [⟨line, start, size word, .keyword⟩]
  else []

/-- The scan of a line from a byte on; `seen` says that a word has begun before. -/
def classifyFrom (line i : Nat) (seen : Bool) : Text → List ClassifiedToken
  | [] => []
  | c :: rest =>
      if isBlank c then classifyFrom line (i + 1) seen rest
      else if c = '#' then [⟨line, i, size (c :: rest), .comment⟩]
      else if isQuote c then
        let scanned := scanString c rest
        ⟨line, i, 1 + size scanned.1, .string⟩ ::
          classifyFrom line (i + (1 + size scanned.1)) seen scanned.2
      else if isBoundary c then classifyFrom line (i + 1) true rest
      else
        let word := c :: rest.takeWhile fun c => !isBoundary c
        let tokens :=
          if c = '@' then classifyAtToken find line i word
          else classifyBareWord find line i word (!seen)
        tokens ++ classifyFrom line (i + size word) true (rest.dropWhile fun c => !isBoundary c)
termination_by s => s.length
decreasing_by
  · exact Nat.lt_succ_self _
  · have whole := congrArg List.length (scanString_append c rest)
    rw [List.length_append] at whole
    simp only [List.length_cons]
    omega
  · exact Nat.lt_succ_self _
  · exact Nat.lt_succ_of_le (List.length_dropWhile_le _ _)

def classifyLine (line : Nat) (text : Text) : List ClassifiedToken :=
  classifyFrom find line 0 false text

def classifyTokens (source : Text) : List ClassifiedToken :=
  (lines source).zipIdx.flatMap fun e => classifyLine find e.2 e.1

end Classify

/-- What is in front of the comment of a line, from inside a string or from outside. -/
def commentFrom : Option Char → Text → Option Text
  | _, [] => none
  | none, c :: rest =>
      if isQuote c then (commentFrom (some c) rest).map fun front => c :: front
      else if c = '#' then some []
      else (commentFrom none rest).map fun front => c :: front
  | some _, [_] => none
  | some quote, c :: d :: rest =>
      if c = '\\' then (commentFrom (some quote) rest).map fun front => c :: d :: front
      else if c = quote then (commentFrom none (d :: rest)).map fun front => c :: front
      else (commentFrom (some quote) (d :: rest)).map fun front => c :: front

def stripInlineComment (line : Text) : Text :=
  match commentFrom none line with
  | some front => front.rdropWhile Text.isWhitespace
  | none => line

/-! ### The encoder -/

/-- A token of the protocol. -/
structure LspSemanticToken where
  deltaLine : Nat
  deltaStart : Nat
  length : Nat
  tokenType : Nat
  tokenModifiersBitset : Nat
  deriving DecidableEq

/-- A cast to 32 bits. -/
def u32 (n : Nat) : Nat := n % 2 ^ 32

/-- A subtraction that must not underflow. -/
def checkedSub (a b : Nat) : Option Nat := if b ≤ a then some (a - b) else none

def tokenTypeIndex : SemanticToken → Nat
  | .keyword => 0
  | .typeName => 1
  | .function => 2
  | .namespaceName => 3
  | .decorator => 4
  | .modifier => 5
  | .enumMember => 6
  | .string => 7
  | .comment => 8
  | .operator => 9
  | .variableName => 10
  | .property => 11

/-- A column counts from the token before, on the same line. -/
def columnDelta (deltaLine start prevStart : Nat) : Option Nat :=
  if deltaLine = 0 then checkedSub start prevStart else some start

def encodeFrom (prevLine prevStart : Nat) : List ClassifiedToken → Option (List LspSemanticToken)
  | [] => some []
  | tok :: rest => do
      let line := u32 tok.line
      let start := u32 tok.startCol
      let deltaLine ← checkedSub line prevLine
      let deltaStart ← columnDelta deltaLine start prevStart
      let out ← encodeFrom line start rest
      some (⟨deltaLine, deltaStart, u32 tok.len, tokenTypeIndex tok.token, 0⟩ :: out)

/-- Nothing comes out when a subtraction underflows. -/
def encodeDelta (tokens : List ClassifiedToken) : Option (List LspSemanticToken) :=
  encodeFrom 0 0 tokens

/-- A range of a line, in UTF-16 units. -/
structure Place where
  line : Nat
  character : Nat
  length : Nat
  deriving DecidableEq

/-- How the protocol reads the deltas. -/
def decodeFrom (prevLine prevStart : Nat) : List LspSemanticToken → List Place
  | [] => []
  | tok :: rest =>
      let line := prevLine + tok.deltaLine
      let start := if tok.deltaLine = 0 then prevStart + tok.deltaStart else tok.deltaStart
      ⟨line, start, tok.length⟩ :: decodeFrom line start rest

/-! ### What tokens are asked for -/

def lineText (source : Text) (line : Nat) : Text := ((lines source)[line]?).getD []

/-- Where a token stands, in UTF-16 units. -/
def place (source : Text) (t : ClassifiedToken) : Place :=
  let start := width (before (lineText source t.line) t.startCol)
  ⟨t.line, start, width (before (lineText source t.line) (t.startCol + t.len)) - start⟩

structure WellFormed (source : Text) (tokens : List ClassifiedToken) : Prop where
  ordered : tokens.Pairwise fun a b =>
    a.line < b.line ∨ a.line = b.line ∧ a.startCol + a.len ≤ b.startCol
  inside : ∀ t ∈ tokens, ∃ front word behind,
    (lines source)[t.line]? = some (front ++ (word ++ behind)) ∧ word ≠ [] ∧
      t.startCol = size front ∧ t.len = size word

/-- A comment starts where the parsers cut the line, and nowhere else. -/
def CommentsAgree (source : Text) (tokens : List ClassifiedToken) : Prop :=
  ∀ n text, (lines source)[n]? = some text → ∀ start,
    (∃ t ∈ tokens, t.line = n ∧ t.startCol = start ∧ t.token = .comment) ↔
      ∃ front, commentFrom none text = some front ∧ start = size front

/-- What is encoded is read back. -/
def RoundTrip (source : Text) (tokens : List ClassifiedToken) : Prop :=
  ∃ encoded, encodeDelta tokens = some encoded ∧ decodeFrom 0 0 encoded = tokens.map (place source)

/-- For this token, bytes and UTF-16 units are the same numbers, of 32 bits. -/
def Plain (source : Text) (t : ClassifiedToken) : Prop :=
  u32 t.line = t.line ∧ u32 t.startCol = (place source t).character ∧
    u32 t.len = (place source t).length

/-! ### Tokens cut from a line -/

/-- Tokens that are pieces of a text, one behind the other; the text begins at byte `i` of line
`n`. -/
inductive Cut (n : Nat) : Nat → Text → List ClassifiedToken → Prop
  | done {i s} : Cut n i s []
  | token {i gap word behind kind tokens} : word ≠ [] →
      Cut n (i + size gap + size word) behind tokens →
      Cut n i (gap ++ (word ++ behind)) (⟨n, i + size gap, size word, kind⟩ :: tokens)

namespace Cut

variable {n i : Nat} {s gap word behind : Text} {tokens : List ClassifiedToken}
  {kind : SemanticToken}

theorem skip (gap : Text) (h : Cut n (i + size gap) s tokens) : Cut n i (gap ++ s) tokens := by
  cases h with
  | done => exact .done
  | @token _ gap' word behind kind tokens hne htail =>
      rw [Nat.add_assoc i, ← size_append] at htail
      have cut : Cut n i ((gap ++ gap') ++ (word ++ behind))
          (⟨n, i + size (gap ++ gap'), size word, kind⟩ :: tokens) := .token hne htail
      rwa [size_append, ← Nat.add_assoc, List.append_assoc] at cut

theorem skip_one {c : Char} (hc : c.utf8Size = 1) (h : Cut n (i + 1) s tokens) :
    Cut n i (c :: s) tokens := by
  have hsize : size [c] = 1 := hc
  rw [← hsize] at h
  exact h.skip [c]

theorem here (kind : SemanticToken) (hne : word ≠ [])
    (h : Cut n (i + size word) behind tokens) :
    Cut n i (word ++ behind) (⟨n, i, size word, kind⟩ :: tokens) := by
  have cut : Cut n i ([] ++ (word ++ behind)) (⟨n, i + size [], size word, kind⟩ :: tokens) :=
    .token hne h
  exact cut

theorem inside (h : Cut n i s tokens) : ∀ t ∈ tokens, ∃ front word behind,
    s = front ++ (word ++ behind) ∧ word ≠ [] ∧ t.line = n ∧ t.startCol = i + size front ∧
      t.len = size word := by
  induction h with
  | done => simp
  | @token i gap word behind kind tokens hne _ ih =>
      rintro t (- | ⟨-, ht⟩)
      · exact ⟨gap, word, behind, rfl, hne, rfl, rfl, rfl⟩
      · obtain ⟨front, word', behind', rfl, hne', hline, hstart, hlen⟩ := ih t ht
        refine ⟨gap ++ (word ++ front), word', behind', by simp, hne', hline, ?_, hlen⟩
        rw [hstart, size_append, size_append, ← Nat.add_assoc, ← Nat.add_assoc]

theorem ordered (h : Cut n i s tokens) :
    tokens.Pairwise fun a b => a.line = b.line ∧ a.startCol + a.len ≤ b.startCol := by
  induction h with
  | done => exact List.Pairwise.nil
  | token _ htail ih =>
      refine List.pairwise_cons.mpr ⟨fun t ht => ?_, ih⟩
      obtain ⟨front, -, -, -, -, hline, hstart, -⟩ := htail.inside t ht
      exact ⟨hline.symm, by rw [hstart]; exact Nat.le_add_right _ _⟩

end Cut

section Classified

variable {find : Text → Option SemanticToken} {n i : Nat} {seen : Bool}
  {s word behind more : Text} {tokens : List ClassifiedToken} {c : Char}

theorem classifyAtToken_cut (h : Cut n (i + size ('@' :: more)) behind tokens) :
    Cut n i ('@' :: more ++ behind) (classifyAtToken find n i ('@' :: more) ++ tokens) := by
  rw [classifyAtToken]
  split
  · next hallow =>
      obtain ⟨args, hword⟩ := hallow
      rw [← hword, size_append, ← Nat.add_assoc] at h
      rw [← hword, List.append_assoc]
      exact .here _ (by decide) (.skip args h)
  · dsimp only
    split
    · have hword : ('@' :: more).takeWhile (· ≠ '.') ++ ('@' :: more).dropWhile (· ≠ '.') =
          '@' :: more := List.takeWhile_append_dropWhile
      have hne : ('@' :: more).takeWhile (· ≠ '.') ≠ [] := by
        rw [List.takeWhile_cons_of_pos (by decide)]
        exact List.cons_ne_nil _ _
      have hdot : ∀ d ∈ (('@' :: more).dropWhile (· ≠ '.')).head?, d = '.' := by
        intro d hd
        have hnot := List.head?_dropWhile_not (· ≠ '.') ('@' :: more)
        rw [Option.mem_def.mp hd] at hnot
        simpa using hnot
      generalize ('@' :: more).takeWhile (· ≠ '.') = head at hword hne
      generalize ('@' :: more).dropWhile (· ≠ '.') = tail at hword hdot
      rw [← hword, size_append, ← Nat.add_assoc] at h
      rw [← hword, List.append_assoc]
      refine .here _ hne ?_
      cases tail with
      | nil => exact h
      | cons dot suffix =>
          obtain rfl : dot = '.' := hdot dot rfl
          have hsize : size ('.' :: suffix) = 1 + size suffix := rfl
          rw [hsize, ← Nat.add_assoc] at h
          dsimp only
          split
          · next hupper =>
              exact .skip_one rfl (.here _ (by rintro rfl; cases hupper) h)
          · exact .skip_one rfl (.skip suffix h)
    · exact .skip _ h

theorem classifyBareWord_cut (hne : word ≠ []) {isHead : Bool}
    (h : Cut n (i + size word) behind tokens) :
    Cut n i (word ++ behind) (classifyBareWord find n i word isHead ++ tokens) := by
  rw [classifyBareWord]
  split
  · exact .here _ hne h
  · split
    · exact .here _ hne h
    · exact .skip _ h

theorem utf8Size_of_isBlank (h : isBlank c = true) : c.utf8Size = 1 := by
  simp only [isBlank, Bool.or_eq_true, decide_eq_true_eq] at h
  rcases h with rfl | rfl <;> rfl

theorem utf8Size_of_isQuote (h : isQuote c = true) : c.utf8Size = 1 := by
  simp only [isQuote, Bool.or_eq_true, decide_eq_true_eq] at h
  rcases h with rfl | rfl <;> rfl

theorem utf8Size_of_isBoundary (h : isBoundary c = true) : c.utf8Size = 1 := by
  simp only [isBoundary, Bool.or_eq_true, decide_eq_true_eq] at h
  rcases h with (h | h) | h
  · exact utf8Size_of_isBlank h
  · exact utf8Size_of_isQuote h
  · simp only [List.mem_cons, List.not_mem_nil, or_false] at h
    rcases h with rfl | rfl | rfl | rfl | rfl | rfl | rfl | rfl <;> rfl

/-- The scan of a line cuts tokens from it. -/
theorem classifyFrom_cut : Cut n i s (classifyFrom find n i seen s) := by
  fun_induction classifyFrom find n i seen s with
  | case1 => exact .done
  | case2 i seen c rest hblank ih => exact .skip_one (utf8Size_of_isBlank hblank) ih
  | case3 i seen rest =>
      have cut : Cut n i ('#' :: rest ++ []) [⟨n, i, size ('#' :: rest), .comment⟩] :=
        .here _ (List.cons_ne_nil _ _) .done
      rwa [List.append_nil] at cut
  | case4 i seen c rest _ _ hquote scanned ih =>
      have hsize : size (c :: scanned.1) = 1 + size scanned.1 := by
        rw [size_cons, utf8Size_of_isQuote hquote]
      have whole : c :: scanned.1 ++ scanned.2 = c :: rest :=
        congrArg (c :: ·) (scanString_append c rest)
      rw [← hsize] at ih ⊢
      rw [← whole]
      exact .here _ (List.cons_ne_nil _ _) ih
  | case5 i seen c rest _ _ _ hboundary ih =>
      exact .skip_one (utf8Size_of_isBoundary hboundary) ih
  | case6 i seen c rest _ _ _ _ word tokens ih =>
      have whole : word ++ (rest.dropWhile fun c => !isBoundary c) = c :: rest :=
        congrArg (c :: ·) List.takeWhile_append_dropWhile
      rw [← whole]
      by_cases hat : c = '@'
      · subst hat
        exact classifyAtToken_cut ih
      · have plain : tokens = classifyBareWord find n i word (!seen) := if_neg hat
        rw [plain]
        exact classifyBareWord_cut (List.cons_ne_nil _ _) ih

/-! ### Where comments start -/

def commentStarts (tokens : List ClassifiedToken) : List Nat :=
  (tokens.filter fun t => t.token = .comment).map ClassifiedToken.startCol

theorem commentStarts_append (a b : List ClassifiedToken) :
    commentStarts (a ++ b) = commentStarts a ++ commentStarts b := by
  rw [commentStarts, List.filter_append, List.map_append]
  rfl

theorem commentStarts_classifyAtToken : commentStarts (classifyAtToken find n i word) = [] := by
  rw [classifyAtToken]
  split
  · rfl
  · dsimp only
    split
    · split
      · split <;> rfl
      · rfl
    · rfl

theorem commentStarts_classifyBareWord {isHead : Bool} :
    commentStarts (classifyBareWord find n i word isHead) = [] := by
  rw [classifyBareWord]
  split
  · rfl
  · split <;> rfl

/-- Behind a string, both scans are at the same place. -/
theorem commentFrom_scanString (quote : Char) (s : Text) :
    commentFrom (some quote) s = (commentFrom none (scanString quote s).2).map fun front =>
      (scanString quote s).1 ++ front := by
  fun_induction scanString quote s with
  | case1 => rfl
  | case2 => rfl
  | case3 d rest inner behind same ih =>
      rw [commentFrom, if_pos rfl, ih, same, Option.map_map]
      rfl
  | case4 d rest hslash =>
      conv_lhs => rw [commentFrom, if_neg hslash, if_pos rfl]
      rfl
  | case5 c d rest hslash hquote inner behind same ih =>
      rw [commentFrom, if_neg hslash, if_neg hquote, ih, same, Option.map_map]
      rfl

theorem commentFrom_word (hword : ∀ c ∈ word, isBoundary c = false) :
    commentFrom none (word ++ s) = (commentFrom none s).map fun front => word ++ front := by
  induction word with
  | nil => simp
  | cons c word ih =>
      have hc : isBoundary c = false := hword c List.mem_cons_self
      have hquote : ¬ isQuote c = true := fun h => by simp [isBoundary, h] at hc
      have hhash : c ≠ '#' := fun h => by simp [isBoundary, h] at hc
      rw [List.cons_append, commentFrom, if_neg hquote, if_neg hhash,
        ih fun d hd => hword d (List.mem_cons_of_mem _ hd), Option.map_map]
      rfl

theorem commentFrom_cons (hquote : ¬ isQuote c = true) (hhash : c ≠ '#') :
    commentFrom none (c :: s) = (commentFrom none s).map fun front => c :: front := by
  rw [commentFrom, if_neg hquote, if_neg hhash]

theorem starts_behind {gap : Text} {starts : List Nat}
    (hcut : commentFrom none (gap ++ s) = (commentFrom none s).map fun front => gap ++ front)
    (h : starts = ((commentFrom none s).map fun front => i + size gap + size front).toList) :
    starts = ((commentFrom none (gap ++ s)).map fun front => i + size front).toList := by
  rw [hcut, Option.map_map, h]
  refine congrArg (fun f => ((commentFrom none s).map f).toList) (funext fun front => ?_)
  rw [Function.comp_apply, size_append, Nat.add_assoc]

theorem starts_behind_one {starts : List Nat} (hc : c.utf8Size = 1)
    (hcut : commentFrom none (c :: s) = (commentFrom none s).map fun front => c :: front)
    (h : starts = ((commentFrom none s).map fun front => i + 1 + size front).toList) :
    starts = ((commentFrom none (c :: s)).map fun front => i + size front).toList := by
  have hsize : size [c] = 1 := hc
  rw [← hsize] at h
  have cut : commentFrom none ([c] ++ s) = (commentFrom none s).map fun front => [c] ++ front :=
    hcut
  exact starts_behind cut h

/-- The one comment of a line is what the parsers cut off. -/
theorem commentStarts_classifyFrom : commentStarts (classifyFrom find n i seen s) =
    ((commentFrom none s).map fun front => i + size front).toList := by
  fun_induction classifyFrom find n i seen s with
  | case1 => rfl
  | case2 i seen c rest hblank ih =>
      have hquote : ¬ isQuote c = true := fun h => by
        simp only [isBlank, isQuote, Bool.or_eq_true, decide_eq_true_eq] at hblank h
        rcases hblank with rfl | rfl <;> simp at h
      have hhash : c ≠ '#' := by rintro rfl; cases hblank
      exact starts_behind_one (utf8Size_of_isBlank hblank) (commentFrom_cons hquote hhash) ih
  | case3 i seen rest => rfl
  | case4 i seen c rest _ _ hquote scanned ih =>
      have hsize : size (c :: scanned.1) = 1 + size scanned.1 := by
        rw [size_cons, utf8Size_of_isQuote hquote]
      have whole : c :: scanned.1 ++ scanned.2 = c :: rest :=
        congrArg (c :: ·) (scanString_append c rest)
      have hcut : commentFrom none (c :: scanned.1 ++ scanned.2) =
          (commentFrom none scanned.2).map fun front => c :: scanned.1 ++ front := by
        rw [whole, commentFrom, if_pos hquote, commentFrom_scanString, Option.map_map]
        rfl
      rw [← hsize] at ih ⊢
      rw [← whole]
      exact starts_behind hcut ih
  | case5 i seen c rest _ hhash hquote hboundary ih =>
      exact starts_behind_one (utf8Size_of_isBoundary hboundary) (commentFrom_cons hquote hhash) ih
  | case6 i seen c rest _ _ _ hboundary word tokens ih =>
      have whole : word ++ (rest.dropWhile fun c => !isBoundary c) = c :: rest :=
        congrArg (c :: ·) List.takeWhile_append_dropWhile
      have hword : ∀ d ∈ word, isBoundary d = false := by
        intro d hd
        rcases List.mem_cons.mp hd with rfl | hd
        · simpa using hboundary
        · simpa using List.mem_takeWhile_imp hd
      have none : commentStarts tokens = [] := by
        by_cases hat : c = '@'
        · rw [show tokens = _ from if_pos hat]
          exact commentStarts_classifyAtToken
        · rw [show tokens = _ from if_neg hat]
          exact commentStarts_classifyBareWord
      rw [← whole, commentStarts_append, none, List.nil_append]
      exact starts_behind (commentFrom_word hword) ih

end Classified

/-! ### The tokens of a text -/

section Source

variable (find : Text → Option SemanticToken) (source : Text)

theorem mem_classifyTokens {t : ClassifiedToken} : t ∈ classifyTokens find source ↔
    ∃ n text, (lines source)[n]? = some text ∧ t ∈ classifyLine find n text := by
  rw [classifyTokens, List.mem_flatMap]
  constructor
  · rintro ⟨⟨text, n⟩, hline, ht⟩
    exact ⟨n, text, List.mk_mem_zipIdx_iff_getElem?.mp hline, ht⟩
  · rintro ⟨n, text, hline, ht⟩
    exact ⟨(text, n), List.mk_mem_zipIdx_iff_getElem?.mpr hline, ht⟩

theorem line_of_mem {n : Nat} {text : Text} {t : ClassifiedToken}
    (h : t ∈ classifyLine find n text) : t.line = n := by
  obtain ⟨-, -, -, -, -, hline, -⟩ := classifyFrom_cut.inside t h
  exact hline

/-- The tokens are pieces of their lines, one behind the other. -/
theorem wellFormed_classifyTokens : WellFormed source (classifyTokens find source) where
  ordered := by
    rw [classifyTokens, List.pairwise_flatMap]
    refine ⟨fun e _ => classifyFrom_cut.ordered.imp .inr, ?_⟩
    have rising : (lines source).zipIdx.Pairwise fun e e' => e.2 < e'.2 := by
      rw [← List.pairwise_map, List.zipIdx_map_snd]
      exact List.pairwise_lt_range'
    refine rising.imp fun hlt t ht t' ht' => .inl ?_
    rwa [line_of_mem find ht, line_of_mem find ht']
  inside := by
    intro t ht
    obtain ⟨n, text, hline, ht⟩ := (mem_classifyTokens find source).mp ht
    obtain ⟨front, word, behind, rfl, hne, rfl, hstart, hlen⟩ := classifyFrom_cut.inside t ht
    exact ⟨front, word, behind, hline, hne, by rw [hstart, Nat.zero_add], hlen⟩

theorem commentsAgree_classifyTokens : CommentsAgree source (classifyTokens find source) := by
  intro n text hline start
  have starts : start ∈ commentStarts (classifyLine find n text) ↔
      ∃ front, commentFrom none text = some front ∧ start = size front := by
    rw [classifyLine, commentStarts_classifyFrom]
    simp [eq_comm]
  rw [← starts, commentStarts]
  simp only [List.mem_map, List.mem_filter, decide_eq_true_eq]
  constructor
  · rintro ⟨t, ht, rfl, hstart, hcomment⟩
    obtain ⟨n', text', hline', ht⟩ := (mem_classifyTokens find source).mp ht
    obtain rfl := line_of_mem find ht
    obtain rfl := Option.some_inj.mp (hline.symm.trans hline')
    exact ⟨t, ⟨ht, hcomment⟩, hstart⟩
  · rintro ⟨t, ⟨ht, hcomment⟩, hstart⟩
    exact ⟨t, (mem_classifyTokens find source).mpr ⟨n, text, hline, ht⟩, line_of_mem find ht,
      hstart, hcomment⟩

end Source

/-! ### The deltas -/

section Deltas

variable {source : Text} {tokens : List ClassifiedToken} {prevLine prevStart a b d : Nat}

theorem checkedSub_eq_some_iff : checkedSub a b = some d ↔ b + d = a := by
  rw [checkedSub]
  split
  · rw [Option.some_inj]
    omega
  · simp only [reduceCtorEq, false_iff]
    omega

/-- What is encoded is read back as numbers of 32 bits. -/
theorem decode_encode {out : List LspSemanticToken}
    (h : encodeFrom prevLine prevStart tokens = some out) :
    decodeFrom prevLine prevStart out =
      tokens.map fun t => ⟨u32 t.line, u32 t.startCol, u32 t.len⟩ := by
  induction tokens generalizing prevLine prevStart out with
  | nil =>
      obtain rfl := Option.some_inj.mp h
      rfl
  | cons t tokens ih =>
      obtain ⟨deltaLine, hline, h⟩ := Option.bind_eq_some_iff.mp h
      obtain ⟨deltaStart, hstart, h⟩ := Option.bind_eq_some_iff.mp h
      obtain ⟨rest, hrest, h⟩ := Option.bind_eq_some_iff.mp h
      obtain rfl := Option.some_inj.mp h
      have line := checkedSub_eq_some_iff.mp hline
      have start : (if deltaLine = 0 then prevStart + deltaStart else deltaStart) =
          u32 t.startCol := by
        rw [columnDelta] at hstart
        split at hstart
        · next same => rw [if_pos same, checkedSub_eq_some_iff.mp hstart]
        · next other => rw [if_neg other, Option.some_inj.mp hstart]
      rw [decodeFrom, List.map_cons, line, start, ih hrest]

/-- Positions that do not go back have deltas. -/
theorem exists_encode
    (hfirst : ∀ t ∈ tokens, prevLine < u32 t.line ∨ prevLine = u32 t.line ∧
      prevStart ≤ u32 t.startCol)
    (hordered : tokens.Pairwise fun a b =>
      u32 a.line < u32 b.line ∨ u32 a.line = u32 b.line ∧ u32 a.startCol ≤ u32 b.startCol) :
    ∃ out, encodeFrom prevLine prevStart tokens = some out := by
  induction tokens generalizing prevLine prevStart with
  | nil => exact ⟨[], rfl⟩
  | cons t tokens ih =>
      obtain ⟨hnext, hrest⟩ := List.pairwise_cons.mp hordered
      obtain ⟨out, hout⟩ := ih hnext hrest
      have hthis := hfirst t List.mem_cons_self
      have line : checkedSub (u32 t.line) prevLine = some (u32 t.line - prevLine) :=
        checkedSub_eq_some_iff.mpr (by omega)
      obtain ⟨deltaStart, start⟩ : ∃ deltaStart, columnDelta (u32 t.line - prevLine)
          (u32 t.startCol) prevStart = some deltaStart := by
        rw [columnDelta]
        split
        · exact ⟨u32 t.startCol - prevStart, checkedSub_eq_some_iff.mpr (by omega)⟩
        · exact ⟨_, rfl⟩
      rw [encodeFrom]
      simp only [line, start, hout, Option.bind_eq_bind, Option.bind_some]
      exact ⟨_, rfl⟩

/-- What is read back are the places of the tokens exactly if they are plain. -/
theorem roundTrip_iff (hformed : WellFormed source tokens) :
    RoundTrip source tokens ↔ ∀ t ∈ tokens, Plain source t := by
  have same : ∀ t, (⟨u32 t.line, u32 t.startCol, u32 t.len⟩ : Place) = place source t ↔
      Plain source t := fun t => by rw [Plain, Place.mk.injEq]; rfl
  constructor
  · rintro ⟨out, hout, hplaces⟩ t ht
    rw [decode_encode hout] at hplaces
    exact (same t).mp (List.map_inj_left.mp hplaces t ht)
  · intro hplain
    have ordered : tokens.Pairwise fun a b =>
        u32 a.line < u32 b.line ∨ u32 a.line = u32 b.line ∧ u32 a.startCol ≤ u32 b.startCol := by
      refine hformed.ordered.imp_of_mem fun {a b} ha hb hab => ?_
      obtain ⟨hline, hstart, -⟩ := hplain a ha
      obtain ⟨hline', hstart', -⟩ := hplain b hb
      rw [hline, hline', hstart, hstart']
      refine hab.imp_right fun ⟨hsame, hle⟩ => ⟨hsame, ?_⟩
      rw [place, place, hsame]
      exact width_le_of_prefix (before_mono _ (Nat.le_of_add_right_le hle))
    have first : ∀ t ∈ tokens, 0 < u32 t.line ∨ 0 = u32 t.line ∧ 0 ≤ u32 t.startCol :=
      fun t _ => by omega
    obtain ⟨out, hout⟩ := exists_encode first ordered
    refine ⟨out, hout, ?_⟩
    rw [decode_encode hout]
    exact List.map_congr_left fun t ht => (same t).mpr (hplain t ht)

/-- In a text of less than 4 GiB, the tokens that are not plain are those with a character outside
of ASCII in them or in front of them. -/
theorem plain_iff {t : ClassifiedToken} {front word behind : Text} (hshort : size source < 2 ^ 32)
    (hline : (lines source)[t.line]? = some (front ++ (word ++ behind)))
    (hstart : t.startCol = size front) (hlen : t.len = size word) :
    Plain source t ↔ ∀ c ∈ front ++ word, c.utf8Size = 1 := by
  have htext : lineText source t.line = front ++ (word ++ behind) := by rw [lineText, hline]; rfl
  have hbefore : before (front ++ (word ++ behind)) t.startCol = front := by
    rw [hstart, before_append]
  have hbehind : before (front ++ (word ++ behind)) (t.startCol + t.len) = front ++ word := by
    rw [hstart, hlen, ← size_append, ← List.append_assoc, before_append]
  have hsmall := size_line_le (List.mem_of_getElem? hline)
  rw [size_append, size_append] at hsmall
  have hcount : t.line < 2 ^ 32 := by
    obtain ⟨hlt, -⟩ := List.getElem?_eq_some_iff.mp hline
    exact (hlt.trans_le (length_lines_le source)).trans hshort
  have whole := size_eq_width_iff (front ++ word)
  rw [Plain, place, htext, hbefore, hbehind, hstart, hlen, u32, u32, u32, ← whole]
  simp only [Nat.mod_eq_of_lt hcount, Nat.mod_eq_of_lt (show size front < 2 ^ 32 by omega),
    Nat.mod_eq_of_lt (show size word < 2 ^ 32 by omega), size_append, width_append, true_and,
    Nat.add_sub_cancel_left]
  have := width_le_size front
  have := width_le_size word
  omega

end Deltas

/-- The tokens of every text are pieces of their lines, one behind the other, with the comments
where the parsers cut them off; and their places are read back from the deltas, without an
underflow, if and only if bytes and UTF-16 units are the same numbers of 32 bits for every
token. -/
theorem semantic_tokens_iff (find : Text → Option SemanticToken) (source : Text) :
    (WellFormed source (classifyTokens find source) ∧
      CommentsAgree source (classifyTokens find source) ∧
      RoundTrip source (classifyTokens find source)) ↔
    ∀ t ∈ classifyTokens find source, Plain source t := by
  have hformed := wellFormed_classifyTokens find source
  rw [← roundTrip_iff hformed]
  exact ⟨fun h => h.2.2, fun h => ⟨hformed, commentsAgree_classifyTokens find source, h⟩⟩

/-- A string with an accent is four bytes long, but three units. -/
theorem accent_misplaced : ¬ ∀ (find : Text → Option SemanticToken) (source : Text),
    WellFormed source (classifyTokens find source) ∧
      CommentsAgree source (classifyTokens find source) ∧
      RoundTrip source (classifyTokens find source) := by
  intro h
  obtain ⟨-, -, out, hout, hplaces⟩ := h (fun _ => none) "\"é\"".toList
  have tokens : classifyTokens (fun _ => none) "\"é\"".toList = [⟨0, 0, 4, .string⟩] := by
    have line : lines "\"é\"".toList = ["\"é\"".toList] := by decide
    rw [classifyTokens, line]
    simp [classifyLine, classifyFrom, scanString, isBlank, isQuote]
    decide
  rw [tokens] at hout hplaces
  have read := decode_encode hout
  rw [hplaces] at read
  revert read
  decide

end Lazuli.Syntax.Highlight
