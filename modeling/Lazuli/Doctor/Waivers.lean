import Lazuli.Doctor.Recognize
import Lazuli.Doctor.AllowFix

/-!
Waivers waive what they name.

Three readers and a rewriter share one syntax. They agree where a waiver is written as each of
them expects it, and `waivers_iff` says where that is.
-/

namespace Lazuli.Doctor

open General Text Lines Find

/-! ### The readers of one line -/

/-- What all three readers accept they read alike. -/
def AllAgree (line : SourceLine) : Prop :=
  ∀ scope decl waiver comment, parse line scope = .ok decl →
    recognizeNodeLine line.text = some waiver →
    recognizeLegacyCommentLine line.text = some comment →
      (decl.code, decl.reason) = waiver ∧ waiver = comment

/-- What is accepted with complaints is read alike without. -/
def NodesAgree (line : SourceLine) : Prop :=
  ∀ scope decl, parse line scope = .ok decl →
    recognizeNodeLine line.text = some (decl.code, decl.reason)

/-- A comment in the line of a node waives something, too. -/
def Nested (line : List Char) : Prop :=
  isNodeLine (trimStart line) = true ∧ ∃ word, Waives line word

/-- Behind the code there is one argument at most. -/
def Single (line : List Char) : Prop :=
  ∀ args code rest, Encloses line args → cut ',' (trim args) = some (code, rest) →
    splitTopLevelCommas 0 false (trim rest) = [trim rest]

theorem allAgree_of_not_nested {line : SourceLine} (h : ¬Nested line.text) : AllAgree line := by
  intro scope decl waiver comment _ node legacy
  have isNode : isNodeLine (trimStart line.text) = true := by
    simp only [recognizeNodeLine] at node
    split at node
    next isNode => exact isNode
    · cases node
  exact absurd ⟨isNode, comment.1, exists_recognizeLegacyCommentLine_iff.mp ⟨comment.2, legacy⟩⟩ h

/-! ### The readers of nodes -/

section Nodes

variable {line : SourceLine} {rest args code value : List Char} {reason : Option (List Char)}
  {scope : DoctorAllowScope} {decl : DoctorAllowDecl}

theorem eq_nil_of_trim (h : trim rest = []) : ∀ a ∈ rest, isWhitespace a = true := by
  intro a ha
  by_contra solid
  have kept := (mem_trim_iff (Bool.eq_false_iff.mpr solid)).mpr ha
  rw [h] at kept
  cases kept

/-- The text between the parentheses, as the call is split. -/
theorem splitCallSignature_inv (h : splitCallSignature line rest = .ok ([], args)) :
    args = [] ∨ ∃ gap inner tail, rest = gap ++ '(' :: (inner ++ ')' :: tail) ∧
      (∀ a ∈ gap, isWhitespace a = true) ∧ ')' ∉ tail ∧ args = trim inner := by
  simp only [splitCallSignature] at h
  split at h
  next query behind found =>
    split at h
    next ends =>
      obtain ⟨blank, rfl⟩ := Prod.mk.inj (Except.ok.inj h)
      obtain ⟨split, -⟩ := cut_eq_some_iff.mp found
      rw [split] at ends
      rcases List.eq_nil_or_concat behind with rfl | ⟨inner, last, rfl⟩
      · rw [List.getLast?_concat] at ends
        cases ends
      · rw [List.concat_eq_append, ← List.cons_append, ← List.append_assoc,
          List.getLast?_concat] at ends
        cases ends
        refine .inr ⟨query, inner, rest.rtakeWhile isWhitespace, ?_, eq_nil_of_trim blank, ?_, ?_⟩
        · conv => lhs; rw [← List.rdropWhile_append_rtakeWhile (p := isWhitespace) (l := rest)]
          rw [trimEnd] at split
          rw [split]
          simp
        · intro mem
          cases List.mem_rtakeWhile_imp mem
        · simp
    · cases h
  · exact .inl (Prod.mk.inj (Except.ok.inj h)).2.symm

theorem parse_inv (h : parse line scope = .ok decl) : ∃ args, Encloses line.text args ∧
    parseArgs line (trim args) = .ok (decl.code, decl.reason) := by
  unfold parse at h
  split at h
  · cases h
  next rest start =>
    cases call : splitCallSignature line rest with
    | error e =>
        rw [call] at h
        cases h
    | ok parts =>
        obtain ⟨head, args⟩ := parts
        rw [call] at h
        simp only [bind, Except.bind] at h
        split at h
        · cases h
        next plain =>
          rw [not_not.mp plain] at call
          cases parsed : parseArgs line args with
          | error e =>
              rw [parsed] at h
              cases h
          | ok read =>
              rw [parsed] at h
              cases h
              rcases splitCallSignature_inv call with
                rfl | ⟨gap, inner, tail, rfl, blank, fresh, rfl⟩
              · cases parsed
              · exact ⟨inner, ⟨gap, tail, Quoted.dropPrefix_iff.mp start, blank, fresh⟩, parsed⟩

theorem trim_eq_append (s : List Char) :
    ∃ tail, trimStart s = trim s ++ tail ∧ ∀ a ∈ tail, isWhitespace a = true :=
  ⟨(trimStart s).rtakeWhile isWhitespace, List.rdropWhile_append_rtakeWhile.symm,
    fun _ ha => List.mem_rtakeWhile_imp ha⟩

/-- A string that is read at the end of a text is read in front of white space, too. -/
theorem unquote_trimStart (h : unquoteReason line value = .ok code) :
    unquote (trimStart value) = some code := by
  obtain ⟨tail, split, -⟩ := trim_eq_append value
  unfold unquoteReason at h
  split at h
  · cases h
  next inner opening =>
    split at h
    · cases h
    next text behind found =>
      cases h
      obtain ⟨rfl, quiet⟩ := cut_eq_some_iff.mp found
      have whole : trimStart value = '"' :: (code ++ '"' :: (behind ++ tail)) := by
        rw [split, Quoted.dropPrefix_iff.mp opening]
        simp
      have start : (trimStart value).dropPrefix? ['"'] = some (code ++ '"' :: (behind ++ tail)) :=
        Quoted.dropPrefix_iff.mpr whole
      simp only [unquote, start, Option.bind_eq_bind, Option.bind_some, cut_of_notMem quiet,
        Option.map_some]

/-- One argument, read with and without complaints. -/
theorem extractReasonValue_of_parse {arg : TargetArgDecl} (trimmed : trim rest = rest)
    (parsed : parseNamedArg line rest = .ok arg)
    (accepted : parseReason line none arg = .ok reason) :
    extractReasonValue rest = reason := by
  unfold parseNamedArg at parsed
  split at parsed
  · cases parsed
  next name value found =>
    split at parsed
    · cases parsed
    · cases parsed
      unfold parseReason at accepted
      split at accepted
      next same =>
        obtain ⟨split, -⟩ := cut_eq_some_iff.mp found
        dsimp only at split accepted same
        cases quotes : unquoteReason line (trim value) with
        | error e =>
            rw [quotes] at accepted
            cases accepted
        | ok text =>
        rw [quotes] at accepted
        cases accepted
        have key : trimStart name = name := by
          cases name with
          | nil => cases same
          | cons c name =>
              have solid : isWhitespace c = false := by
                refine isWhitespace_head_trim (s := rest) c ?_
                rw [trimmed, split]
                rfl
              exact trimStart_append (fun a ha => absurd ha List.not_mem_nil) solid name
        obtain ⟨tail, behind, blank⟩ := trim_eq_append name
        rw [key, same] at behind
        have start : rest.dropPrefix? "reason".toList = some (tail ++ ':' :: value) := by
          rw [Quoted.dropPrefix_iff, split, behind, List.append_assoc]
        have colon : (trimStart (tail ++ ':' :: value)).dropPrefix? [':'] = some value := by
          rw [trimStart_append blank rfl]
          exact Quoted.dropPrefix_iff.mpr rfl
        have read : unquoteReason line value = .ok text := by
          rw [← quotes, unquoteReason, unquoteReason, trim_trim]
        have string := unquote_trimStart read
        simp only [extractReasonValue, trimmed, start, colon, Option.bind_eq_bind, Option.bind_some,
          string]
      · cases accepted

/-- All arguments, when there is one at most. -/
theorem extractReasonValue_of_single
    (single : splitTopLevelCommas 0 false (trim rest) = [trim rest])
    {arguments : List TargetArgDecl} (parsed : parseNamedArgs line (trim rest) = .ok arguments)
    (accepted : arguments.foldlM (parseReason line) none = .ok reason) :
    extractReasonValue (trim rest) = reason := by
  simp only [parseNamedArgs, trim_trim] at parsed
  split at parsed
  next empty =>
    cases parsed
    cases accepted
    rw [empty]
    rfl
  next some_ =>
    have kept : [trim rest].filter (· ≠ []) = [trim rest] :=
      List.filter_eq_self.mpr fun a ha => decide_eq_true (List.mem_singleton.mp ha ▸ some_)
    rw [single, List.map_singleton, trim_trim, kept, List.mapM_cons, List.mapM_nil] at parsed
    cases one : parseNamedArg line (trim rest) with
    | error e =>
        rw [one] at parsed
        cases parsed
    | ok arg =>
        rw [one] at parsed
        cases parsed
        rw [List.foldlM_cons] at accepted
        cases last : parseReason line none arg with
        | error e =>
            rw [last] at accepted
            cases accepted
        | ok read =>
            rw [last] at accepted
            cases accepted
            exact extractReasonValue_of_parse (trim_trim rest) one last

/-- The parts of accepted arguments. -/
theorem parseArgs_inv (h : parseArgs line args = .ok (code, reason)) :
    ∃ named, splitCode args = (code, named) ∧ code ≠ [] ∧ ':' ∉ code ∧
      ∃ arguments, parseNamedArgs line named = .ok arguments ∧
        arguments.foldlM (parseReason line) none = .ok reason := by
  unfold parseArgs at h
  dsimp only at h
  split at h
  · cases h
  · split at h
    · cases h
    next some_ =>
      split at h
      · cases h
      next bare =>
        cases parsed : parseNamedArgs line (splitCode args).2 with
        | error e =>
            rw [parsed] at h
            cases h
        | ok arguments =>
            rw [parsed] at h
            simp only [bind, Except.bind] at h
            split at h
            · cases h
            next last =>
              cases h
              exact ⟨_, rfl, some_, bare, arguments, parsed, last⟩

theorem nodesAgree_of_single (single : Single line.text) : NodesAgree line := by
  intro scope decl parsed
  obtain ⟨args, encloses, accepted⟩ := parse_inv parsed
  refine recognizeNodeLine_eq_some_iff.mpr ⟨args, encloses, ?_⟩
  obtain ⟨named, parts, some_, bare, arguments, read, last⟩ := parseArgs_inv accepted
  have kept : ¬(decl.code = [] ∨ ':' ∈ decl.code) := not_or.mpr ⟨some_, bare⟩
  unfold splitCode at parts
  rw [parseArgsLoose]
  cases found : cut ',' (trim args) with
  | none =>
      rw [found] at parts
      obtain ⟨same, rfl⟩ := Prod.mk.inj parts
      rw [trim_trim] at same
      cases read
      have silent : none = decl.reason := Except.ok.inj last
      simp only [same, if_neg kept, Option.bind_none, ← silent]
  | some pair =>
      obtain ⟨front, rest⟩ := pair
      rw [found] at parts
      obtain ⟨same, rfl⟩ := Prod.mk.inj parts
      have value := extractReasonValue_of_single (single args front rest encloses found) read last
      simp only [same, if_neg kept, Option.bind_some, value]

end Nodes

/-! ### Waivers -/

/-- Where a source is asked for a code, where a line has several readers, and where a comment is
written as a node. -/
theorem waivers_iff (source code : List Char) (line : SourceLine) (path : String) (n : Nat) :
    ((sourceContainsDoctorAllow source code = true ↔ Names source code) ↔ Spelled source code) ∧
    (¬Nested line.text → AllAgree line) ∧
    (Single line.text → NodesAgree line) ∧
    (Migrates path n source ↔ Migratable n source) :=
  ⟨names_iff source code, allAgree_of_not_nested, nodesAgree_of_single, migrates_iff path n source⟩

/-- A longer code; a comment in the reason of a node; and a comma in the code of a comment. -/
theorem unlike :
    ¬(sourceContainsDoctorAllow "# doctor:allow X-10".toList "X-1".toList = true ↔
      Names "# doctor:allow X-10".toList "X-1".toList) ∧
    ¬AllAgree ⟨"@doctor.allow(X-1, reason: \"see # doctor:allow Y-2\")".toList, 0, 54⟩ ∧
    ¬Migrates "a.lzi" 1 "# doctor:allow X,Y".toList := by
  refine ⟨fun same => ?_, fun agree => ?_, fun migrates => ?_⟩
  · have single : lines "# doctor:allow X-10".toList = ["# doctor:allow X-10".toList] := rfl
    have comment : recognizeLegacyCommentLine "# doctor:allow X-10".toList =
        some ("X-10".toList, none) := by decide +kernel
    obtain ⟨line, mem, names⟩ := same.mp (by decide +kernel)
    rw [single] at mem
    rw [List.mem_singleton.mp mem] at names
    rcases names with ⟨word, waives, other⟩ | ⟨word, node, -⟩
    · obtain ⟨reason, read⟩ := exists_recognizeLegacyCommentLine_iff.mpr waives
      cases comment.symm.trans read
      exact absurd other (by decide)
    · obtain ⟨reason, read⟩ := exists_recognizeNodeLine_iff.mpr node
      cases read
  · have comment : recognizeLegacyCommentLine
        "@doctor.allow(X-1, reason: \"see # doctor:allow Y-2\")".toList =
          some ("Y-2\")".toList, none) := by decide +kernel
    exact absurd (agree .file _ _ _ rfl rfl comment).2 (by decide)
  · have comment : recognizeLegacyCommentLine "# doctor:allow X,Y".toList =
        some ("X,Y".toList, none) := by decide +kernel
    have waives := exists_recognizeLegacyCommentLine_iff.mp ⟨none, comment⟩
    obtain ⟨⟨comma, -⟩, -⟩ := (migrates_iff _ _ _).mp migrates _ _ rfl waives
    exact absurd comma (by decide)

end Lazuli.Doctor
