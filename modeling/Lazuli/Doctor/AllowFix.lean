import Lazuli.Doctor.Recognize

/-!
Writing the waiver of a comment as a node
(`crates/lazuli_fix/src/actions/doctor_allow_comment.rs`).

The line is replaced, and all lines are written again, so a carriage return at the end of another
line is lost. The node reads as the comment if no comma or colon is in the code.
-/

namespace Lazuli.Doctor

open General Text Lines Find

inductive FixOutcome where
  | skipped
  | noChange
  | preview
  | applied
  deriving DecidableEq

structure FixRequest where
  path : String
  line : Nat
  apply : Bool

structure FixResult where
  outcome : FixOutcome
  preview : String
  note : Option String

def indentOf (line : List Char) : Nat := (line.takeWhile (· = ' ')).length

def nextConstructIndent (following : List (List Char)) : Option Nat :=
  following.findSome? fun line =>
    let trimmed := trimStart line
    if trimmed = [] ∨ trimmed.head? = some '#' ∨ isNodeLine trimmed = true ∨
      (recognizeLegacyCommentLine line).isSome = true then none
    else some (indentOf line)

def quoted (s : List Char) : List Char := '"' :: (s ++ ['"'])

/-- The text between the parentheses. -/
def nodeArgs (code : List Char) : Option (List Char) → List Char
  | some reason => code ++ ',' :: (" reason: ".toList ++ quoted reason)
  | none => code

def nodeLine (indent : Nat) (code : List Char) (reason : Option (List Char)) : List Char :=
  List.replicate indent ' ' ++ (nodeHead ++ '(' :: (nodeArgs code reason ++ [')']))

/-- As deep as the comment, or as what follows if that is deeper. -/
def newIndent (source : List Char) (target : Nat) (old : List Char) : Nat :=
  match nextConstructIndent ((lines source).drop (target + 1)) with
  | some next => if indentOf old < next then next else indentOf old
  | none => indentOf old

def rewritten (source : List Char) (target : Nat) (new : List Char) : List Char :=
  let output := ['\n'].intercalate ((lines source).set target new)
  if source.getLast? = some '\n' then output ++ ['\n'] else output

/-- The result, and the file behind it. -/
def execute (request : FixRequest) (file : Option (List Char)) :
    FixResult × Option (List Char) :=
  match file with
  | none => (⟨.skipped, "", some ("file does not exist: " ++ request.path)⟩, none)
  | some source =>
      let target := request.line - 1
      match (lines source)[target]? with
      | none => (⟨.skipped, "", some ("line " ++ toString request.line ++ " is out of range (" ++
          toString (lines source).length ++ " lines)")⟩, file)
      | some old =>
          match recognizeLegacyCommentLine old with
          | none => (⟨.noChange, "", some ("line " ++ toString request.line ++
              " is not a legacy `# doctor:allow` comment (already migrated?)")⟩, file)
          | some (code, reason) =>
              let new := nodeLine (newIndent source target old) code reason
              let preview := "--- " ++ request.path ++ ":" ++ toString request.line ++ "\n-" ++
                String.ofList old ++ "\n+" ++ String.ofList new ++ "\n"
              if request.apply then (⟨.applied, preview, none⟩, rewritten source target new)
              else (⟨.preview, preview, some "pass --apply to write the change to disk"⟩, file)

/-! ### What the request promises -/

/-- The line is a node that both parsers read as the waiver, and no other line has changed. -/
structure Migrated (source after : List Char) (target : Nat) (code : List Char)
    (reason : Option (List Char)) : Prop where
  node : ∃ new, (lines after)[target]? = some new ∧
    recognizeNodeLine new = some (code, reason) ∧ ∀ line scope, line.text = new →
      parse line scope = .ok ⟨code, reason, scope, false, some line.span⟩
  others : ∀ i, i ≠ target → (after.splitOn '\n')[i]? = (source.splitOn '\n')[i]?

/-- A request for the line of a comment waiver is carried out. -/
def Migrates (path : String) (line : Nat) (source : List Char) : Prop :=
  ∀ old code reason, (lines source)[line - 1]? = some old →
    recognizeLegacyCommentLine old = some (code, reason) →
      ∃ after, (execute ⟨path, line, true⟩ (some source)).2 = some after ∧
        Migrated source after (line - 1) code reason

/-- The code of the comment has no comma and no colon, and no other line ends in a carriage
return. -/
def Migratable (line : Nat) (source : List Char) : Prop :=
  ∀ old word, (lines source)[line - 1]? = some old → Waives old word →
    (',' ∉ word ∧ ':' ∉ word) ∧ ∀ i, i ≠ line - 1 → i + 1 < (source.splitOn '\n').length →
      ∀ piece, (source.splitOn '\n')[i]? = some piece → piece.getLast? ≠ some '\r'

/-! ### The node -/

section Quoted

variable {r : List Char}

theorem getLast?_append_quoted (s r : List Char) : (s ++ quoted r).getLast? = some '"' := by
  rw [quoted, ← List.cons_append, ← List.append_assoc, List.getLast?_concat]

theorem trim_append_quoted {c : Char} (hc : isWhitespace c = false) (s r : List Char) :
    trim (c :: s ++ quoted r) = c :: s ++ quoted r := by
  refine trim_eq_self (fun a ha => ?_) fun a ha => ?_
  · cases ha
    exact hc
  · rw [getLast?_append_quoted] at ha
    cases ha
    rfl

theorem trim_quoted (r : List Char) : trim (quoted r) = quoted r := by
  refine trim_eq_self (fun a ha => ?_) fun a ha => ?_
  · cases ha
    rfl
  · rw [← List.nil_append (quoted r), getLast?_append_quoted] at ha
    cases ha
    rfl

theorem trim_cons {c : Char} (hc : isWhitespace c = true) (s : List Char) :
    trim (c :: s) = trim s := by
  rw [trim, List.dropWhile_cons_of_pos hc, trim]

theorem trim_named (r : List Char) :
    trim (" reason: ".toList ++ quoted r) = "reason: ".toList ++ quoted r :=
  (trim_cons rfl _).trans (trim_append_quoted rfl "eason: ".toList r)

theorem dropPrefix_quoted (r : List Char) : (quoted r).dropPrefix? ['"'] = some (r ++ ['"']) :=
  Quoted.dropPrefix_iff.mpr rfl

theorem cut_quoted (quiet : '"' ∉ r) : cut '"' (r ++ ['"']) = some (r, []) := cut_of_notMem quiet []

theorem extractReasonValue_quoted (quiet : '"' ∉ r) :
    extractReasonValue ("reason: ".toList ++ quoted r) = some r := by
  have whole : trim ("reason: ".toList ++ quoted r) = "reason: ".toList ++ quoted r :=
    trim_append_quoted rfl "eason: ".toList r
  have key : ("reason: ".toList ++ quoted r).dropPrefix? "reason".toList =
      some (':' :: ' ' :: quoted r) := Quoted.dropPrefix_iff.mpr rfl
  have colon : (trimStart (':' :: ' ' :: quoted r)).dropPrefix? [':'] = some (' ' :: quoted r) :=
    Quoted.dropPrefix_iff.mpr rfl
  have value : trimStart (' ' :: quoted r) = quoted r := rfl
  simp only [extractReasonValue, whole, key, colon, value, unquote, dropPrefix_quoted,
    cut_quoted quiet, Option.bind_eq_bind, Option.bind_some, Option.map_some]

/-- A string is one piece. -/
theorem splitTopLevelCommas_quoted (quiet : '"' ∉ r) (depth : Int) :
    splitTopLevelCommas depth false (quoted r) = [quoted r] := by
  have inside : splitTopLevelCommas depth true (r ++ ['"']) = [r ++ ['"']] := by
    induction r with
    | nil => rfl
    | cons c r ih =>
        obtain ⟨hc, hr⟩ := not_or.mp (mt List.mem_cons.mpr quiet)
        rw [List.cons_append, splitTopLevelCommas, if_neg (Ne.symm hc), if_pos rfl, ih hr]
        rfl
  rw [quoted, splitTopLevelCommas, if_pos rfl, Bool.not_false, inside]
  rfl

/-- Characters that neither nest nor split stay in front of the first piece. -/
theorem splitTopLevelCommas_append {s : List Char}
    (plain : ∀ c ∈ s, c ≠ '"' ∧ c ≠ ',' ∧ nesting c = 0) (depth : Int) (t : List Char) :
    splitTopLevelCommas depth false (s ++ t) =
      (splitTopLevelCommas depth false t).modifyHead (s ++ ·) := by
  induction s with
  | nil => exact (congrFun List.modifyHead_id _).symm
  | cons c s ih =>
      obtain ⟨⟨quote, comma, level⟩, rest⟩ := List.forall_mem_cons.mp plain
      rw [List.cons_append, splitTopLevelCommas, if_neg quote, if_neg Bool.false_ne_true,
        if_neg fun h => comma h.1, level, Int.add_zero, ih rest, List.modifyHead_modifyHead]
      rfl

theorem parseNamedArg_quoted (line : SourceLine) (r : List Char) :
    parseNamedArg line ("reason: ".toList ++ quoted r) =
      .ok ⟨"reason".toList, quoted r, ⟨line.start, line.stop⟩⟩ := by
  have fresh : ':' ∉ "reason".toList := by decide
  have parts : cut ':' ("reason: ".toList ++ quoted r) = some ("reason".toList, ' ' :: quoted r) :=
    cut_of_notMem fresh (' ' :: quoted r)
  have name : trim "reason".toList = "reason".toList := by decide
  have some_ : "reason".toList ≠ [] := by decide
  have value : trim (' ' :: quoted r) = quoted r := (trim_cons rfl _).trans (trim_quoted r)
  simp only [parseNamedArg, parts, name, if_neg some_, value]

theorem parseNamedArgs_quoted (quiet : '"' ∉ r) (line : SourceLine) :
    parseNamedArgs line ("reason: ".toList ++ quoted r) =
      .ok [⟨"reason".toList, quoted r, ⟨line.start, line.stop⟩⟩] := by
  have whole : trim ("reason: ".toList ++ quoted r) = "reason: ".toList ++ quoted r :=
    trim_append_quoted rfl "eason: ".toList r
  have some_ : "reason: ".toList ++ quoted r ≠ [] := List.cons_ne_nil _ _
  have pieces : splitTopLevelCommas 0 false ("reason: ".toList ++ quoted r) =
      ["reason: ".toList ++ quoted r] := by
    have plain : ∀ c ∈ "reason: ".toList, c ≠ '"' ∧ c ≠ ',' ∧ nesting c = 0 := by
      simp [nesting]
    rw [splitTopLevelCommas_append plain, splitTopLevelCommas_quoted quiet]
    rfl
  have kept : (["reason: ".toList ++ quoted r].map trim).filter (· ≠ []) =
      ["reason: ".toList ++ quoted r] := by
    rw [List.map_singleton, whole]
    exact List.filter_eq_self.mpr fun a ha => decide_eq_true (List.mem_singleton.mp ha ▸ some_)
  simp only [parseNamedArgs, whole, if_neg some_, pieces, kept, List.mapM_cons, List.mapM_nil,
    parseNamedArg_quoted]
  rfl

theorem unquoteReason_quoted (quiet : '"' ∉ r) (line : SourceLine) :
    unquoteReason line (quoted r) = .ok r := by
  simp only [unquoteReason, trim_quoted, dropPrefix_quoted, cut_quoted quiet]

end Quoted

section Node

variable {old code : List Char} {reason : Option (List Char)} (read : Read old code reason)
include read

theorem trim_code : trim code = code :=
  trim_eq_self (fun a ha => read.solid a (List.mem_of_head? ha))
    fun a ha => read.solid a (List.mem_of_getLast? ha)

theorem trim_nodeArgs : trim (nodeArgs code reason) = nodeArgs code reason := by
  cases reason with
  | none => exact trim_code read
  | some r =>
      refine trim_eq_self (fun a ha => ?_) fun a ha => ?_
      · rw [nodeArgs, List.head?_append_of_ne_nil _ read.some] at ha
        exact read.solid a (List.mem_of_head? ha)
      · rw [nodeArgs, ← List.cons_append, ← List.append_assoc, getLast?_append_quoted] at ha
        cases ha
        rfl

theorem parseArgsLoose_nodeArgs (comma : ',' ∉ code) (colon : ':' ∉ code) :
    parseArgsLoose (nodeArgs code reason) = some (code, reason) := by
  have kept : ¬(code = [] ∨ ':' ∈ code) := not_or.mpr ⟨read.some, colon⟩
  cases reason with
  | none =>
      have trimmed := trim_nodeArgs read
      rw [nodeArgs] at trimmed ⊢
      simp only [parseArgsLoose, trimmed, cut_eq_none_iff.mpr comma, if_neg kept,
        Option.bind_none]
  | some r =>
      simp only [parseArgsLoose, trim_nodeArgs read]
      simp only [nodeArgs, cut_of_notMem comma, trim_code read, if_neg kept, trim_named,
        Option.bind_some, extractReasonValue_quoted (read.quiet r rfl)]

theorem recognizeNodeLine_nodeLine (comma : ',' ∉ code) (colon : ':' ∉ code) (indent : Nat) :
    recognizeNodeLine (nodeLine indent code reason) = some (code, reason) := by
  refine recognizeNodeLine_eq_some_iff.mpr ⟨nodeArgs code reason, ⟨[], [], ?_, ?_, ?_⟩,
    parseArgsLoose_nodeArgs read comma colon⟩
  · exact trimStart_append (fun a ha => List.eq_of_mem_replicate ha ▸ rfl) rfl _
  · exact fun a ha => absurd ha List.not_mem_nil
  · exact List.not_mem_nil

theorem parseArgs_nodeArgs (comma : ',' ∉ code) (colon : ':' ∉ code) (line : SourceLine) :
    parseArgs line (nodeArgs code reason) = .ok (code, reason) := by
  have trimmed := trim_nodeArgs read
  cases reason with
  | none =>
      rw [nodeArgs] at trimmed ⊢
      simp only [parseArgs, splitCode, trimmed, cut_eq_none_iff.mpr comma, if_neg read.some,
        if_neg colon]
      rfl
  | some r =>
      have some_ : nodeArgs code (some r) ≠ [] := List.append_ne_nil_of_left_ne_nil read.some _
      have quiet := read.quiet r rfl
      have value : parseReason line none ⟨"reason".toList, quoted r, ⟨line.start, line.stop⟩⟩ =
          .ok (some r) := by
        rw [parseReason, if_pos rfl, unquoteReason_quoted quiet]
        rfl
      simp only [parseArgs, trimmed, if_neg some_]
      simp only [nodeArgs, splitCode, cut_of_notMem comma, trim_code read, trim_named,
        if_neg read.some, if_neg colon, parseNamedArgs_quoted quiet]
      simp only [bind, Except.bind, List.foldlM_cons, List.foldlM_nil, value]
      rfl

theorem parse_nodeLine (comma : ',' ∉ code) (colon : ':' ∉ code) {line : SourceLine} {indent : Nat}
    (text : line.text = nodeLine indent code reason) (scope : DoctorAllowScope) :
    parse line scope = .ok ⟨code, reason, scope, false, some line.span⟩ := by
  have start : trimStart line.text = nodeHead ++ '(' :: (nodeArgs code reason ++ [')']) := by
    rw [text]
    exact trimStart_append (fun a ha => List.eq_of_mem_replicate ha ▸ rfl) rfl _
  have last : ('(' :: (nodeArgs code reason ++ [')'])).getLast? = some ')' := by
    rw [← List.cons_append, List.getLast?_concat]
  have whole : trimEnd ('(' :: (nodeArgs code reason ++ [')'])) =
      '(' :: (nodeArgs code reason ++ [')']) := by
    rw [trimEnd, List.rdropWhile_eq_self_iff]
    intro ne
    rw [List.getLast?_eq_some_getLast ne] at last
    rw [Option.some.inj last]
    exact Bool.false_ne_true
  have parts : cut '(' ('(' :: (nodeArgs code reason ++ [')'])) =
      some ([], nodeArgs code reason ++ [')']) := cut_of_notMem List.not_mem_nil _
  have call : splitCallSignature line ('(' :: (nodeArgs code reason ++ [')'])) =
      .ok ([], nodeArgs code reason) := by
    simp only [splitCallSignature, whole, parts, last, if_pos, List.dropLast_concat,
      trim_nodeArgs read]
    rfl
  simp only [parse, Quoted.dropPrefix_iff.mpr start, call, bind, Except.bind, ne_eq,
    not_true_eq_false, if_false, parseArgs_nodeArgs read comma colon]

end Node

/-! ### The lines -/

section Lines

variable {source new last : List Char} {target : Nat} {ps : List (List Char)}

/-- The lines that end, and what is behind them. -/
theorem exists_pieces (source : List Char) : ∃ ps last, source.splitOn '\n' = ps ++ [last] :=
  ⟨_, _, (List.dropLast_append_getLast (List.splitOn_ne_nil '\n' source)).symm⟩

theorem lines_of_splitOn (pieces : source.splitOn '\n' = ps ++ [last]) :
    lines source = ps.map dropReturn ++ [last].filter fun piece => !piece.isEmpty := by
  rw [lines, pieces, List.dropLast_concat, List.getLast?_concat, Option.toList_some]

theorem notMem_of_splitOn (pieces : source.splitOn '\n' = ps ++ [last]) :
    (∀ p ∈ ps, '\n' ∉ p) ∧ '\n' ∉ last := by
  have fresh : ∀ p ∈ ps ++ [last], '\n' ∉ p := fun p hp =>
    notMem_of_mem_splitOn (pieces ▸ hp)
  exact ⟨fun p hp => fresh p (List.mem_append_left _ hp),
    fresh last (List.mem_append_right _ (List.mem_singleton.mpr rfl))⟩

theorem dropReturn_sublist (line : List Char) : (dropReturn line).Sublist line := by
  unfold dropReturn
  split
  · exact List.dropLast_sublist line
  · exact List.Sublist.refl line

theorem eq_of_splitOn (pieces : source.splitOn '\n' = ps ++ [last]) (hps : ps ≠ []) :
    source = ['\n'].intercalate ps ++ ['\n'] ++ last := by
  have text : ['\n'].intercalate (source.splitOn '\n') = source := List.intercalate_splitOn '\n'
  rw [← text, pieces, intercalate_append hps (List.cons_ne_nil _ _), List.intercalate_singleton]

theorem getLast?_ne_of_splitOn (pieces : source.splitOn '\n' = ps ++ [last]) (hne : last ≠ []) :
    source.getLast? ≠ some '\n' := by
  have suffix : last <:+ source := by
    by_cases hps : ps = []
    · have text : ['\n'].intercalate (source.splitOn '\n') = source :=
        List.intercalate_splitOn '\n'
      rw [pieces, hps, List.nil_append, List.intercalate_singleton] at text
      exact text ▸ List.suffix_refl _
    · rw [eq_of_splitOn pieces hps]
      exact List.suffix_append _ _
  obtain ⟨front, rfl⟩ := suffix
  intro ends
  rw [List.getLast?_append_of_ne_nil _ hne] at ends
  exact (notMem_of_splitOn pieces).2 (List.mem_of_getLast? ends)

/-- The lines are written again, one of them anew. -/
theorem splitOn_rewritten (pieces : source.splitOn '\n' = ps ++ [last])
    (bound : target < (lines source).length) (fresh : '\n' ∉ new) :
    (rewritten source target new).splitOn '\n' = (ps.map dropReturn ++ [last]).set target new := by
  obtain ⟨freshPieces, freshLast⟩ := notMem_of_splitOn pieces
  have freshLines : ∀ line ∈ ps.map dropReturn, '\n' ∉ line :=
    List.forall_mem_map.mpr fun p hp mem => freshPieces p hp ((dropReturn_sublist p).subset mem)
  have freshSet {ls : List (List Char)} (h : ∀ line ∈ ls, '\n' ∉ line) :
      ∀ line ∈ ls.set target new, '\n' ∉ line := fun line mem =>
    (List.mem_or_eq_of_mem_set mem).elim (h line) fun same => same ▸ fresh
  by_cases hlast : last = []
  · subst hlast
    have written : lines source = ps.map dropReturn := by
      rw [lines_of_splitOn pieces]
      exact List.append_nil _
    rw [written] at bound
    have hps : ps ≠ [] := by
      rintro rfl
      exact absurd bound (Nat.not_lt_zero _)
    have ends : source.getLast? = some '\n' := by
      rw [eq_of_splitOn pieces hps, List.append_nil, List.getLast?_concat]
    have hset : (ps.map dropReturn).set target new ≠ [] := by
      simpa using hps
    have output : rewritten source target new =
        ['\n'].intercalate ((ps.map dropReturn).set target new ++ [[]]) := by
      rw [rewritten, if_pos ends, written, intercalate_append hset (List.cons_ne_nil _ _),
        List.intercalate_singleton, List.append_nil]
    rw [output, List.splitOn_intercalate '\n' ?_ (by simp), List.set_append_left _ _ bound]
    exact List.forall_mem_append.mpr ⟨freshSet freshLines, by simp⟩
  · have written : lines source = ps.map dropReturn ++ [last] := by
      rw [lines_of_splitOn pieces, List.filter_cons_of_pos (by simpa using hlast), List.filter_nil]
    rw [rewritten, if_neg (getLast?_ne_of_splitOn pieces hlast), written,
      List.splitOn_intercalate '\n' ?_ (by simp)]
    refine freshSet (List.forall_mem_append.mpr ⟨freshLines, ?_⟩)
    exact List.forall_mem_singleton.mpr freshLast

theorem dropReturn_eq_self_iff (line : List Char) :
    dropReturn line = line ↔ line.getLast? ≠ some '\r' := by
  unfold dropReturn
  split
  next ends =>
    refine iff_of_false (fun same => ?_) (not_not.mpr ends)
    obtain ⟨front, rfl⟩ := List.getLast?_eq_some_iff.mp ends
    rw [List.dropLast_concat] at same
    exact absurd (congrArg List.length same) (by simp)
  next keeps => exact iff_of_true rfl keeps

/-- Another line keeps its text if and only if it has no carriage return to lose. -/
theorem rewritten_other_iff (pieces : source.splitOn '\n' = ps ++ [last])
    (bound : target < (lines source).length) (fresh : '\n' ∉ new) {i : Nat} (other : i ≠ target) :
    ((rewritten source target new).splitOn '\n')[i]? = (source.splitOn '\n')[i]? ↔
      (i + 1 < (source.splitOn '\n').length → ∀ piece, (source.splitOn '\n')[i]? = some piece →
        piece.getLast? ≠ some '\r') := by
  rw [splitOn_rewritten pieces bound fresh, List.getElem?_set_ne other.symm, pieces,
    List.length_append, List.length_singleton]
  by_cases whole : i < ps.length
  · have mapped : i < (ps.map dropReturn).length := by rwa [List.length_map]
    rw [List.getElem?_append_left mapped, List.getElem?_append_left whole, List.getElem?_map,
      List.getElem?_eq_getElem whole, Option.map_some, Option.some_inj, dropReturn_eq_self_iff]
    constructor
    · rintro keeps - piece same
      rwa [← Option.some.inj same]
    · exact fun keeps => keeps (by omega) _ rfl
  · have mapped : (ps.map dropReturn).length ≤ i := by
      rw [List.length_map]
      omega
    rw [List.getElem?_append_right mapped, List.getElem?_append_right (by omega), List.length_map]
    exact iff_of_true rfl fun no => absurd no (by omega)

theorem lines_rewritten (bound : target < (lines source).length) (fresh : '\n' ∉ new)
    (some_ : new ≠ []) (ends : new.getLast? ≠ some '\r') :
    (lines (rewritten source target new))[target]? = some new := by
  obtain ⟨ps, last, pieces⟩ := exists_pieces source
  have split := splitOn_rewritten pieces bound fresh
  rw [lines_of_splitOn pieces, List.length_append, List.length_map] at bound
  by_cases whole : target < ps.length
  · have mapped : target < (ps.map dropReturn).length := by rwa [List.length_map]
    rw [List.set_append_left _ _ mapped] at split
    rw [lines_of_splitOn split, List.getElem?_append_left (by simpa using whole),
      List.getElem?_map, List.getElem?_set_self mapped, Option.map_some,
      (dropReturn_eq_self_iff new).mpr ends]
  · have atEnd : target = ps.length := by
      have short := List.length_filter_le (fun piece : List Char => !piece.isEmpty) [last]
      rw [List.length_singleton] at short
      omega
    subst atEnd
    have mapped : (ps.map dropReturn).length ≤ ps.length := by rw [List.length_map]
    rw [List.set_append_right _ _ mapped, List.length_map, Nat.sub_self] at split
    have kept : [new].filter (fun piece => !piece.isEmpty) = [new] := by
      simpa using some_
    rw [lines_of_splitOn split, kept, List.getElem?_append_right (by simp)]
    simp

theorem notMem_of_mem_lines {line : List Char} (mem : line ∈ lines source) : '\n' ∉ line := by
  obtain ⟨ps, last, pieces⟩ := exists_pieces source
  obtain ⟨freshPieces, freshLast⟩ := notMem_of_splitOn pieces
  rw [lines_of_splitOn pieces, List.mem_append] at mem
  rcases mem with mem | mem
  · obtain ⟨p, hp, rfl⟩ := List.mem_map.mp mem
    exact fun h => freshPieces p hp ((dropReturn_sublist p).subset h)
  · rw [List.mem_singleton.mp (List.mem_of_mem_filter mem)]
    exact freshLast

end Lines

/-! ### The request -/

section Request

variable {source old code : List Char} {reason : Option (List Char)} {line : Nat}

theorem nodeLine_fresh (read : Read old code reason) (fresh : '\n' ∉ old) (indent : Nat) :
    '\n' ∉ nodeLine indent code reason := by
  have args : '\n' ∉ nodeArgs code reason := by
    have plain : '\n' ∉ " reason: ".toList := by decide
    cases reason with
    | none => exact fun mem => fresh (read.code_subset mem)
    | some r =>
        simp only [nodeArgs, quoted, List.mem_append, List.mem_cons, List.not_mem_nil, or_false]
        rintro (mem | no | mem | no | mem | no)
        · exact fresh (read.code_subset mem)
        · cases no
        · exact plain mem
        · cases no
        · exact fresh (read.reason_subset r rfl mem)
        · cases no
  have head : '\n' ∉ nodeHead := by decide
  simp only [nodeLine, List.mem_append, List.mem_cons, List.not_mem_nil, or_false,
    List.mem_replicate]
  rintro (⟨-, no⟩ | mem | no | mem | no)
  · cases no
  · exact head mem
  · cases no
  · exact args mem
  · cases no

theorem getLast?_nodeLine (indent : Nat) (code : List Char) (reason : Option (List Char)) :
    (nodeLine indent code reason).getLast? = some ')' := by
  rw [nodeLine, ← List.cons_append, ← List.append_assoc, ← List.append_assoc, List.getLast?_concat]

theorem execute_eq (path : String) (target : (lines source)[line - 1]? = some old)
    (recognized : recognizeLegacyCommentLine old = some (code, reason)) :
    (execute ⟨path, line, true⟩ (some source)).2 =
      some (rewritten source (line - 1)
        (nodeLine (newIndent source (line - 1) old) code reason)) := by
  simp only [execute, target, recognized, if_true]

theorem migrated_iff (target : (lines source)[line - 1]? = some old)
    (recognized : recognizeLegacyCommentLine old = some (code, reason)) (indent : Nat) :
    Migrated source (rewritten source (line - 1) (nodeLine indent code reason)) (line - 1) code
        reason ↔
      (',' ∉ code ∧ ':' ∉ code) ∧ ∀ i, i ≠ line - 1 → i + 1 < (source.splitOn '\n').length →
        ∀ piece, (source.splitOn '\n')[i]? = some piece → piece.getLast? ≠ some '\r' := by
  obtain ⟨ps, last, pieces⟩ := exists_pieces source
  have bound : line - 1 < (lines source).length := (List.getElem?_eq_some_iff.mp target).1
  have read := read_of_recognize recognized
  have fresh := nodeLine_fresh read (notMem_of_mem_lines (List.mem_of_getElem? target)) indent
  have some_ : nodeLine indent code reason ≠ [] := by
    intro empty
    have ends := getLast?_nodeLine indent code reason
    rw [empty] at ends
    cases ends
  have ends : (nodeLine indent code reason).getLast? ≠ some '\r' := by
    rw [getLast?_nodeLine]
    intro same
    cases same
  have written := lines_rewritten bound fresh some_ ends
  constructor
  · rintro ⟨⟨new, there, reads, -⟩, others⟩
    cases there.symm.trans written
    refine ⟨(exists_recognizeNodeLine_iff.mp ⟨reason, reads⟩).bare, fun i other => ?_⟩
    exact (rewritten_other_iff pieces bound fresh other).mp (others i other)
  · rintro ⟨⟨comma, colon⟩, keeps⟩
    refine ⟨⟨_, written, recognizeNodeLine_nodeLine read comma colon indent,
      fun line scope text => parse_nodeLine read comma colon text scope⟩, fun i other => ?_⟩
    exact (rewritten_other_iff pieces bound fresh other).mpr (keeps i other)

end Request

/-- A request is carried out if and only if the code can stand in a node and every other line
keeps its end. -/
theorem migrates_iff (path : String) (line : Nat) (source : List Char) :
    Migrates path line source ↔ Migratable line source := by
  constructor
  · intro h old word target waives
    obtain ⟨reason, recognized⟩ := exists_recognizeLegacyCommentLine_iff.mpr waives
    obtain ⟨after, executed, migrated⟩ := h old word reason target recognized
    rw [execute_eq path target recognized] at executed
    cases executed
    exact (migrated_iff target recognized _).mp migrated
  · intro h old code reason target recognized
    have waives := exists_recognizeLegacyCommentLine_iff.mp ⟨reason, recognized⟩
    exact ⟨_, execute_eq path target recognized,
      (migrated_iff target recognized _).mpr (h old code target waives)⟩

end Lazuli.Doctor
