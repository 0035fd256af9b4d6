import Lazuli.Doctor.Allow
import Lazuli.General.Quoted

/-!
What the recognizers of waivers accept, as texts.

`Encloses` is the text between the parentheses of a node and `NodeWaives` its code; `Waives` is
the word of a comment. A recognizer accepts a line with some reason if and only if the line reads
so.
-/

namespace Lazuli.Doctor

open General Text Lines Find Quoted

variable {line args word code s t : List Char} {c : Char}

/-! ### White space -/

theorem trimStart_append {gap : List Char} (h : ∀ a ∈ gap, isWhitespace a = true)
    (hc : isWhitespace c = false) (s : List Char) : trimStart (gap ++ c :: s) = c :: s := by
  rw [trimStart, List.dropWhile_append_of_pos h, List.dropWhile_cons_of_neg (by simp [hc])]

theorem trimStart_decomposition (s : List Char) :
    ∃ gap, s = gap ++ trimStart s ∧ ∀ a ∈ gap, isWhitespace a = true :=
  ⟨s.takeWhile isWhitespace, List.takeWhile_append_dropWhile.symm,
    fun _ ha => List.mem_takeWhile_imp ha⟩

theorem words_trimStart (s : List Char) : words (trimStart s) = words s := by
  obtain ⟨gap, split, blank⟩ := trimStart_decomposition s
  conv => rhs; rw [split]
  exact (words_append_of_forall blank _).symm

/-! ### Nodes -/

/-- The text between the first parenthesis of a node and the last one. -/
def Encloses (line args : List Char) : Prop :=
  ∃ gap tail, trimStart line = nodeHead ++ (gap ++ '(' :: (args ++ ')' :: tail)) ∧
    (∀ a ∈ gap, isWhitespace a = true) ∧ ')' ∉ tail

/-- The code of a node. -/
def NodeWaives (line word : List Char) : Prop :=
  ∃ args, Encloses line args ∧ word = trim ((trim args).takeWhile (· ≠ ',')) ∧
    word ≠ [] ∧ ':' ∉ word

theorem recognizeNodeLine_eq_some_iff {waiver : List Char × Option (List Char)} :
    recognizeNodeLine line = some waiver ↔
      ∃ args, Encloses line args ∧ parseArgsLoose args = some waiver := by
  constructor
  · intro h
    simp only [recognizeNodeLine] at h
    split at h
    · obtain ⟨rest, hrest, behind⟩ := Option.bind_eq_some_iff.mp h
      obtain ⟨inner, hinner, parsed⟩ := Option.bind_eq_some_iff.mp behind
      obtain ⟨_, hargs, accepted⟩ := Option.bind_eq_some_iff.mp parsed
      obtain ⟨⟨args, tail⟩, hcut, rfl⟩ := Option.map_eq_some_iff.mp hargs
      obtain ⟨inside, fresh⟩ := cutLast_eq_some_iff.mp hcut
      obtain ⟨gap, split, blank⟩ := trimStart_decomposition rest
      refine ⟨args, ⟨gap, tail, ?_, blank, fresh⟩, accepted⟩
      rw [dropPrefix_iff.mp hrest, split, dropPrefix_iff.mp hinner, inside]
      rfl
    · cases h
  · rintro ⟨args, ⟨gap, tail, split, blank, fresh⟩, h⟩
    have start : trimStart (gap ++ '(' :: (args ++ ')' :: tail)) = '(' :: (args ++ ')' :: tail) :=
      trimStart_append blank rfl _
    have head := dropPrefix_iff.mpr split
    have open_ : ('(' :: (args ++ ')' :: tail)).dropPrefix? ['('] = some (args ++ ')' :: tail) :=
      dropPrefix_iff.mpr rfl
    have node : isNodeLine (trimStart line) = true := by
      rw [isNodeLine, head]
      simp [start]
    simp only [recognizeNodeLine, if_pos node, head, Option.bind_eq_bind, Option.bind_some, start,
      open_, cutLast_eq_some_iff.mpr ⟨rfl, fresh⟩, Option.map_some]
    exact h

theorem exists_parseArgsLoose_iff : (∃ reason, parseArgsLoose args = some (word, reason)) ↔
    word = trim ((trim args).takeWhile (· ≠ ',')) ∧ word ≠ [] ∧ ':' ∉ word := by
  have accepted (code : List Char) (reason : Option (List Char)) :
      (∃ reason', (if code = [] ∨ ':' ∈ code then none else some (code, reason)) =
        some (word, reason')) ↔ word = code ∧ word ≠ [] ∧ ':' ∉ word := by
    split
    next bad =>
      refine iff_of_false (fun ⟨_, no⟩ => Option.some_ne_none _ no.symm) ?_
      rintro ⟨rfl, some_, bare⟩
      exact bad.elim some_ bare
    next good =>
      obtain ⟨some_, bare⟩ := not_or.mp good
      constructor
      · rintro ⟨reason', same⟩
        cases same
        exact ⟨rfl, some_, bare⟩
      · rintro ⟨rfl, -, -⟩
        exact ⟨reason, rfl⟩
  unfold parseArgsLoose
  simp only
  cases found : cut ',' (trim args) with
  | some parts =>
      have mem : ',' ∈ trim args := by
        by_contra fresh
        rw [cut_eq_none_iff.mpr fresh] at found
        cases found
      rw [cut, if_pos mem] at found
      cases found
      exact accepted _ _
  | none =>
      have whole : (trim args).takeWhile (· ≠ ',') = trim args := by
        refine List.takeWhile_eq_self_iff.mpr fun c hc => decide_eq_true ?_
        rintro rfl
        exact cut_eq_none_iff.mp found hc
      rw [whole, trim_trim]
      exact accepted _ _

theorem exists_recognizeNodeLine_iff :
    (∃ reason, recognizeNodeLine line = some (word, reason)) ↔ NodeWaives line word := by
  simp only [recognizeNodeLine_eq_some_iff, NodeWaives, ← exists_parseArgsLoose_iff]
  constructor
  · rintro ⟨reason, args, encloses, h⟩
    exact ⟨args, encloses, reason, h⟩
  · rintro ⟨args, encloses, reason, h⟩
    exact ⟨reason, args, encloses, h⟩

/-! ### Comments -/

/-- The word behind the first `doctor:allow`, somewhere behind a `#`. -/
def Waives (line word : List Char) : Prop :=
  ∃ pos, First keyword (lower line) pos ∧ '#' ∈ line.take pos ∧
    Opens word (line.drop (pos + keyword.length))

theorem recognizeLegacyCommentLine_eq_some_iff {reason : Option (List Char)} :
    recognizeLegacyCommentLine line = some (word, reason) ↔
      ∃ pos, First keyword (lower line) pos ∧ '#' ∈ line.take pos ∧
        Opens word (line.drop (pos + keyword.length)) ∧
        legacyReason (trimStart (line.drop (pos + keyword.length))) = reason := by
  have some_ : keyword ≠ [] := List.cons_ne_nil _ _
  constructor
  · intro h
    obtain ⟨pos, hpos, h⟩ := Option.bind_eq_some_iff.mp h
    split at h
    next mark =>
      obtain ⟨code, hcode, h⟩ := Option.bind_eq_some_iff.mp h
      rw [words_trimStart] at hcode
      cases h
      exact ⟨pos, (find_eq_some_iff some_).mp hpos, mark, head?_words_eq_some_iff.mp hcode, rfl⟩
    · cases h
  · rintro ⟨pos, first, mark, opens, rfl⟩
    simp only [recognizeLegacyCommentLine, (find_eq_some_iff some_).mpr first, Option.bind_eq_bind,
      Option.bind_some, if_pos mark, words_trimStart, opens.head?_words]

theorem exists_recognizeLegacyCommentLine_iff :
    (∃ reason, recognizeLegacyCommentLine line = some (word, reason)) ↔ Waives line word := by
  simp only [recognizeLegacyCommentLine_eq_some_iff, Waives]
  constructor
  · rintro ⟨reason, pos, first, mark, opens, -⟩
    exact ⟨pos, first, mark, opens⟩
  · rintro ⟨pos, first, mark, opens⟩
    exact ⟨_, pos, first, mark, opens, rfl⟩

/-- A code in parentheses ends at the comma, and has no colon. -/
theorem NodeWaives.bare (h : NodeWaives line word) : ',' ∉ word ∧ ':' ∉ word := by
  obtain ⟨args, -, rfl, -, colon⟩ := h
  refine ⟨fun comma => ?_, colon⟩
  have other := List.mem_takeWhile_imp (mem_of_mem_trim comma)
  exact absurd rfl (of_decide_eq_true other)

/-- What is in a waiver comes from its line. -/
structure Read (line code : List Char) (reason : Option (List Char)) : Prop where
  some : code ≠ []
  solid : ∀ a ∈ code, isWhitespace a = false
  quiet : ∀ r ∈ reason, '"' ∉ r
  code_subset : code ⊆ line
  reason_subset : ∀ r ∈ reason, r ⊆ line

theorem read_of_recognize {reason : Option (List Char)}
    (h : recognizeLegacyCommentLine line = some (code, reason)) : Read line code reason := by
  obtain ⟨pos, -, -, ⟨gap, rest, split, -, ⟨some_, solid⟩, -⟩, rfl⟩ :=
    recognizeLegacyCommentLine_eq_some_iff.mp h
  have found : ∀ r ∈ legacyReason (trimStart (line.drop (pos + keyword.length))),
      '"' ∉ r ∧ r ⊆ line := by
    intro r hr
    obtain ⟨rpos, -, hr⟩ := Option.bind_eq_some_iff.mp hr
    obtain ⟨inner, hinner, hr⟩ := Option.bind_eq_some_iff.mp hr
    obtain ⟨⟨before, _⟩, hcut, rfl⟩ := Option.map_eq_some_iff.mp hinner
    obtain ⟨⟨_, behind⟩, hcut', rfl⟩ := Option.map_eq_some_iff.mp hr
    obtain ⟨first, -⟩ := cut_eq_some_iff.mp hcut
    obtain ⟨second, quiet⟩ := cut_eq_some_iff.mp hcut'
    dsimp only at second
    refine ⟨quiet, fun a ha => ?_⟩
    have inAfter : a ∈ (trimStart (line.drop (pos + keyword.length))).drop
        (rpos + "reason".length) := by
      rw [first]
      refine List.mem_append_right _ (List.mem_cons_of_mem _ ?_)
      rw [second]
      exact List.mem_append_left _ ha
    exact List.mem_of_mem_drop ((List.dropWhile_sublist _).subset (List.mem_of_mem_drop inAfter))
  refine ⟨some_, solid, fun r hr => (found r hr).1, fun a ha => ?_, fun r hr => (found r hr).2⟩
  refine List.mem_of_mem_drop (i := pos + keyword.length) ?_
  rw [split]
  exact List.mem_append_right _ (List.mem_append_left _ ha)

end Lazuli.Doctor

/-!
Whether a source waives a rule (`crates/lazuli_doctor/src/allow_comment.rs`).

Nodes are recognized, but of a comment it is only asked whether `doctor:allow CODE` stands in it.
So the answer can differ from what the waivers of the source name: where the text there begins a
longer word or a second waiver (`Overrun`), and where a waiver is written otherwise (`Astray`).
-/

namespace Lazuli.Doctor

open General Text Lines Find

def sourceContainsDoctorAllow (source code : List Char) : Bool :=
  let needle := keyword ++ ' ' :: lower code
  (lines source).any fun line =>
    let trimmed := trimStart line
    decide (trimmed.head? = some '#' ∧ needle <:+: lower trimmed) ||
      (recognizeNodeLine trimmed).any fun waiver => decide (lower waiver.1 = lower code)

/-! ### Waivers -/

/-- A comment of the line waives the code. -/
def Commented (line code : List Char) : Prop := ∃ word, Waives line word ∧ lower word = lower code

/-- The line is a node for the code. -/
def Noded (line code : List Char) : Prop := ∃ word, NodeWaives line word ∧ lower word = lower code

/-- Some waiver of the source names the code. -/
def Names (source code : List Char) : Prop :=
  ∃ line ∈ lines source, Commented line code ∨ Noded line code

/-! ### Spellings -/

/-- A line that is a comment, with the code somewhere behind `doctor:allow` and a blank. -/
def Written (line code : List Char) : Prop :=
  (trimStart line).head? = some '#' ∧ keyword ++ ' ' :: lower code <:+: lower (trimStart line)

/-- But the word behind the first `doctor:allow` is another. -/
def Overrun (line code : List Char) : Prop :=
  Written line code ∧ ∀ pos word, First keyword (lower line) pos →
    Opens word (line.drop (pos + keyword.length)) → lower word ≠ lower code

/-- A waiver in a comment behind other text, or with other white space in front of the code. -/
def Astray (line code : List Char) : Prop := Commented line code ∧ ¬Written line code

/-- The code is waived where it is looked for; or nothing looks like a waiver for it and none
is, and also when both are there. -/
def Spelled (source code : List Char) : Prop :=
  (∃ line ∈ lines source, Noded line code ∨ Written line code ∧ Commented line code) ∨
    ((∃ line ∈ lines source, Overrun line code) ↔ ∃ line ∈ lines source, Astray line code)

section Line

variable {source line code : List Char}

theorem trimStart_trimStart (s : List Char) : trimStart (trimStart s) = trimStart s :=
  List.dropWhile_idempotent _ _

theorem recognizeNodeLine_trimStart (line : List Char) :
    recognizeNodeLine (trimStart line) = recognizeNodeLine line := by
  simp only [recognizeNodeLine, trimStart_trimStart]

theorem sourceContainsDoctorAllow_iff : sourceContainsDoctorAllow source code = true ↔
    ∃ line ∈ lines source, Written line code ∨ Noded line code := by
  have noded (line : List Char) : ((recognizeNodeLine (trimStart line)).any fun waiver =>
      decide (lower waiver.1 = lower code)) = true ↔ Noded line code := by
    rw [recognizeNodeLine_trimStart, Option.any_eq_true]
    simp only [Noded, ← exists_recognizeNodeLine_iff, decide_eq_true_eq, Prod.exists]
    constructor
    · rintro ⟨word, reason, h, same⟩
      exact ⟨word, ⟨reason, h⟩, same⟩
    · rintro ⟨word, ⟨reason, h⟩, same⟩
      exact ⟨word, reason, h, same⟩
  simp only [sourceContainsDoctorAllow, List.any_eq_true, Bool.or_eq_true, noded,
    decide_eq_true_eq, Written]

theorem toLower_of_isWhitespace {c : Char} (h : isWhitespace c = true) : c.toLower = c := by
  refine Char.toLower_eq_of_not_isUpper fun upper => ?_
  simp only [Char.isUpper, decide_eq_true_eq, ge_iff_le, UInt32.le_iff_toNat_le] at upper
  have range : 65 ≤ c.val.toNat ∧ c.val.toNat ≤ 90 := upper
  rw [isWhitespace_of_visible (by omega)] at h
  cases h

/-- What stands in front of the first `doctor:allow` of a comment line has the `#`. -/
theorem mark_mem_take {pos : Nat} (comment : (trimStart line).head? = some '#')
    (first : First keyword (lower line) pos) : '#' ∈ line.take pos := by
  obtain ⟨gap, split, blank⟩ := trimStart_decomposition line
  obtain ⟨rest, hrest⟩ := List.head?_eq_some_iff.mp comment
  rw [hrest] at split
  obtain ⟨_, here⟩ := first.1
  have letter : (lower line)[pos]? = some 'd' := by
    rw [← Nat.add_zero pos, ← List.getElem?_drop, ← here]
    rfl
  rw [lower, List.getElem?_map, split] at letter
  obtain ⟨c, hc, same⟩ := Option.map_eq_some_iff.mp letter
  rw [split]
  rcases Nat.lt_trichotomy pos gap.length with inside | rfl | behind
  · rw [List.getElem?_append_left inside] at hc
    have white := blank c (List.mem_of_getElem? hc)
    rw [toLower_of_isWhitespace white] at same
    rw [same] at white
    cases white
  · rw [List.getElem?_append_right (Nat.le_refl _), Nat.sub_self] at hc
    cases hc
    cases same
  · refine List.mem_of_getElem? (i := gap.length) ?_
    rw [List.getElem?_take_of_lt behind, List.getElem?_append_right (Nat.le_refl _), Nat.sub_self]
    rfl

theorem overrun_iff : Overrun line code ↔ Written line code ∧ ¬Commented line code := by
  refine and_congr_right fun written => ?_
  constructor
  · rintro other ⟨word, ⟨pos, first, -, opens⟩, same⟩
    exact other pos word first opens same
  · intro none pos word first opens same
    exact none ⟨word, ⟨pos, first, mark_mem_take written.1 first, opens⟩, same⟩

end Line

/-- The answer is about the waivers of the source if and only if they are spelled as it expects. -/
theorem names_iff (source code : List Char) :
    (sourceContainsDoctorAllow source code = true ↔ Names source code) ↔ Spelled source code := by
  rw [sourceContainsDoctorAllow_iff, Names, Spelled]
  simp only [overrun_iff, Astray]
  by_cases plain : ∃ line ∈ lines source, Noded line code ∨ Written line code ∧ Commented line code
  · refine iff_of_true (iff_of_true ?_ ?_) (.inl plain)
    · obtain ⟨line, mem, noded | ⟨written, -⟩⟩ := plain
      · exact ⟨line, mem, .inr noded⟩
      · exact ⟨line, mem, .inl written⟩
    · obtain ⟨line, mem, noded | ⟨-, commented⟩⟩ := plain
      · exact ⟨line, mem, .inr noded⟩
      · exact ⟨line, mem, .inl commented⟩
  · have neither (line : List Char) (mem : line ∈ lines source) :
        ¬Noded line code ∧ ¬(Written line code ∧ Commented line code) :=
      not_or.mp fun h => plain ⟨line, mem, h⟩
    rw [or_iff_right plain]
    refine iff_congr (exists_congr fun line => and_congr_right fun mem => ?_)
      (exists_congr fun line => and_congr_right fun mem => ?_)
    · obtain ⟨noNode, notBoth⟩ := neither line mem
      rw [or_iff_left noNode]
      exact ⟨fun written => ⟨written, fun commented => notBoth ⟨written, commented⟩⟩, And.left⟩
    · obtain ⟨noNode, notBoth⟩ := neither line mem
      rw [or_iff_left noNode]
      exact ⟨fun commented => ⟨commented, fun written => notBoth ⟨written, commented⟩⟩, And.left⟩

end Lazuli.Doctor
