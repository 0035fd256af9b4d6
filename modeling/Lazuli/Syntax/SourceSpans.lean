import Lazuli.General.Utf8

/-!
Source lines and the positions of spans (`lazuli_syntax/src/parser/common.rs`,
`lazuli_lsp/src/text_utils.rs`).

`sourceLines` gives each line the offsets at which it starts and ends, taking every line break for
one byte. `rangeFromSpan` turns offsets into a line and UTF-16 columns. Behind a line that ends in a
carriage return and a line break the offsets fall short (`exact_iff`).
-/

namespace Lazuli.Syntax.SourceSpans

open Lazuli.General Utf8

structure SourceLine where
  text : List Char
  indent : Nat
  start : Nat
  stop : Nat
  deriving DecidableEq

/-- The lines from an offset on. -/
def sourceLinesFrom (offset : Nat) : List (List Char) → List SourceLine
  | [] => []
  | text :: rest =>
      { text
        indent := (text.takeWhile (· = ' ')).length
        start := offset
        stop := offset + size text } :: sourceLinesFrom (offset + size text + 1) rest

def sourceLines (source : List Char) : List SourceLine := sourceLinesFrom 0 (lines source)

structure Span where
  start : Nat
  stop : Nat
  deriving DecidableEq

structure Position where
  line : Nat
  character : Nat
  deriving DecidableEq

structure Range where
  start : Position
  stop : Position
  deriving DecidableEq

/-- Both numbers are `u32`. -/
def Position.next (p : Position) (c : Char) : Position :=
  if c = '\n' then ⟨(p.line + 1) % 2 ^ 32, 0⟩
  else ⟨p.line, (p.character + utf16Size c) % 2 ^ 32⟩

def positionForOffset (source : List Char) (offset : Nat) : Position :=
  (before source offset).foldl Position.next ⟨0, 0⟩

/-- A span is widened to one byte, and cut at the end of the text. -/
def rangeFromSpan (source : List Char) (span : Span) : Range where
  start := positionForOffset source (min span.start (size source))
  stop := positionForOffset source (min (max span.stop (span.start + 1)) (size source))

/-- **Spans are exact**: the offsets of a line are those of its text, and a span in it has the
number of the line and the columns in its text. -/
def Exact (source : List Char) : Prop :=
  ∀ i line, (sourceLines source)[i]? = some line →
    slice source line.start line.stop = some line.text ∧
      ∀ a m b, line.text = a ++ (m ++ b) → m ≠ [] →
        rangeFromSpan source ⟨line.start + size a, line.start + size (a ++ m)⟩ =
          ⟨⟨i, width a⟩, ⟨i, width (a ++ m)⟩⟩

/-- Behind a carriage return and a line break there are only empty lines. -/
def Aligned (source : List Char) : Prop :=
  ∀ earlier first later, pieces source = earlier ++ first :: later → Crlf first →
    ∀ piece ∈ later, body piece = []

/-- Where there is text, the numbers are `u32` numbers. -/
def Small (source : List Char) : Prop :=
  ∀ i line, (lines source)[i]? = some line → line ≠ [] → i < 2 ^ 32 ∧ width line < 2 ^ 32

/-! ### Positions -/

section Positions

variable {s : List Char} {p : Position}

theorem foldl_next_line (s : List Char) (small : p.line < 2 ^ 32) :
    (s.foldl Position.next p).line = (p.line + s.count '\n') % 2 ^ 32 := by
  induction s generalizing p with
  | nil => exact (Nat.mod_eq_of_lt small).symm
  | cons c s ih =>
      rw [List.foldl_cons, Position.next]
      split
      case isTrue breaks =>
        rw [ih (Nat.mod_lt _ (Nat.two_pow_pos 32)), Nat.mod_add_mod, breaks, List.count_cons_self]
        congr 1
        omega
      case isFalse plain =>
        rw [List.count_cons_of_ne plain]
        exact ih (p := ⟨p.line, _⟩) small

theorem foldl_next_character (one : '\n' ∉ s) (small : p.character < 2 ^ 32) :
    (s.foldl Position.next p).character = (p.character + width s) % 2 ^ 32 := by
  induction s generalizing p with
  | nil => exact (Nat.mod_eq_of_lt small).symm
  | cons c s ih =>
      rw [List.mem_cons, not_or] at one
      rw [List.foldl_cons, Position.next, if_neg (Ne.symm one.1),
        ih one.2 (Nat.mod_lt _ (Nat.two_pow_pos 32)), Nat.mod_add_mod, width_cons, Nat.add_assoc]

/-- The position behind whole lines and the start of another. -/
theorem foldl_next (earlier : List Char) (ends : earlier = [] ∨ ['\n'] <:+ earlier)
    (one : '\n' ∉ s) : (earlier ++ s).foldl Position.next ⟨0, 0⟩ =
      ⟨earlier.count '\n' % 2 ^ 32, width s % 2 ^ 32⟩ := by
  have opens : (earlier.foldl Position.next ⟨0, 0⟩).character = 0 := by
    rcases ends with rfl | ⟨front, rfl⟩
    · rfl
    · rw [List.foldl_append]
      rfl
  have small : (0 : Nat) < 2 ^ 32 := Nat.two_pow_pos 32
  have line := foldl_next_line (p := ⟨0, 0⟩) (earlier ++ s) small
  have character := foldl_next_character (p := earlier.foldl Position.next ⟨0, 0⟩) one
    (opens.trans_lt small)
  rw [List.count_append, List.count_eq_zero.mpr one, Nat.add_zero, Nat.zero_add] at line
  rw [opens, Nat.zero_add, ← List.foldl_append] at character
  cases h : (earlier ++ s).foldl Position.next ⟨0, 0⟩
  rw [h] at line character
  exact congrArg₂ Position.mk line character

end Positions

/-! ### Lines and their offsets -/

section Offsets

variable {source : List Char} {i : Nat} {line : SourceLine} {piece : List Char}
  {earlier later : List (List Char)}

/-- Where a line starts behind others. -/
def offsetBehind (earlier : List (List Char)) : Nat := (earlier.map fun p => size (body p) + 1).sum

/-- A line with the pieces around it. -/
structure Located (source : List Char) (i : Nat) (line : SourceLine)
    (earlier : List (List Char)) (piece : List Char) (later : List (List Char)) : Prop where
  pieces : pieces source = earlier ++ piece :: later
  length : earlier.length = i
  text : line.text = body piece
  start : line.start = offsetBehind earlier
  stop : line.stop = line.start + size line.text

theorem sourceLinesFrom_getElem? {rest : List (List Char)} {offset : Nat}
    (h : (sourceLinesFrom offset (rest.map body))[i]? = some line) :
    ∃ earlier piece later, rest = earlier ++ piece :: later ∧ earlier.length = i ∧
      line.text = body piece ∧ line.start = offset + offsetBehind earlier ∧
        line.stop = line.start + size line.text := by
  induction rest generalizing offset i with
  | nil => cases h
  | cons first rest ih =>
      cases i with
      | zero =>
          obtain rfl := Option.some.inj h
          exact ⟨[], first, rest, rfl, rfl, rfl, rfl, rfl⟩
      | succ i =>
          obtain ⟨earlier, piece, later, rfl, length, text, start, stop⟩ := ih h
          refine ⟨first :: earlier, piece, later, rfl, by simp [length], text, ?_, stop⟩
          rw [start, offsetBehind, offsetBehind, List.map_cons, List.sum_cons]
          omega

theorem located (h : (sourceLines source)[i]? = some line) :
    ∃ earlier piece later, Located source i line earlier piece later := by
  obtain ⟨earlier, piece, later, cut, length, text, start, stop⟩ := sourceLinesFrom_getElem? h
  exact ⟨earlier, piece, later, cut, length, text, start.trans (Nat.zero_add _), stop⟩

theorem Located.source_eq (h : Located source i line earlier piece later) :
    source = earlier.flatten ++ (piece ++ later.flatten) := by
  have whole := flatten_pieces source
  rw [h.pieces, List.flatten_append, List.flatten_cons] at whole
  exact whole.symm

theorem Located.one (h : Located source i line earlier piece later) :
    '\n' ∉ line.text ∧ ∃ ending, piece = line.text ++ ending := by
  have mem : piece ∈ Utf8.pieces source := h.pieces ▸ List.mem_append_right _ List.mem_cons_self
  obtain ⟨one, ⟨-, whole⟩ | ⟨-, whole | ⟨whole, -⟩⟩⟩ := body_cases mem
  · exact ⟨h.text ▸ one, _, h.text ▸ whole⟩
  · exact ⟨h.text ▸ one, _, h.text ▸ whole⟩
  · exact ⟨h.text ▸ one, [], by rw [List.append_nil, h.text]; exact whole⟩

/-- Every piece in front of another has one line break, at its end. -/
theorem flatten_ends (ends : ∀ p ∈ earlier, ['\n'] <:+ p) :
    earlier.flatten = [] ∨ ['\n'] <:+ earlier.flatten := by
  rcases List.eq_nil_or_concat earlier with rfl | ⟨front, last, rfl⟩
  · exact .inl rfl
  · refine .inr ?_
    rw [List.concat_eq_append, List.flatten_append, List.flatten_singleton]
    exact (ends last (by simp)).trans (List.suffix_append _ _)

/-- A piece with its line break. -/
def Closed (p : List Char) : Prop :=
  '\n' ∉ body p ∧ (Crlf p ∧ p = body p ++ ['\r', '\n'] ∨ ¬ Crlf p ∧ p = body p ++ ['\n'])

theorem Located.closed (h : Located source i line earlier piece later) :
    ∀ p ∈ earlier, Closed p := by
  intro p mem
  have ends := ends_of_pieces h.pieces p mem
  obtain ⟨one, crlf | ⟨lf, whole | ⟨whole, -⟩⟩⟩ :=
    body_cases (show p ∈ Utf8.pieces source from h.pieces ▸ List.mem_append_left _ mem)
  · exact ⟨one, .inl crlf⟩
  · exact ⟨one, .inr ⟨lf, whole⟩⟩
  · exact absurd (ends.subset List.mem_cons_self) (whole ▸ one)

theorem Closed.count {p : List Char} (h : Closed p) : p.count '\n' = 1 := by
  have none := List.count_eq_zero.mpr h.1
  obtain ⟨-, ⟨-, whole⟩ | ⟨-, whole⟩⟩ := h
  · rw [whole, List.count_append, none]
    rfl
  · rw [whole, List.count_append, none]
    rfl

theorem Closed.size_eq {p : List Char} (h : Closed p) :
    size p = size (body p) + 1 + if Crlf p then 1 else 0 := by
  obtain ⟨-, ⟨crlf, whole⟩ | ⟨lf, whole⟩⟩ := h
  · rw [if_pos crlf]
    conv_lhs => rw [whole, size_append]
    rfl
  · rw [if_neg lf]
    conv_lhs => rw [whole, size_append]
    rfl

theorem count_flatten (closed : ∀ p ∈ earlier, Closed p) :
    earlier.flatten.count '\n' = earlier.length := by
  induction earlier with
  | nil => rfl
  | cons p earlier ih =>
      obtain ⟨first, closed⟩ := List.forall_mem_cons.mp closed
      rw [List.flatten_cons, List.count_append, first.count, ih closed, List.length_cons,
        Nat.add_comm]

/-- An offset falls short by one for each carriage return. -/
theorem offsetBehind_eq (closed : ∀ p ∈ earlier, Closed p) :
    offsetBehind earlier + earlier.countP (Crlf ·) = size earlier.flatten := by
  induction earlier with
  | nil => rfl
  | cons p earlier ih =>
      obtain ⟨first, closed⟩ := List.forall_mem_cons.mp closed
      have rest := ih closed
      have whole := first.size_eq
      rw [offsetBehind] at rest
      rw [offsetBehind, List.map_cons, List.sum_cons, List.flatten_cons, size_append,
        List.countP_cons, ← rest]
      simp only [decide_eq_true_eq]
      omega

theorem Located.start_eq (h : Located source i line earlier piece later)
    (lf : ∀ p ∈ earlier, ¬ Crlf p) : line.start = size earlier.flatten := by
  have none : earlier.countP (Crlf ·) = 0 := List.countP_eq_zero.mpr fun p mem => by
    simpa using lf p mem
  have offsets := offsetBehind_eq h.closed
  rw [none, Nat.add_zero] at offsets
  exact h.start.trans offsets

/-! ### Lines in front of which only line breaks stand -/

theorem Located.slice_eq (h : Located source i line earlier piece later)
    (lf : ∀ p ∈ earlier, ¬ Crlf p) : slice source line.start line.stop = some line.text := by
  obtain ⟨-, ending, whole⟩ := h.one
  rw [h.stop, h.start_eq lf, ← size_append]
  conv_lhs => rw [h.source_eq, whole, List.append_assoc]
  exact slice_size _ _ _

theorem Located.position_eq (h : Located source i line earlier piece later)
    (lf : ∀ p ∈ earlier, ¬ Crlf p) {a b : List Char} (split : line.text = a ++ b) :
    positionForOffset source (line.start + size a) = ⟨i % 2 ^ 32, width a % 2 ^ 32⟩ := by
  obtain ⟨one, ending, whole⟩ := h.one
  rw [split, List.mem_append, not_or] at one
  have cut : source = (earlier.flatten ++ a) ++ (b ++ (ending ++ later.flatten)) := by
    conv_lhs => rw [h.source_eq, whole, split]
    simp only [List.append_assoc]
  rw [positionForOffset, h.start_eq lf, ← size_append]
  conv_lhs => rw [cut, before_append]
  rw [foldl_next _ (flatten_ends (ends_of_pieces h.pieces)) one.1, count_flatten h.closed, h.length]

theorem Located.range_eq (h : Located source i line earlier piece later)
    (lf : ∀ p ∈ earlier, ¬ Crlf p) {a m b : List Char} (split : line.text = a ++ (m ++ b))
    (some : m ≠ []) :
    rangeFromSpan source ⟨line.start + size a, line.start + size (a ++ m)⟩ =
      ⟨⟨i % 2 ^ 32, width a % 2 ^ 32⟩, ⟨i % 2 ^ 32, width (a ++ m) % 2 ^ 32⟩⟩ := by
  obtain ⟨-, ending, whole⟩ := h.one
  have total := congrArg size h.source_eq
  have pos := size_pos some
  rw [whole, split, size_append, ← h.start_eq lf] at total
  simp only [size_append] at total
  have stop : min (max (line.start + size (a ++ m)) (line.start + size a + 1)) (size source) =
      line.start + size (a ++ m) := by
    rw [size_append]
    omega
  have start : min (line.start + size a) (size source) = line.start + size a := by omega
  simp only [rangeFromSpan, start, stop]
  rw [h.position_eq lf split,
    h.position_eq lf (a := a ++ m) (b := b) (by rw [split, List.append_assoc])]

/-! ### Lines behind a carriage return -/

theorem size_of_single {s : List Char} (single : ∀ c ∈ s, c.utf8Size = 1) : size s = s.length := by
  induction s with
  | nil => rfl
  | cons c s ih =>
      obtain ⟨first, rest⟩ := List.forall_mem_cons.mp single
      rw [size_cons, first, ih rest, List.length_cons, Nat.add_comm]

/-- Line breaks with nothing in between. -/
theorem flatten_of_empty {behind : List (List Char)} (closed : ∀ p ∈ behind, Closed p)
    (empty : ∀ p ∈ behind, body p = []) :
    offsetBehind behind = behind.length ∧ (∀ c ∈ behind.flatten, c.utf8Size = 1) ∧
      behind.length ≤ behind.flatten.length := by
  induction behind with
  | nil => exact ⟨rfl, by simp, le_rfl⟩
  | cons p behind ih =>
      obtain ⟨first, closed⟩ := List.forall_mem_cons.mp closed
      obtain ⟨none, empty⟩ := List.forall_mem_cons.mp empty
      obtain ⟨offset, single, short⟩ := ih closed empty
      have breaks : p = ['\r', '\n'] ∨ p = ['\n'] := by
        obtain ⟨-, ⟨-, whole⟩ | ⟨-, whole⟩⟩ := first
        · rw [none] at whole
          exact .inl whole
        · rw [none] at whole
          exact .inr whole
      refine ⟨?_, ?_, ?_⟩
      · rw [offsetBehind] at offset
        rw [offsetBehind, List.map_cons, List.sum_cons, none, offset, size_nil, List.length_cons]
        omega
      · rw [List.flatten_cons]
        refine List.forall_mem_append.mpr ⟨?_, single⟩
        rcases breaks with rfl | rfl
        · exact List.forall_mem_cons.mpr ⟨rfl, List.forall_mem_singleton.mpr rfl⟩
        · exact List.forall_mem_singleton.mpr rfl
      · rw [List.flatten_cons, List.length_append, List.length_cons]
        rcases breaks with rfl | rfl <;> simp only [List.length_cons, List.length_nil] <;> omega

theorem Located.slice_empty (h : Located source i line earlier piece later)
    (aligned : Aligned source) (crlf : ∃ p ∈ earlier, Crlf p) :
    line.text = [] ∧ slice source line.start line.stop = some [] := by
  obtain ⟨p, mem, returns⟩ := crlf
  obtain ⟨first, found⟩ : ∃ first, earlier.find? (Crlf ·) = some first :=
    Option.isSome_iff_exists.mp (List.find?_isSome.mpr ⟨p, mem, by simpa using returns⟩)
  obtain ⟨returns, front, behind, rfl, lf⟩ := List.find?_eq_some_iff_append.mp found
  have empty := aligned front first (behind ++ piece :: later) (by rw [h.pieces]; simp)
    (by simpa using returns)
  have closed := h.closed
  obtain ⟨closedFront, closedFirst, closedBehind⟩ :
      (∀ p ∈ front, Closed p) ∧ Closed first ∧ ∀ p ∈ behind, Closed p := by
    simpa [or_imp, forall_and] using closed
  have blank : line.text = [] :=
    h.text.trans (empty piece (List.mem_append_right _ List.mem_cons_self))
  obtain ⟨offset, single, short⟩ := flatten_of_empty closedBehind fun p mem =>
    empty p (List.mem_append_left _ mem)
  refine ⟨blank, ?_⟩
  -- the line starts one byte early for each carriage return, still among the line breaks
  have whole : first = body first ++ ['\r', '\n'] := by
    obtain ⟨-, ⟨-, whole⟩ | ⟨none, -⟩⟩ := closedFirst
    · exact whole
    · exact absurd (by simpa using returns) none
  set breaks := '\r' :: '\n' :: behind.flatten with hbreaks
  have start : line.start =
      size (front.flatten ++ (body first ++ breaks.take (1 + behind.length))) := by
    have none : front.countP (Crlf ·) = 0 := List.countP_eq_zero.mpr fun p mem => by
      simpa using lf p mem
    have offsets := offsetBehind_eq closedFront
    have taken : size (breaks.take (1 + behind.length)) = 1 + behind.length := by
      rw [size_of_single, List.length_take, hbreaks, List.length_cons, List.length_cons]
      · omega
      · intro c mem
        rcases List.mem_cons.mp (List.mem_of_mem_take mem) with rfl | mem
        · rfl
        · rcases List.mem_cons.mp mem with rfl | mem
          · rfl
          · exact single c mem
    have sum : offsetBehind (front ++ first :: behind) =
        offsetBehind front + (size (body first) + 1 + offsetBehind behind) := by
      simp [offsetBehind]
    rw [h.start, sum, offset, size_append, size_append, taken, ← offsets, none]
    omega
  have cut : source = (front.flatten ++ (body first ++ breaks.take (1 + behind.length))) ++
      ([] ++ (breaks.drop (1 + behind.length) ++ (piece ++ later.flatten))) := by
    conv_lhs => rw [h.source_eq, List.flatten_append, List.flatten_cons, whole]
    simp only [List.append_assoc, List.nil_append, List.cons_append, hbreaks]
    rw [← List.append_assoc (List.take _ _), List.take_append_drop]
    rfl
  rw [h.stop, blank, size_nil, Nat.add_zero, start]
  conv_lhs => rw [cut]
  have piece := slice_size (front.flatten ++ (body first ++ breaks.take (1 + behind.length))) []
    (breaks.drop (1 + behind.length) ++ (piece ++ later.flatten))
  rwa [List.append_nil (_ ++ _)] at piece

/-! ### Exact spans -/

theorem length_sourceLinesFrom (offset : Nat) (texts : List (List Char)) :
    (sourceLinesFrom offset texts).length = texts.length := by
  induction texts generalizing offset with
  | nil => rfl
  | cons text texts ih => rw [sourceLinesFrom, List.length_cons, List.length_cons, ih]

theorem exists_located (cut : Utf8.pieces source = earlier ++ piece :: later) :
    ∃ line, (sourceLines source)[earlier.length]? = some line ∧
      Located source earlier.length line earlier piece later := by
  have inside : earlier.length < (sourceLines source).length := by
    rw [sourceLines, length_sourceLinesFrom, lines, List.length_map, cut, List.length_append,
      List.length_cons]
    omega
  obtain ⟨line, found⟩ : ∃ line, (sourceLines source)[earlier.length]? = some line :=
    ⟨_, List.getElem?_eq_getElem inside⟩
  obtain ⟨front, mid, behind, at_⟩ := located found
  obtain ⟨rfl, rest⟩ := List.append_inj (at_.pieces.symm.trans cut) at_.length
  obtain ⟨rfl, rfl⟩ := List.cons.inj rest
  exact ⟨line, found, at_⟩

/-- Behind a carriage return, a line starts in front of the line break before it. -/
theorem Located.early (h : Located source i line earlier piece later)
    (crlf : ∃ p ∈ earlier, Crlf p) (offset : Nat) (le : offset ≤ line.start) :
    (positionForOffset source offset).line < i := by
  obtain ⟨p, mem, returns⟩ := crlf
  have some : 0 < earlier.countP (Crlf ·) :=
    List.countP_pos_iff.mpr ⟨p, mem, by simpa using returns⟩
  have short := offsetBehind_eq h.closed
  have count := count_flatten h.closed
  rw [h.length] at count
  rcases flatten_ends (ends_of_pieces h.pieces) with none | ⟨front, split⟩
  · rw [none, size_nil] at short
    omega
  · have cut : source = front ++ '\n' :: (piece ++ later.flatten) := by
      conv_lhs => rw [h.source_eq, ← split]
      simp
    have inside : offset ≤ size front := by
      rw [← split, size_append] at short
      have : size ['\n'] = 1 := rfl
      have := h.start
      omega
    have seen : (before source offset).count '\n' ≤ front.count '\n' := by
      conv_lhs => rw [cut]
      exact (before_prefix_of_le front '\n' _ inside).sublist.count_le _
    rw [← split, List.count_append] at count
    have one : ['\n'].count '\n' = 1 := rfl
    rw [positionForOffset, foldl_next_line _ (Nat.two_pow_pos 32), Nat.zero_add]
    have := Nat.mod_le ((before source offset).count '\n') (2 ^ 32)
    omega

theorem Exact.aligned (h : Exact source) : Aligned source := by
  intro earlier first later cut returns piece mem
  by_contra some
  obtain ⟨front, behind, rfl⟩ := List.append_of_mem mem
  have again : Utf8.pieces source = (earlier ++ first :: front) ++ piece :: behind := by
    rw [cut, List.append_assoc, List.cons_append]
  obtain ⟨line, found, at_⟩ := exists_located again
  have range := (h _ line found).2 [] line.text [] (by simp) (at_.text ▸ some)
  have number := congrArg (·.start.line) range
  have early := at_.early ⟨first, by simp, returns⟩ (min (line.start + size []) (size source))
    (min_le_left _ _)
  exact absurd number early.ne

theorem Located.lf (h : Located source i line earlier piece later) (aligned : Aligned source)
    (some : line.text ≠ []) : ∀ p ∈ earlier, ¬ Crlf p := by
  intro p mem returns
  exact some (h.slice_empty aligned ⟨p, mem, returns⟩).1

theorem Exact.small (h : Exact source) : Small source := by
  intro i text found some
  rw [lines, List.getElem?_map, Option.map_eq_some_iff] at found
  obtain ⟨piece, found, rfl⟩ := found
  obtain ⟨inside, same⟩ := List.getElem?_eq_some_iff.mp found
  have cut : Utf8.pieces source = (Utf8.pieces source).take i ++ piece ::
      (Utf8.pieces source).drop (i + 1) := by
    rw [← same, List.getElem_cons_drop, List.take_append_drop]
  obtain ⟨line, found, at_⟩ := exists_located cut
  have length : ((Utf8.pieces source).take i).length = i :=
    List.length_take_of_le (Nat.le_of_lt inside)
  rw [length] at found at_
  rw [← at_.text] at some ⊢
  have split : line.text = [] ++ (line.text ++ []) := by simp
  have range := (h i line found).2 [] line.text [] split some
  rw [at_.range_eq (at_.lf h.aligned some) split some] at range
  have number : i % 2 ^ 32 = i := congrArg (·.start.line) range
  have column : width line.text % 2 ^ 32 = width line.text :=
    congrArg (·.stop.character) range
  exact ⟨number ▸ Nat.mod_lt _ (Nat.two_pow_pos 32), column ▸ Nat.mod_lt _ (Nat.two_pow_pos 32)⟩

/-- **Spans are exact** just when behind a carriage return and a line break there is no text. -/
theorem spans_exact_iff (source : List Char) : Exact source ↔ Aligned source ∧ Small source := by
  refine ⟨fun h => ⟨h.aligned, h.small⟩, ?_⟩
  rintro ⟨aligned, small⟩ i line found
  obtain ⟨earlier, piece, later, at_⟩ := located found
  by_cases crlf : ∃ p ∈ earlier, Crlf p
  · obtain ⟨blank, slice⟩ := at_.slice_empty aligned crlf
    refine ⟨blank ▸ slice, fun a m b split some => ?_⟩
    rw [blank] at split
    exact absurd (List.append_eq_nil_iff.mp (List.append_eq_nil_iff.mp split.symm).2).1 some
  · have lf : ∀ p ∈ earlier, ¬ Crlf p := fun p mem returns => crlf ⟨p, mem, returns⟩
    refine ⟨at_.slice_eq lf, fun a m b split some => ?_⟩
    have text : (lines source)[i]? = .some line.text := by
      rw [lines, at_.pieces, List.getElem?_map, ← at_.length, List.getElem?_append_right le_rfl,
        Nat.sub_self, at_.text]
      rfl
    obtain ⟨number, column⟩ := small i line.text text fun none => by
      rw [none] at split
      exact some (List.append_eq_nil_iff.mp (List.append_eq_nil_iff.mp split.symm).2).1
    rw [split, width_append, width_append] at column
    rw [at_.range_eq lf split some, Nat.mod_eq_of_lt number, Nat.mod_eq_of_lt (by omega),
      Nat.mod_eq_of_lt (by rw [width_append]; omega)]

end Offsets

/-- The second of two lines that end like under Windows. -/
def twoLines : List Char := "a\r\nb".toList

theorem second_line_early :
    (sourceLines twoLines).map (fun line => slice twoLines line.start line.stop) =
        [some ['a'], some ['\n']] ∧ ¬ ∀ source, Exact source := by
  refine ⟨rfl, fun exact => ?_⟩
  have slices := (exact twoLines 1 ⟨['b'], 0, 2, 3⟩ rfl).1
  cases slices

end Lazuli.Syntax.SourceSpans
