import Mathlib

/-!
The bytes of a text, its UTF-16 units and its lines.

An offset into a text counts bytes (`size`), a column UTF-16 units (`width`). `slice` is a piece of
a text between two offsets, if both lie between characters. `pieces` cuts a text behind every line
break, and `body` is a piece without it: a carriage return in front of the line break belongs to it.
-/

namespace Lazuli.General.Utf8

/-- The number of bytes. -/
def size (s : List Char) : Nat := (s.map Char.utf8Size).sum

/-- `len_utf16`. -/
def utf16Size (c : Char) : Nat := if c.toNat < 0x10000 then 1 else 2

/-- The number of UTF-16 units. -/
def width (s : List Char) : Nat := (s.map utf16Size).sum

/-- The bytes of a text. -/
def encode (s : List Char) : List UInt8 := s.flatMap String.utf8EncodeChar

variable {s t a b m : List Char} {c : Char} {n i : Nat}

/-- Bytes begin with those of a text where the text begins. -/
theorem encode_prefix_iff : encode s <+: encode t ↔ s <+: t := by
  constructor
  · rintro ⟨rest, h⟩
    refine List.isPrefix_of_utf8Encode_append_eq_utf8Encode rest.toByteArray ?_
    rw [List.utf8Encode, List.utf8Encode, ← List.toByteArray_append]
    exact congrArg List.toByteArray h
  · rintro ⟨rest, rfl⟩
    exact ⟨encode rest, List.flatMap_append.symm⟩

@[simp] theorem size_nil : size [] = 0 := rfl

@[simp] theorem size_cons : size (c :: s) = c.utf8Size + size s := rfl

@[simp] theorem size_append : size (s ++ t) = size s + size t := by
  simp [size]

@[simp] theorem width_nil : width [] = 0 := rfl

@[simp] theorem width_cons : width (c :: s) = utf16Size c + width s := rfl

@[simp] theorem width_append : width (s ++ t) = width s + width t := by
  simp [width]

theorem size_pos (h : s ≠ []) : 0 < size s := by
  cases s with
  | nil => exact absurd rfl h
  | cons c s =>
      have := c.utf8Size_pos
      rw [size_cons]
      omega

theorem utf16Size_le (c : Char) : utf16Size c ≤ c.utf8Size ∧
    (utf16Size c = c.utf8Size ↔ c.utf8Size = 1) := by
  have positive := c.utf8Size_pos
  rw [utf16Size]
  split
  · omega
  · next big =>
      have four : c.utf8Size = 4 :=
        Char.utf8Size_eq_four_iff.mpr (UInt32.lt_iff_toNat_lt.mpr (Nat.not_lt.mp big))
      omega

theorem width_le_size (s : List Char) : width s ≤ size s := by
  induction s with
  | nil => exact Nat.le_refl _
  | cons c s ih => exact Nat.add_le_add (utf16Size_le c).1 ih

/-- Bytes and UTF-16 units are as many in ASCII texts only. -/
theorem size_eq_width_iff (s : List Char) : size s = width s ↔ ∀ c ∈ s, c.utf8Size = 1 := by
  induction s with
  | nil => simp
  | cons c s ih =>
      obtain ⟨hle, heq⟩ := utf16Size_le c
      have := width_le_size s
      rw [size_cons, width_cons, List.forall_mem_cons, ← ih, ← heq]
      omega

theorem width_le_of_prefix (h : s <+: t) : width s ≤ width t := by
  obtain ⟨rest, rfl⟩ := h
  rw [width_append]
  exact Nat.le_add_right _ _

theorem size_le_of_prefix (h : s <+: t) : size s ≤ size t := by
  obtain ⟨u, rfl⟩ := h
  rw [size_append]
  exact Nat.le_add_right _ _

/-! ### Offsets -/

/-- The text in front of an offset and behind it, if it lies between characters. -/
def splitAt : List Char → Nat → Option (List Char × List Char)
  | s, 0 => some ([], s)
  | [], _ + 1 => none
  | c :: s, n + 1 =>
      if c.utf8Size ≤ n + 1 then
        (splitAt s (n + 1 - c.utf8Size)).map fun parts => (c :: parts.1, parts.2)
      else none

/-- `s[start..stop]`. -/
def slice (s : List Char) (start stop : Nat) : Option (List Char) := do
  let (front, _) ← splitAt s stop
  let (_, piece) ← splitAt front start
  some piece

theorem splitAt_cons (c : Char) (s : List Char) (n : Nat) :
    splitAt (c :: s) (c.utf8Size + n) = (splitAt s n).map fun parts => (c :: parts.1, parts.2) := by
  obtain ⟨k, hk⟩ := Nat.exists_eq_succ_of_ne_zero (Nat.ne_of_gt c.utf8Size_pos)
  have split : c.utf8Size + n = k + n + 1 := by omega
  rw [split, splitAt, if_pos (by omega)]
  congr 2
  omega

theorem splitAt_size (s t : List Char) : splitAt (s ++ t) (size s) = some (s, t) := by
  induction s with
  | nil => cases t <;> rfl
  | cons c s ih => rw [List.cons_append, size_cons, splitAt_cons, ih, Option.map_some]

theorem slice_size (a m b : List Char) :
    slice (a ++ (m ++ b)) (size a) (size (a ++ m)) = some m := by
  unfold slice
  rw [← List.append_assoc, splitAt_size]
  simp only [Option.bind_eq_bind, Option.bind_some]
  rw [splitAt_size]
  rfl

/-! ### Characters with their offsets -/

/-- `char_indices`, from an offset on. -/
def charIndicesFrom : Nat → List Char → List (Nat × Char)
  | _, [] => []
  | i, c :: s => (i, c) :: charIndicesFrom (i + c.utf8Size) s

def charIndices (s : List Char) : List (Nat × Char) := charIndicesFrom 0 s

theorem charIndicesFrom_append (i : Nat) (s t : List Char) :
    charIndicesFrom i (s ++ t) = charIndicesFrom i s ++ charIndicesFrom (i + size s) t := by
  induction s generalizing i with
  | nil => rfl
  | cons c s ih =>
      rw [List.cons_append, charIndicesFrom, charIndicesFrom, ih, size_cons, Nat.add_assoc]
      rfl

theorem map_snd_charIndicesFrom (i : Nat) (s : List Char) :
    (charIndicesFrom i s).map (·.2) = s := by
  induction s generalizing i with
  | nil => rfl
  | cons c s ih => rw [charIndicesFrom, List.map_cons, ih]

theorem lt_of_mem_charIndicesFrom {p : Nat × Char} (h : p ∈ charIndicesFrom i s) :
    i ≤ p.1 ∧ p.1 < i + size s := by
  induction s generalizing i with
  | nil => cases h
  | cons c s ih =>
      have := c.utf8Size_pos
      rcases List.mem_cons.mp h with rfl | h
      · simp only [size_cons]
        omega
      · have := ih h
        rw [size_cons]
        omega

/-- The characters in front of an offset. -/
def before (s : List Char) (offset : Nat) : List Char :=
  ((charIndices s).takeWhile (·.1 < offset)).map (·.2)

theorem before_append (s t : List Char) : before (s ++ t) (size s) = s := by
  have front : ∀ p ∈ charIndicesFrom 0 s, decide (p.1 < size s) = true := fun p mem => by
    simpa using (lt_of_mem_charIndicesFrom mem).2
  have stops : (charIndicesFrom (0 + size s) t).takeWhile (·.1 < size s) = [] := by
    cases t with
    | nil => rfl
    | cons c t => exact List.takeWhile_cons_of_neg (by simp)
  rw [before, charIndices, charIndicesFrom_append, List.takeWhile_append_of_pos front, stops,
    List.append_nil, map_snd_charIndicesFrom]

/-- A later offset has more in front of it. -/
theorem before_mono (s : List Char) {offset later : Nat} (h : offset ≤ later) :
    before s offset <+: before s later := by
  have both : (charIndices s).takeWhile (·.1 < offset) =
      ((charIndices s).takeWhile (·.1 < later)).takeWhile (·.1 < offset) := by
    rw [List.takeWhile_takeWhile]
    refine congrArg (fun p => (charIndices s).takeWhile p) (funext fun e => ?_)
    rw [decide_eq_decide, decide_eq_true_eq, decide_eq_true_eq]
    omega
  rw [before, both]
  exact (List.takeWhile_prefix _).map _

/-- A character at or behind the offset is not in front of it. -/
theorem before_prefix_of_le (s : List Char) (c : Char) (t : List Char) {offset : Nat}
    (h : offset ≤ size s) : before (s ++ c :: t) offset <+: s := by
  have stops : ((size s, c) :: charIndicesFrom (size s + c.utf8Size) t).takeWhile
      (·.1 < offset) = [] := List.takeWhile_cons_of_neg (by simpa using h)
  have front : (charIndices (s ++ c :: t)).takeWhile (·.1 < offset) <+: charIndicesFrom 0 s := by
    rw [charIndices, charIndicesFrom_append, Nat.zero_add, charIndicesFrom, List.takeWhile_append,
      stops]
    split
    · rw [List.append_nil]
    · exact List.takeWhile_prefix _
  conv_rhs => rw [← map_snd_charIndicesFrom 0 s]
  exact front.map _

/-! ### Lines -/

/-- `split_inclusive`: cut behind every line break. -/
def pieces : List Char → List (List Char)
  | [] => []
  | c :: s =>
      if c = '\n' then [c] :: pieces s
      else
        match pieces s with
        | [] => [[c]]
        | piece :: rest => (c :: piece) :: rest

/-- A piece that ends in a carriage return and a line break. -/
def Crlf (piece : List Char) : Prop := ['\r', '\n'] <:+ piece

instance (piece : List Char) : Decidable (Crlf piece) := inferInstanceAs (Decidable (_ <:+ _))

/-- Without the line break at the end, and the carriage return in front of it. -/
def body (piece : List Char) : List Char :=
  if Crlf piece then piece.dropLast.dropLast
  else if ['\n'] <:+ piece then piece.dropLast
  else piece

/-- `str::lines`. -/
def lines (s : List Char) : List (List Char) := (pieces s).map body

theorem flatten_pieces (s : List Char) : (pieces s).flatten = s := by
  induction s with
  | nil => rfl
  | cons c s ih =>
      rw [pieces]
      split
      · rw [List.flatten_cons, ih]
        rfl
      · split
        · rename_i none
          rw [none] at ih
          rw [← ih]
          rfl
        · rename_i piece rest some
          rw [some] at ih
          rw [List.flatten_cons, List.cons_append, ← List.flatten_cons, ih]

variable {piece : List Char}

/-- A piece has one line break at its end, or is the last one and has none. -/
theorem pieces_cases (h : piece ∈ pieces s) :
    ∃ line, '\n' ∉ line ∧ (piece = line ++ ['\n'] ∨ piece = line ∧ line ≠ []) := by
  induction s generalizing piece with
  | nil => cases h
  | cons c s ih =>
      rw [pieces] at h
      split at h
      case isTrue breaks =>
        subst breaks
        rcases List.mem_cons.mp h with rfl | h
        · exact ⟨[], List.not_mem_nil, .inl rfl⟩
        · exact ih h
      case isFalse plain =>
        split at h
        · obtain rfl := List.mem_singleton.mp h
          exact ⟨[c], by simpa using Ne.symm plain, .inr ⟨rfl, List.cons_ne_nil _ _⟩⟩
        · rename_i first rest some
          rcases List.mem_cons.mp h with rfl | h
          · obtain ⟨line, one, rfl | ⟨rfl, -⟩⟩ := ih (some ▸ List.mem_cons_self)
            · exact ⟨c :: line, by simpa [Ne.symm plain] using one, .inl rfl⟩
            · exact ⟨c :: first, by simpa [Ne.symm plain] using one,
                .inr ⟨rfl, List.cons_ne_nil _ _⟩⟩
          · exact ih (some ▸ List.mem_cons_of_mem _ h)

/-- Only the last piece may lack a line break. -/
theorem ends_of_pieces {earlier later : List (List Char)}
    (h : pieces s = earlier ++ piece :: later) : ∀ p ∈ earlier, ['\n'] <:+ p := by
  induction s generalizing earlier with
  | nil => exact absurd h.symm (List.append_ne_nil_of_right_ne_nil _ (List.cons_ne_nil _ _))
  | cons c s ih =>
      intro p mem
      cases earlier with
      | nil => cases mem
      | cons first earlier =>
          rw [pieces] at h
          split at h
          case isTrue breaks =>
            obtain ⟨rfl, rest⟩ := List.cons.inj h
            rcases List.mem_cons.mp mem with rfl | mem
            · rw [breaks]
            · exact ih rest p mem
          case isFalse plain =>
            split at h
            · obtain ⟨-, none⟩ := List.cons.inj h
              exact absurd none.symm (List.append_ne_nil_of_right_ne_nil _ (List.cons_ne_nil _ _))
            · rename_i q rest some
              obtain ⟨rfl, rest⟩ := List.cons.inj h
              subst rest
              have inner : ∀ p ∈ q :: earlier, ['\n'] <:+ p := ih some
              rcases List.mem_cons.mp mem with rfl | mem
              · exact (inner q List.mem_cons_self).trans (List.suffix_cons c q)
              · exact inner p (List.mem_cons_of_mem _ mem)

section Body

variable {line : List Char}

theorem body_crlf (line : List Char) : body (line ++ ['\r', '\n']) = line := by
  have crlf : Crlf (line ++ ['\r', '\n']) := List.suffix_append _ _
  rw [body, if_pos crlf]
  simp

theorem body_lf (plain : ¬ Crlf (line ++ ['\n'])) : body (line ++ ['\n']) = line := by
  rw [body, if_neg plain, if_pos (List.suffix_append _ _)]
  simp

theorem body_open (one : '\n' ∉ line) : body line = line := by
  have none : ¬ ['\n'] <:+ line := fun ends => one (ends.subset List.mem_cons_self)
  have none' : ¬ Crlf line := fun ends =>
    one (ends.subset (List.mem_cons_of_mem _ List.mem_cons_self))
  rw [body, if_neg none', if_neg none]

/-- A piece and the line in it. -/
theorem body_cases (h : piece ∈ pieces s) : '\n' ∉ body piece ∧
    (Crlf piece ∧ piece = body piece ++ ['\r', '\n'] ∨
      ¬ Crlf piece ∧ (piece = body piece ++ ['\n'] ∨ piece = body piece ∧ body piece ≠ [])) := by
  obtain ⟨line, one, rfl | ⟨rfl, some⟩⟩ := pieces_cases h
  · by_cases crlf : Crlf (line ++ ['\n'])
    · obtain ⟨front, split⟩ := crlf
      obtain rfl : front ++ ['\r'] = line := by
        have cut := congrArg List.dropLast split
        simpa using cut
      rw [List.append_assoc, List.singleton_append, body_crlf]
      exact ⟨fun mem => one (List.mem_append_left _ mem), .inl ⟨List.suffix_append _ _, rfl⟩⟩
    · rw [body_lf crlf]
      exact ⟨one, .inr ⟨crlf, .inl rfl⟩⟩
  · rw [body_open one]
    refine ⟨one, .inr ⟨fun crlf => ?_, .inr ⟨rfl, some⟩⟩⟩
    exact one (crlf.subset (List.mem_cons_of_mem _ List.mem_cons_self))

end Body

theorem body_initial (piece : List Char) : body piece <+: piece := by
  rw [body]
  split
  · exact (List.dropLast_prefix _).trans (List.dropLast_prefix _)
  · split
    · exact List.dropLast_prefix _
    · exact List.prefix_rfl

/-- A line is no longer than the text. -/
theorem size_line_le {line : List Char} (h : line ∈ lines s) : size line ≤ size s := by
  obtain ⟨piece, hpiece, rfl⟩ := List.mem_map.mp h
  have short : size (body piece) ≤ size piece := size_le_of_prefix (body_initial piece)
  refine short.trans ?_
  obtain ⟨before, behind, split⟩ := List.append_of_mem hpiece
  rw [← flatten_pieces s, split, List.flatten_append, List.flatten_cons, size_append, size_append]
  omega

/-- There are no more lines than characters. -/
theorem length_lines_le (s : List Char) : (lines s).length ≤ size s := by
  have each : ∀ ps : List (List Char), (∀ p ∈ ps, p ≠ []) → ps.length ≤ size ps.flatten := by
    intro ps hps
    induction ps with
    | nil => exact Nat.le_refl _
    | cons p ps ih =>
        have := size_pos (hps p List.mem_cons_self)
        have := ih fun q hq => hps q (List.mem_cons_of_mem _ hq)
        rw [List.flatten_cons, size_append, List.length_cons]
        omega
  have whole := each (pieces s) fun p hp => by
    obtain ⟨line, -, rfl | ⟨rfl, hne⟩⟩ := pieces_cases hp
    · exact List.append_ne_nil_of_right_ne_nil _ (List.cons_ne_nil _ _)
    · exact hne
  rwa [flatten_pieces, ← List.length_map (f := body)] at whole

end Lazuli.General.Utf8
