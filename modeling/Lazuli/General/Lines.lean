import Mathlib
import Lazuli.General.Text

/-!
Lines and words.

A text is cut into lines at line breaks, and a line into words at white space. Lines that were
written one below the other are read back, and so are words with white space between them;
`before` cuts a line at a mark of two characters.
-/

namespace Lazuli.General.Lines

open Text (isWhitespace)

variable {s t : List Char} {c : Char}

/-! ### Words -/

/-- The runs of characters that are no white space. -/
def words (s : List Char) : List (List Char) :=
  (s.splitOnP isWhitespace).filter fun w => !w.isEmpty

theorem words_append (hc : isWhitespace c = true) (s t : List Char) :
    words (s ++ c :: t) = words s ++ words t := by
  rw [words, List.splitOnP_append_cons _ _ hc, List.filter_append]
  rfl

/-- A character of white space on its own. -/
theorem words_cons (hc : isWhitespace c = true) (s : List Char) : words (c :: s) = words s :=
  words_append hc [] s

theorem words_of_forall (hne : s ≠ []) (hs : ∀ a ∈ s, isWhitespace a = false) : words s = [s] := by
  rw [words, List.splitOnP_eq_singleton hs]
  simp [hne]

/-- White space in front of the words. -/
theorem words_append_of_forall {gap : List Char} (h : ∀ a ∈ gap, isWhitespace a = true)
    (s : List Char) : words (gap ++ s) = words s := by
  induction gap with
  | nil => rfl
  | cons a gap ih =>
      rw [List.cons_append, words_cons (h a List.mem_cons_self)]
      exact ih fun b hb => h b (List.mem_cons_of_mem _ hb)

/-- The text begins with this word, behind white space. -/
def Opens (word s : List Char) : Prop :=
  ∃ gap rest, s = gap ++ (word ++ rest) ∧ (∀ a ∈ gap, isWhitespace a = true) ∧
    (word ≠ [] ∧ ∀ a ∈ word, isWhitespace a = false) ∧ ∀ a ∈ rest.head?, isWhitespace a = true

theorem Opens.head?_words {word : List Char} (h : Opens word s) :
    (words s).head? = some word := by
  obtain ⟨gap, rest, rfl, blank, ⟨hne, solid⟩, ends⟩ := h
  rw [words_append_of_forall blank]
  cases rest with
  | nil =>
      rw [List.append_nil, words_of_forall hne solid]
      rfl
  | cons a rest =>
      rw [words_append (ends a rfl), words_of_forall hne solid]
      rfl

theorem head?_words_eq_some_iff {word : List Char} :
    (words s).head? = some word ↔ Opens word s := by
  refine ⟨fun h => ?_, Opens.head?_words⟩
  have gap : ∀ a ∈ s.takeWhile isWhitespace, isWhitespace a = true :=
    fun a ha => List.mem_takeWhile_imp ha
  cases rest : s.dropWhile isWhitespace with
  | nil =>
      rw [← List.takeWhile_append_dropWhile (p := isWhitespace) (l := s), rest,
        words_append_of_forall gap] at h
      cases h
  | cons a t =>
      have solid : isWhitespace a = false := by
        have first := List.head?_dropWhile_not isWhitespace s
        rw [rest] at first
        simpa using first
      have opens : Opens ((a :: t).takeWhile (!isWhitespace ·)) s := by
        refine ⟨_, (a :: t).dropWhile (!isWhitespace ·), ?_, gap, ⟨?_, ?_⟩, ?_⟩
        · rw [List.takeWhile_append_dropWhile, ← rest, List.takeWhile_append_dropWhile]
        · simp [solid]
        · intro b hb
          simpa using List.mem_takeWhile_imp hb
        · intro b hb
          have next := List.head?_dropWhile_not (!isWhitespace ·) (a :: t)
          rw [hb] at next
          simpa using next
      have same := opens.head?_words
      rw [h] at same
      rwa [Option.some.inj same]

theorem words_intercalate {ws : List (List Char)}
    (h : ∀ w ∈ ws, w ≠ [] ∧ ∀ a ∈ w, isWhitespace a = false) :
    words ([' '].intercalate ws) = ws := by
  induction ws with
  | nil => rfl
  | cons w ws ih =>
      obtain ⟨hne, hw⟩ := h w List.mem_cons_self
      have ih := ih fun v hv => h v (List.mem_cons_of_mem _ hv)
      cases ws with
      | nil => simpa using words_of_forall hne hw
      | cons v ws =>
          have htext : [' '].intercalate (w :: v :: ws) =
              w ++ ' ' :: [' '].intercalate (v :: ws) := by
            rw [List.intercalate_cons_cons]
            simp
          rw [htext, words_append rfl, words_of_forall hne hw, ih]
          rfl

/-- What is put behind the last word is put behind the text. -/
theorem intercalate_concat_append {α : Type*} (sep last x : List α) (ws : List (List α)) :
    sep.intercalate (ws ++ [last ++ x]) = sep.intercalate (ws ++ [last]) ++ x := by
  induction ws with
  | nil => simp
  | cons w ws ih =>
      have hne (v : List α) : ws ++ [v] ≠ [] := by simp
      rw [List.cons_append, List.cons_append, List.intercalate_cons_of_ne_nil (hne _),
        List.intercalate_cons_of_ne_nil (hne _), ih]
      simp

/-! ### Texts in a row -/

section Intercalate

variable {α β : Type*} {sep : List α}

theorem intercalate_append {as bs : List (List α)} (ha : as ≠ []) (hb : bs ≠ []) :
    sep.intercalate (as ++ bs) = sep.intercalate as ++ sep ++ sep.intercalate bs := by
  induction as with
  | nil => exact absurd rfl ha
  | cons a as ih =>
      by_cases h : as = []
      · rw [h, List.cons_append, List.nil_append, List.intercalate_cons_of_ne_nil hb,
          List.intercalate_singleton, List.append_assoc]
      · rw [List.cons_append, List.intercalate_cons_of_ne_nil (by simp [h]), ih h,
          List.intercalate_cons_of_ne_nil h]
        simp only [List.append_assoc]

theorem forall_mem_intercalate {p : α → Prop} (hsep : ∀ a ∈ sep, p a) {ws : List (List α)} :
    (∀ a ∈ sep.intercalate ws, p a) ↔ ∀ w ∈ ws, ∀ a ∈ w, p a := by
  induction ws with
  | nil => simp
  | cons w ws ih =>
      by_cases h : ws = []
      · simp [h]
      · rw [List.intercalate_cons_of_ne_nil h, List.forall_mem_append, List.forall_mem_append, ih,
          List.forall_mem_cons]
        exact ⟨fun ⟨⟨hw, _⟩, hws⟩ => ⟨hw, hws⟩, fun ⟨hw, hws⟩ => ⟨⟨hw, hsep⟩, hws⟩⟩

/-- Rows in a row are one row. -/
theorem intercalate_flatMap {f : β → List (List α)} {l : List β} (h : ∀ b ∈ l, f b ≠ []) :
    sep.intercalate (l.flatMap f) = sep.intercalate (l.map fun b => sep.intercalate (f b)) := by
  induction l with
  | nil => rfl
  | cons b l ih =>
      obtain ⟨hb, hl⟩ := List.forall_mem_cons.mp h
      cases l with
      | nil => simp
      | cons b' l =>
          have hne : (b' :: l).flatMap f ≠ [] := by
            rw [List.flatMap_cons]
            exact List.append_ne_nil_of_left_ne_nil (hl b' List.mem_cons_self) _
          rw [List.flatMap_cons, intercalate_append hb hne, ih hl, List.map_cons, List.map_cons,
            List.map_cons, List.intercalate_cons_cons]

theorem notMem_of_mem_splitOn [BEq α] [LawfulBEq α] {a : α} {l w : List α}
    (h : w ∈ l.splitOn a) : a ∉ w := by
  induction l generalizing w with
  | nil =>
      rw [List.splitOn_nil, List.mem_singleton] at h
      simp [h]
  | cons b l ih =>
      rw [List.splitOn_cons_eq_if_modifyHead] at h
      split at h
      · rcases List.mem_cons.mp h with rfl | h
        · simp
        · exact ih h
      next hb =>
        cases hpieces : l.splitOn a with
        | nil => exact absurd hpieces (List.splitOn_ne_nil a l)
        | cons piece pieces =>
            rw [hpieces, List.modifyHead_cons] at h
            rcases List.mem_cons.mp h with rfl | h
            · have here := ih (hpieces ▸ List.mem_cons_self)
              have hne : a ≠ b := fun same => hb (by simp [same])
              simp [hne, here]
            · exact ih (hpieces ▸ List.mem_cons_of_mem _ h)

/-- A text without the separator stays in front of the first piece. -/
theorem splitOn_append_of_notMem [BEq α] [LawfulBEq α] {a : α} {w : List α} (h : a ∉ w)
    (l : List α) : (w ++ l).splitOn a = (l.splitOn a).modifyHead (w ++ ·) := by
  induction w with
  | nil =>
      cases hpieces : l.splitOn a with
      | nil => exact absurd hpieces (List.splitOn_ne_nil a l)
      | cons piece pieces => simp [hpieces]
  | cons b w ih =>
      obtain ⟨hb, hw⟩ := not_or.mp (mt List.mem_cons.mpr h)
      have hne : (b == a) = false := beq_eq_false_iff_ne.mpr fun same => hb same.symm
      rw [List.cons_append, List.splitOn_cons_eq_if_modifyHead, hne, ih hw,
        if_neg Bool.false_ne_true, List.modifyHead_modifyHead]
      rfl

/-- Pieces in a row are split where the pieces are. -/
theorem splitOn_intercalate_eq [BEq α] [LawfulBEq α] (a : α) {ws : List (List α)} (hne : ws ≠ []) :
    ([a].intercalate ws).splitOn a = ws.flatMap (·.splitOn a) := by
  induction ws with
  | nil => exact absurd rfl hne
  | cons w ws ih =>
      by_cases h : ws = []
      · simp [h]
      · rw [List.intercalate_cons_of_ne_nil h, List.append_assoc, List.singleton_append,
          List.splitOn_append_cons_self, ih h, List.flatMap_cons]

theorem length_intercalate (a : α) {ws : List (List α)} (hne : ws ≠ []) :
    ([a].intercalate ws).length + 1 = (ws.map (·.length + 1)).sum := by
  induction ws with
  | nil => exact absurd rfl hne
  | cons w ws ih =>
      by_cases h : ws = []
      · simp [h]
      · rw [List.intercalate_cons_of_ne_nil h, List.map_cons, List.sum_cons, ← ih h]
        simp only [List.length_append, List.length_singleton]
        omega

end Intercalate

/-! ### Lines -/

/-- Without a carriage return at the end. -/
def dropReturn (line : List Char) : List Char :=
  if line.getLast? = some '\r' then line.dropLast else line

/-- A line break ends a line, and what is behind the last one is a line unless it is empty. -/
def lines (s : List Char) : List (List Char) :=
  let pieces := s.splitOn '\n'
  pieces.dropLast.map dropReturn ++ pieces.getLast?.toList.filter fun last => !last.isEmpty

/-- Each line with a line break behind it. -/
def unlines (ls : List (List Char)) : List Char := ls.flatMap fun line => line ++ ['\n']

theorem splitOn_unlines {ls : List (List Char)} (h : ∀ line ∈ ls, '\n' ∉ line) (rest : List Char) :
    (unlines ls ++ rest).splitOn '\n' = ls ++ rest.splitOn '\n' := by
  induction ls with
  | nil => rfl
  | cons line ls ih =>
      have hline : ∀ a ∈ line, (a == '\n') = false := by
        intro a ha
        exact beq_eq_false_iff_ne.mpr fun same => h line List.mem_cons_self (same ▸ ha)
      have ih := ih fun l hl => h l (List.mem_cons_of_mem _ hl)
      have htext : unlines (line :: ls) ++ rest = line ++ '\n' :: (unlines ls ++ rest) := by
        simp [unlines]
      rw [List.splitOn_eq_splitOnP] at ih ⊢
      rw [htext, List.splitOnP_append_cons_of_forall_mem hline '\n' (by simp), ih,
        List.cons_append]

/-- Written lines are read back, in front of any other text. -/
theorem lines_unlines {ls : List (List Char)} (h : ∀ line ∈ ls, '\n' ∉ line) (rest : List Char) :
    lines (unlines ls ++ rest) = ls.map dropReturn ++ lines rest := by
  have hne : rest.splitOn '\n' ≠ [] := by
    rw [List.splitOn_eq_splitOnP]
    exact List.splitOnP_ne_nil _ _
  simp only [lines, splitOn_unlines h]
  rw [List.dropLast_append_of_ne_nil hne, List.getLast?_append_of_ne_nil _ hne, List.map_append,
    List.append_assoc]

theorem dropReturn_eq_self (h : '\r' ∉ s) : dropReturn s = s := by
  rw [dropReturn, if_neg]
  intro last
  exact h (List.mem_of_getLast? last)

/-! ### A text on one line -/

/-- No line ends in the text. -/
def OneLine (s : List Char) : Prop := s.all (fun c => c ≠ '\n' && c ≠ '\r') = true

instance (s : List Char) : Decidable (OneLine s) := inferInstanceAs (Decidable (_ = true))

theorem oneLine_iff : OneLine s ↔ ∀ c ∈ s, c ≠ '\n' ∧ c ≠ '\r' := by
  simp [OneLine]

theorem OneLine.forall_mem (h : OneLine s) : ∀ c ∈ s, c ≠ '\n' ∧ c ≠ '\r' := oneLine_iff.mp h

theorem oneLine_of_forall (h : ∀ c ∈ s, c ≠ '\n' ∧ c ≠ '\r') : OneLine s := oneLine_iff.mpr h

@[simp] theorem oneLine_append : OneLine (s ++ t) ↔ OneLine s ∧ OneLine t := by
  simp [OneLine]

@[simp] theorem oneLine_cons : OneLine (c :: s) ↔ (c ≠ '\n' ∧ c ≠ '\r') ∧ OneLine s := by
  simp [OneLine]

@[simp] theorem oneLine_nil : OneLine [] := rfl

theorem oneLine_intercalate {sep : List Char} {ts : List (List Char)} (hsep : OneLine sep)
    (h : ∀ t ∈ ts, OneLine t) : OneLine (sep.intercalate ts) :=
  oneLine_of_forall <| (forall_mem_intercalate hsep.forall_mem).mpr fun t ht => (h t ht).forall_mem

/-- Texts on one line each, written one below the other, are the lines. -/
theorem lines_unlines_of_oneLine {ls : List (List Char)} (h : ∀ line ∈ ls, OneLine line)
    (rest : List Char) : lines (unlines ls ++ rest) = ls ++ lines rest := by
  rw [lines_unlines fun line hline hmem => ((h line hline).forall_mem _ hmem).1 rfl]
  congr 1
  refine (List.map_congr_left fun line hline => ?_).trans (List.map_id ls)
  exact dropReturn_eq_self fun hmem => ((h line hline).forall_mem _ hmem).2 rfl

/-! ### A mark of two characters -/

/-- What stands before the first place with two of the character. -/
def before (q : Char) : List Char → Option (List Char)
  | [] => none
  | c :: rest =>
      if c = q ∧ rest.head? = some q then some []
      else (before q rest).map (c :: ·)

theorem before_append {q : Char} (h : q ∉ s) (t : List Char) :
    before q (s ++ t) = (before q t).map (s ++ ·) := by
  induction s with
  | nil => simp
  | cons c s ih =>
      obtain ⟨hc, hs⟩ := not_or.mp (mt List.mem_cons.mpr h)
      rw [List.cons_append, before, if_neg fun both => hc both.1.symm, ih hs, Option.map_map]
      rfl

end Lazuli.General.Lines
