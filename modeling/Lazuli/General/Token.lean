import Mathlib.Data.List.Basic

/-!
Words and quoted texts, read back.

A token is a word, or a text between quotes in which a quote is doubled. When words have neither
blanks nor quotes, a line of tokens with a blank in front of each is read in one way only.
-/

namespace Lazuli.General

inductive Token (α : Type*) where
  | bare (w : List α)
  | quoted (q : α) (w : List α)
  deriving DecidableEq

namespace Token

variable {α : Type*} [DecidableEq α]

def doubled (q : α) (w : List α) : List α := w.flatMap fun c => if c = q then [c, c] else [c]

def text : Token α → List α
  | bare w => w
  | quoted q w => q :: (doubled q w ++ [q])

/-- The text of each token, with a blank in front. -/
def line (blank : α) (ts : List (Token α)) : List α := ts.flatMap fun t => blank :: t.text

def Clean (blank : α) (isQuote : α → Bool) : Token α → Prop
  | bare w => w ≠ [] ∧ ∀ c ∈ w, c ≠ blank ∧ isQuote c = false
  | quoted q _ => isQuote q = true

variable {blank q : α} {isQuote : α → Bool} {w w' s s' : List α} {t t' : Token α}
  {ts ts' : List (Token α)}

theorem doubled_cons_self (w : List α) : doubled q (q :: w) = q :: q :: doubled q w := by
  rw [doubled, List.flatMap_cons, if_pos rfl]
  rfl

theorem doubled_cons_of_ne {c : α} (h : c ≠ q) (w : List α) :
    doubled q (c :: w) = c :: doubled q w := by
  rw [doubled, List.flatMap_cons, if_neg h]
  rfl

/-- A doubled quote does not end a text. -/
theorem doubled_append_inj (hs : ∀ c ∈ s.head?, c ≠ q) (hs' : ∀ c ∈ s'.head?, c ≠ q)
    (eq : doubled q w ++ q :: s = doubled q w' ++ q :: s') : w = w' ∧ s = s' := by
  have ended : ∀ {s w s' : List α} {c : α}, (∀ c ∈ s.head?, c ≠ q) →
      q :: s ≠ doubled q (c :: w) ++ q :: s' := by
    intro s w s' c hs eq
    by_cases h : c = q
    · rw [h, doubled_cons_self] at eq
      have front : s = q :: (doubled q w ++ q :: s') := List.tail_eq_of_cons_eq eq
      exact hs q (by rw [front]; rfl) rfl
    · rw [doubled_cons_of_ne h] at eq
      exact h (List.head_eq_of_cons_eq eq).symm
  induction w generalizing w' with
  | nil =>
      cases w' with
      | nil => exact ⟨rfl, List.tail_eq_of_cons_eq eq⟩
      | cons c' w' => exact absurd eq (ended hs)
  | cons c w ih =>
      cases w' with
      | nil => exact absurd eq.symm (ended hs')
      | cons c' w' =>
          by_cases h : c = q <;> by_cases h' : c' = q
          · rw [h, h', doubled_cons_self, doubled_cons_self] at eq
            obtain ⟨rfl, rest⟩ := ih (List.tail_eq_of_cons_eq (List.tail_eq_of_cons_eq eq))
            exact ⟨by rw [h, h'], rest⟩
          · rw [h, doubled_cons_self, doubled_cons_of_ne h'] at eq
            exact absurd (List.head_eq_of_cons_eq eq).symm h'
          · rw [h', doubled_cons_self, doubled_cons_of_ne h] at eq
            exact absurd (List.head_eq_of_cons_eq eq) h
          · rw [doubled_cons_of_ne h, doubled_cons_of_ne h'] at eq
            obtain ⟨rfl, rest⟩ := ih (List.tail_eq_of_cons_eq eq)
            exact ⟨by rw [List.head_eq_of_cons_eq eq], rest⟩

omit [DecidableEq α] in
/-- Words end at a blank. -/
theorem bare_append_inj (hw : ∀ c ∈ w, c ≠ blank) (hw' : ∀ c ∈ w', c ≠ blank)
    (hs : ∀ c ∈ s.head?, c = blank) (hs' : ∀ c ∈ s'.head?, c = blank) (eq : w ++ s = w' ++ s') :
    w = w' ∧ s = s' := by
  rcases List.append_eq_append_iff.mp eq with ⟨m, long, rest⟩ | ⟨m, long, rest⟩
  · cases m with
    | nil => exact ⟨by rw [long, List.append_nil], rest⟩
    | cons c m =>
        have front : c = blank := hs c (by rw [rest]; rfl)
        exact absurd front (hw' c (by rw [long]; exact List.mem_append_right _ List.mem_cons_self))
  · cases m with
    | nil => exact ⟨by rw [long, List.append_nil], rest.symm⟩
    | cons c m =>
        have front : c = blank := hs' c (by rw [rest]; rfl)
        exact absurd front (hw c (by rw [long]; exact List.mem_append_right _ List.mem_cons_self))

/-- A token and what comes behind a blank. -/
theorem text_append_inj (noQuote : isQuote blank = false) (ht : t.Clean blank isQuote)
    (ht' : t'.Clean blank isQuote) (hs : ∀ c ∈ s.head?, c = blank)
    (hs' : ∀ c ∈ s'.head?, c = blank) (eq : t.text ++ s = t'.text ++ s') : t = t' ∧ s = s' := by
  have unlike : ∀ {w : List α} {q : α} {w' s s' : List α}, (bare w).Clean blank isQuote →
      isQuote q = true → w ++ s ≠ q :: (doubled q w' ++ [q]) ++ s' := by
    intro w q w' s s' clean quote eq
    obtain ⟨c, w, rfl⟩ := List.exists_cons_of_ne_nil clean.1
    have front : c = q := List.head_eq_of_cons_eq eq
    have plain := (clean.2 c List.mem_cons_self).2
    rw [front, quote] at plain
    cases plain
  cases t with
  | bare w =>
      cases t' with
      | bare w' =>
          obtain ⟨rfl, rest⟩ := bare_append_inj (fun c mem => (ht.2 c mem).1)
            (fun c mem => (ht'.2 c mem).1) hs hs' eq
          exact ⟨rfl, rest⟩
      | quoted q w' => exact absurd eq (unlike ht ht')
  | quoted q w =>
      cases t' with
      | bare w' => exact absurd eq.symm (unlike ht' ht)
      | quoted q' w' =>
          obtain rfl : q = q' := List.head_eq_of_cons_eq eq
          have quote : ∀ {s : List α}, (∀ c ∈ s.head?, c = blank) → ∀ c ∈ s.head?, c ≠ q := by
            intro s hs c mem same
            have quoted : isQuote q = true := ht
            rw [← same, hs c mem, noQuote] at quoted
            cases quoted
          have inner : doubled q w ++ [q] ++ s = doubled q w' ++ [q] ++ s' :=
            List.tail_eq_of_cons_eq eq
          rw [List.append_assoc, List.append_assoc] at inner
          obtain ⟨rfl, rest⟩ := doubled_append_inj (quote hs) (quote hs') inner
          exact ⟨rfl, rest⟩

theorem head?_line (blank : α) (ts : List (Token α)) : ∀ c ∈ (line blank ts).head?, c = blank := by
  cases ts with
  | nil =>
      intro c mem
      cases mem
  | cons t ts =>
      intro c mem
      exact (Option.mem_some_iff.mp mem).symm

/-- A line is read in one way. -/
theorem line_inj (noQuote : isQuote blank = false) (clean : ∀ t ∈ ts, t.Clean blank isQuote)
    (clean' : ∀ t ∈ ts', t.Clean blank isQuote) (eq : line blank ts = line blank ts') :
    ts = ts' := by
  induction ts generalizing ts' with
  | nil =>
      cases ts' with
      | nil => rfl
      | cons t' ts' => cases eq
  | cons t ts ih =>
      cases ts' with
      | nil => cases eq
      | cons t' ts' =>
          rw [line, line, List.flatMap_cons, List.flatMap_cons] at eq
          obtain ⟨rfl, rest⟩ := text_append_inj noQuote (clean t List.mem_cons_self)
            (clean' t' List.mem_cons_self) (head?_line blank ts) (head?_line blank ts')
            (List.tail_eq_of_cons_eq eq)
          rw [ih (fun t mem => clean t (List.mem_cons_of_mem _ mem))
            (fun t mem => clean' t (List.mem_cons_of_mem _ mem)) rest]

end Token

end Lazuli.General
