import Lazuli.General.Utf8
import Mathlib

/-!
The line patterns of migration recipes (`migrate/dsl/apply.rs` in `lazuli_cli`).

A pattern is matched from left to right. A whitespace marker takes all the blanks, a rest marker
all that is left, and a token marker the longest piece of a word behind which the rest of the
pattern matches. `Step` is what one marker may take; a line is matched when such steps lead to its
end (`matchLine_some`, `matchLine_none`). That misses the lines that only fit when a marker takes
less than it can, and a token marker looks behind every byte of a word, also inside a character.
-/

namespace Lazuli.Cli.RecipeMatch

open Lazuli.General Utf8

abbrev Text := List Char

inductive PatternToken where
  | literal (text : Text)
  | whitespace (name : Text)
  | token (name : Text)
  | rest (name : Text)
  deriving DecidableEq

inductive ReplaceToken where
  | literal (text : Text)
  | slot (name : Text)

structure Recipe where
  matchPattern : List PatternToken
  replaceTemplate : List ReplaceToken

/-- The captured slots: their names and what they took. -/
abbrev Captures := List (Text × Text)

/-- A slice that begins inside a character. -/
inductive Panic where
  | charBoundary
  deriving DecidableEq

def isBlank (c : Char) : Bool := c = ' ' || c = '\t'

/-- The longest piece of the word at the front behind which the tail matches: the loop keeps the
last one. The tail is tried behind every byte. -/
def probe (tailMatches : Text → Except Panic Bool) : Text → Except Panic (Option (Text × Text))
  | [] => pure none
  | c :: behind =>
      if isBlank c then pure none
      else if c.utf8Size ≠ 1 then throw .charBoundary
      else do
        let here ← tailMatches behind
        let further ← probe tailMatches behind
        pure ((further.map fun best => (c :: best.1, best.2)).or
          (if here then some ([c], behind) else none))

/-- What is captured, or nothing. The second argument is what is left of the line. -/
def matchLine : List PatternToken → Text → Except Panic (Option Captures)
  | [], line => pure (if line = [] then some [] else none)
  | .literal text :: tail, line =>
      if encode text <+: encode line then matchLine tail (line.drop text.length) else pure none
  | .whitespace name :: tail, line => do
      let blanks := line.takeWhile isBlank
      if blanks = [] then pure none
      else
        let captures ← matchLine tail (line.dropWhile isBlank)
        pure (captures.map fun others => (name, blanks) :: others)
  | .token name :: tail, line => do
      let best ← probe (fun behind => Option.isSome <$> matchLine tail behind) line
      -- Where the tail matches nowhere, the whole word is taken.
      let (word, behind) := best.getD
        (line.takeWhile fun c => !isBlank c, line.dropWhile fun c => !isBlank c)
      if word = [] then pure none
      else
        let captures ← matchLine tail behind
        pure (captures.map fun others => (name, word) :: others)
  | .rest name :: tail, line => do
      let captures ← matchLine tail []
      pure (captures.map fun others => (name, line) :: others)

/-- A slot that is captured more than once has the last value. -/
def renderReplace (template : List ReplaceToken) (captures : Captures) : Text :=
  template.flatMap fun
    | .literal text => text
    | .slot name => ((captures.reverse.find? fun slot => slot.1 = name).map Prod.snd).getD []

def rewriteLine (recipe : Recipe) (line : Text) : Except Panic Text := do
  match ← matchLine recipe.matchPattern line with
  | some captures => pure (renderReplace recipe.replaceTemplate captures)
  | none => pure line

def applyRecipe (source : Text) (recipe : Recipe) : Except Panic Text := do
  let outLines ← (lines source).mapM (rewriteLine recipe)
  pure (['\n'].intercalate outLines ++ if ['\n'] <:+ source then ['\n'] else [])

/-! ### What a pattern says -/

/-- The values that the markers may have. -/
inductive Fits : List PatternToken → Captures → Prop
  | nil : Fits [] []
  | literal {text tail captures} : Fits tail captures → Fits (.literal text :: tail) captures
  | whitespace {name blanks tail captures} : blanks ≠ [] → (∀ c ∈ blanks, isBlank c = true) →
      Fits tail captures → Fits (.whitespace name :: tail) ((name, blanks) :: captures)
  | token {name word tail captures} : word ≠ [] → (∀ c ∈ word, isBlank c = false) →
      Fits tail captures → Fits (.token name :: tail) ((name, word) :: captures)
  | rest {name text tail captures} : Fits tail captures →
      Fits (.rest name :: tail) ((name, text) :: captures)

/-- The literals and the captures, one after the other. -/
def weave : List PatternToken → Captures → Text
  | .literal text :: tail, captures => text ++ weave tail captures
  | _ :: tail, slot :: captures => slot.2 ++ weave tail captures
  | _, _ => []

/-- What one marker may take from the front of a line, and what is left. -/
inductive Step : PatternToken → Text → Captures → Text → Prop
  | literal {text line behind} : line = text ++ behind → Step (.literal text) line [] behind
  | whitespace {name blanks line behind} : blanks ≠ [] → (∀ c ∈ blanks, isBlank c = true) →
      (∀ c ∈ behind.head?, isBlank c = false) → line = blanks ++ behind →
      Step (.whitespace name) line [(name, blanks)] behind
  | token {name word line behind} : word ≠ [] → (∀ c ∈ word, isBlank c = false) →
      line = word ++ behind → Step (.token name) line [(name, word)] behind
  | rest {name line} : Step (.rest name) line [(name, line)] []

/-- A pattern read off the front of a line in such steps. -/
inductive Reading : List PatternToken → Text → Captures → Text → Prop
  | nil {line} : Reading [] line [] line
  | cons {token tail line first middle others behind} : Step token line first middle →
      Reading tail middle others behind → Reading (token :: tail) line (first ++ others) behind

/-- Wherever a token marker can begin, the word there is ASCII. -/
def Legible (pattern : List PatternToken) (line : Text) : Prop :=
  ∀ front name tail captures behind, pattern = front ++ .token name :: tail →
    Reading front line captures behind →
    ∀ c ∈ behind.takeWhile fun c => !isBlank c, c.utf8Size = 1

/-- Some captures make the pattern equal to the line. -/
def Matches (pattern : List PatternToken) (line : Text) : Prop :=
  ∃ captures, Fits pattern captures ∧ weave pattern captures = line

/-- The pattern equals the line when its whitespace markers take all the blanks where they stand
and its rest markers all that is left. -/
def MatchesGreedily (pattern : List PatternToken) (line : Text) : Prop :=
  ∃ captures, Reading pattern line captures []

/-! ### Readings -/

/-- The run of blanks at the front of a line. -/
theorem span_blanks {blanks behind : Text} (hblank : ∀ c ∈ blanks, isBlank c = true)
    (hend : ∀ c ∈ behind.head?, isBlank c = false) :
    (blanks ++ behind).takeWhile isBlank = blanks ∧
      (blanks ++ behind).dropWhile isBlank = behind := by
  rw [List.takeWhile_append_of_pos hblank, List.dropWhile_append_of_pos hblank]
  cases behind with
  | nil => exact ⟨List.append_nil _, rfl⟩
  | cons c behind =>
      have hc : isBlank c = false := hend c rfl
      simp [hc]

theorem step_whitespace {line name : Text} (h : line.takeWhile isBlank ≠ []) :
    Step (.whitespace name) line [(name, line.takeWhile isBlank)] (line.dropWhile isBlank) := by
  refine .whitespace h (fun c hc => List.mem_takeWhile_imp hc) (fun c hc => ?_)
    List.takeWhile_append_dropWhile.symm
  have hnot := List.head?_dropWhile_not isBlank line
  rw [Option.mem_def.mp hc] at hnot
  simpa using hnot

section Reading

variable {pattern tail : List PatternToken} {token : PatternToken} {captures first : Captures}
  {line middle behind word : Text} {name : Text}

theorem Step.fits (h : Step token line first middle) (htail : Fits tail captures) :
    Fits (token :: tail) (first ++ captures) := by
  cases h with
  | literal => exact .literal htail
  | whitespace hne hblank => exact .whitespace hne hblank htail
  | token hne hword => exact .token hne hword htail
  | rest => exact .rest htail

theorem Step.weave_append (h : Step token line first middle)
    (hback : weave tail captures ++ behind = middle) :
    weave (token :: tail) (first ++ captures) ++ behind = line := by
  cases h with
  | literal hline => rw [hline, ← hback, weave, List.append_assoc]; rfl
  | whitespace _ _ _ hline => rw [hline, ← hback, ← List.append_assoc]; rfl
  | token _ _ hline => rw [hline, ← hback, ← List.append_assoc]; rfl
  | rest =>
      obtain ⟨nothing, rfl⟩ := List.append_eq_nil_iff.mp hback
      simp [weave, nothing]

/-- A reading is an assignment of captures. -/
theorem Reading.fits (h : Reading pattern line captures behind) :
    Fits pattern captures ∧ weave pattern captures ++ behind = line := by
  induction h with
  | nil => exact ⟨.nil, rfl⟩
  | cons hstep _ ih => exact ⟨hstep.fits ih.1, hstep.weave_append ih.2⟩

theorem reading_nil_iff : Reading [] line captures [] ↔ line = [] ∧ captures = [] := by
  constructor
  · rintro ⟨⟩
    exact ⟨rfl, rfl⟩
  · rintro ⟨rfl, rfl⟩
    exact .nil

theorem legible_cons : Legible (token :: tail) line ↔
    (∀ name, token = .token name →
      ∀ c ∈ line.takeWhile fun c => !isBlank c, c.utf8Size = 1) ∧
    ∀ first middle, Step token line first middle → Legible tail middle := by
  constructor
  · intro h
    refine ⟨?_, ?_⟩
    · rintro name rfl
      exact h [] name tail [] line rfl .nil
    · intro first middle hstep front name rest captures behind heq hreading
      exact h (token :: front) name rest _ behind (by rw [heq]; rfl) (.cons hstep hreading)
  · rintro ⟨here, further⟩ front name rest captures behind heq hreading
    cases hreading with
    | nil =>
        obtain ⟨rfl, rfl⟩ := List.cons.inj heq
        exact here name rfl
    | cons hstep hreading =>
        obtain ⟨rfl, rfl⟩ := List.cons.inj heq
        exact further _ _ hstep _ _ _ _ _ rfl hreading

end Reading

/-! ### The ends of a token -/

section Probe

variable {tailMatches : Text → Except Panic Bool} {line word behind : Text} {c : Char}
  {out : Option (Text × Text)}

/-- What a pass over one more character does. -/
theorem probe_cons_ok_iff : probe tailMatches (c :: line) = .ok out ↔
    isBlank c = true ∧ out = none ∨
    isBlank c = false ∧ c.utf8Size = 1 ∧ ∃ here further, tailMatches line = .ok here ∧
      probe tailMatches line = .ok further ∧
      out = (further.map fun best => (c :: best.1, best.2)).or
        (if here then some ([c], line) else none) := by
  rw [probe]
  cases hblank : isBlank c with
  | true => simp [pure, Except.pure, eq_comm]
  | false =>
      by_cases hsize : c.utf8Size = 1
      · cases hhere : tailMatches line <;> cases hfurther : probe tailMatches line <;>
          simp [hsize, bind, Except.bind, pure, Except.pure, eq_comm]
      · simp [hsize, throw, throwThe, MonadExceptOf.throw]

/-- A word at the front of a line is its first character, or that and a word behind. -/
theorem word_cons (hne : word ≠ []) (hword : ∀ d ∈ word, isBlank d = false)
    (h : c :: line = word ++ behind) :
    isBlank c = false ∧ (word = [c] ∧ behind = line ∨
      ∃ more, word = c :: more ∧ more ≠ [] ∧ (∀ d ∈ more, isBlank d = false) ∧
        line = more ++ behind) := by
  cases word with
  | nil => exact absurd rfl hne
  | cons d more =>
      obtain ⟨rfl, rfl⟩ := List.cons.inj h
      refine ⟨hword c List.mem_cons_self, ?_⟩
      cases more with
      | nil => exact .inl ⟨rfl, rfl⟩
      | cons d more =>
          exact .inr ⟨_, rfl, List.cons_ne_nil _ _,
            fun e he => hword e (List.mem_cons_of_mem _ he), rfl⟩

theorem probe_some (h : probe tailMatches line = .ok (some (word, behind))) :
    word ≠ [] ∧ (∀ d ∈ word, isBlank d = false) ∧ line = word ++ behind ∧
      tailMatches behind = .ok true := by
  induction line generalizing word with
  | nil => cases h
  | cons c line ih =>
      rcases probe_cons_ok_iff.mp h with ⟨-, none⟩ | ⟨hblank, -, here, further, hhere, hrest, hout⟩
      · cases none
      · cases further with
        | some best =>
            obtain ⟨rfl, rfl⟩ := Prod.mk.inj (Option.some_inj.mp hout)
            obtain ⟨-, hword, hline, hmatch⟩ := ih hrest
            refine ⟨List.cons_ne_nil _ _, ?_, by rw [hline]; rfl, hmatch⟩
            exact List.forall_mem_cons.mpr ⟨hblank, hword⟩
        | none =>
            cases here with
            | false => cases hout
            | true =>
                obtain ⟨rfl, rfl⟩ := Prod.mk.inj (Option.some_inj.mp hout)
                exact ⟨List.cons_ne_nil _ _, by simpa using hblank, rfl, hhere⟩

theorem probe_none (h : probe tailMatches line = .ok none) (hne : word ≠ [])
    (hword : ∀ d ∈ word, isBlank d = false) (hline : line = word ++ behind) :
    tailMatches behind = .ok false := by
  induction line generalizing word with
  | nil => exact absurd (List.append_eq_nil_iff.mp hline.symm).1 hne
  | cons c line ih =>
      obtain ⟨hvisible, hwhere⟩ := word_cons hne hword hline
      rcases probe_cons_ok_iff.mp h with ⟨hblank, -⟩ | ⟨-, -, here, further, hhere, hrest, hout⟩
      · rw [hvisible] at hblank
        cases hblank
      · cases further with
        | some best => cases hout
        | none =>
            rcases hwhere with ⟨-, rfl⟩ | ⟨more, -, hmore, hword, hbehind⟩
            · cases here with
              | false => exact hhere
              | true => cases hout
            · exact ih hrest hmore hword hbehind

/-- It panics at a character of more than one byte, and where the tail does. -/
theorem probe_ok_iff : (∃ out, probe tailMatches line = .ok out) ↔
    (∀ d ∈ line.takeWhile fun d => !isBlank d, d.utf8Size = 1) ∧
    ∀ word behind, word ≠ [] → (∀ d ∈ word, isBlank d = false) → line = word ++ behind →
      ∃ matched, tailMatches behind = .ok matched := by
  induction line with
  | nil =>
      refine iff_of_true ⟨none, rfl⟩ ⟨fun d hd => (List.not_mem_nil hd).elim, ?_⟩
      intro word behind hne _ hline
      exact absurd (List.append_eq_nil_iff.mp hline.symm).1 hne
  | cons c line ih =>
      simp only [probe_cons_ok_iff]
      constructor
      · rintro ⟨out, ⟨hblank, -⟩ | ⟨hblank, hsize, here, further, hhere, hrest, -⟩⟩
        · refine ⟨by simp [hblank], fun word behind hne hword hline => ?_⟩
          rw [(word_cons hne hword hline).1] at hblank
          cases hblank
        · obtain ⟨hascii, htail⟩ := ih.mp ⟨further, hrest⟩
          refine ⟨by simpa [hblank, hsize] using hascii, fun word behind hne hword hline => ?_⟩
          rcases (word_cons hne hword hline).2 with ⟨-, rfl⟩ | ⟨more, -, hmore, hword, hbehind⟩
          · exact ⟨here, hhere⟩
          · exact htail more behind hmore hword hbehind
      · rintro ⟨hascii, htail⟩
        cases hblank : isBlank c with
        | true => exact ⟨none, .inl ⟨rfl, rfl⟩⟩
        | false =>
            simp only [List.takeWhile_cons, hblank, Bool.not_false, if_true,
              List.forall_mem_cons] at hascii
            obtain ⟨here, hhere⟩ :=
              htail [c] line (List.cons_ne_nil _ _) (by simpa using hblank) rfl
            obtain ⟨further, hrest⟩ := ih.mpr ⟨hascii.2, fun word behind _ hword hline =>
              htail (c :: word) behind (List.cons_ne_nil _ _)
                (List.forall_mem_cons.mpr ⟨hblank, hword⟩) (by rw [hline]; rfl)⟩
            exact ⟨_, .inr ⟨rfl, hascii.1, here, further, hhere, hrest, rfl⟩⟩

end Probe

/-! ### The matcher -/

section Match

variable {pattern tail : List PatternToken} {token : PatternToken} {captures first : Captures}
  {line middle behind : Text} {name : Text}

/-- Every other marker has one way at most. -/
theorem Step.unique {first' : Captures} {middle' : Text} (hkind : ∀ name, token ≠ .token name)
    (h : Step token line first middle) (h' : Step token line first' middle') :
    first' = first ∧ middle' = middle := by
  cases h with
  | literal hline =>
      cases h' with
      | literal hline' => exact ⟨rfl, List.append_cancel_left (hline'.symm.trans hline)⟩
  | whitespace _ hblank hend hline =>
      cases h' with
      | whitespace _ hblank' hend' hline' =>
          have here := span_blanks hblank hend
          have there := span_blanks hblank' hend'
          rw [← hline', hline, here.1, here.2] at there
          exact ⟨by rw [there.1], there.2.symm⟩
  | token => exact absurd rfl (hkind _)
  | rest =>
      cases h'
      exact ⟨rfl, rfl⟩

theorem matchLine_step (hkind : ∀ name, token ≠ .token name)
    (h : Step token line first middle) : matchLine (token :: tail) line =
      (Option.map fun others => first ++ others) <$> matchLine tail middle := by
  cases h with
  | @literal text line behind hline =>
      subst hline
      have same : (Option.map fun others : Captures => [] ++ others) = id := by
        funext captures
        cases captures <;> rfl
      rw [matchLine, if_pos (encode_prefix_iff.mpr (List.prefix_append _ _)), List.drop_left, same,
        id_map]
  | whitespace hne hblank hend hline =>
      obtain ⟨htake, hdrop⟩ := span_blanks hblank hend
      rw [matchLine, hline, htake, hdrop]
      simp only [hne, if_false]
      rfl
  | token => exact absurd rfl (hkind _)
  | rest => rfl

theorem matchLine_stuck (hkind : ∀ name, token ≠ .token name)
    (h : ∀ first middle, ¬ Step token line first middle) :
    matchLine (token :: tail) line = .ok none := by
  cases token with
  | literal text =>
      rw [matchLine, if_neg]
      · rfl
      · rintro hpre
        obtain ⟨behind, rfl⟩ := encode_prefix_iff.mp hpre
        exact h _ _ (.literal rfl)
  | whitespace name =>
      have none : line.takeWhile isBlank = [] := by
        by_contra hne
        exact h _ _ (step_whitespace hne)
      rw [matchLine, none]
      rfl
  | token name => exact absurd rfl (hkind name)
  | rest name => exact absurd .rest (h _ _)

/-- Behind a token, the tail is matched where the token ends. -/
theorem matchLine_token (name : Text) (tail : List PatternToken) (line : Text) :
    matchLine (.token name :: tail) line = (do
      let best ← probe (fun behind => Option.isSome <$> matchLine tail behind) line
      let (word, behind) := best.getD
        (line.takeWhile fun c => !isBlank c, line.dropWhile fun c => !isBlank c)
      if word = [] then pure none
      else
        let captures ← matchLine tail behind
        pure (captures.map fun others => (name, word) :: others)) := rfl

theorem isSome_ok_iff {result : Except Panic (Option Captures)} :
    (∃ matched, Option.isSome <$> result = .ok matched) ↔ ∃ captures, result = .ok captures := by
  cases result <;> simp [Functor.map, Except.map]

theorem isSome_eq_iff {result : Except Panic (Option Captures)} {matched : Bool} :
    Option.isSome <$> result = .ok matched ↔
      ∃ captures, result = .ok captures ∧ captures.isSome = matched := by
  cases result <;> simp [Functor.map, Except.map]

/-- A token marker matches when the tail does behind some piece of the word, and not otherwise. -/
theorem matchLine_token_cases {result : Option Captures}
    (h : matchLine (.token name :: tail) line = .ok result) :
    (∃ first middle others, Step (.token name) line first middle ∧
      matchLine tail middle = .ok (some others) ∧ result = some (first ++ others)) ∨
    result = none ∧ ∀ first middle, Step (.token name) line first middle →
      matchLine tail middle = .ok none := by
  rw [matchLine_token] at h
  cases hprobe : probe (fun behind => Option.isSome <$> matchLine tail behind) line with
  | error e =>
      rw [hprobe] at h
      cases h
  | ok best =>
      rw [hprobe] at h
      cases best with
      | some best =>
          obtain ⟨word, behind⟩ := best
          obtain ⟨hne, hword, hline, hmatch⟩ := probe_some hprobe
          obtain ⟨captures, hcaptures, hsome⟩ := isSome_eq_iff.mp hmatch
          obtain ⟨others, rfl⟩ := Option.isSome_iff_exists.mp hsome
          refine .inl ⟨_, _, others, .token hne hword hline, hcaptures, ?_⟩
          simp only [bind, Except.bind, Option.getD_some, hne, if_false, hcaptures, pure,
            Except.pure, Option.map_some, Except.ok.injEq] at h
          exact h.symm
      | none =>
          have stuck : ∀ first middle, Step (.token name) line first middle →
              matchLine tail middle = .ok none := by
            intro first middle hstep
            cases hstep with
            | token hne hword hline =>
                obtain ⟨captures, hcaptures, hnone⟩ :=
                  isSome_eq_iff.mp (probe_none hprobe hne hword hline)
                rw [Option.isSome_eq_false_iff, Option.isNone_iff_eq_none] at hnone
                rw [hcaptures, hnone]
          refine .inr ⟨?_, stuck⟩
          by_cases hne : (line.takeWhile fun c => !isBlank c) = []
          · simp only [bind, Except.bind, Option.getD_none, hne, if_true, pure, Except.pure,
              Except.ok.injEq] at h
            exact h.symm
          · have hstep : Step (.token name) line _ _ :=
              .token hne (fun c hc => by simpa using List.mem_takeWhile_imp hc)
                List.takeWhile_append_dropWhile.symm
            simp only [bind, Except.bind, Option.getD_none, hne, if_false, stuck _ _ hstep, pure,
              Except.pure, Option.map_none, Except.ok.injEq] at h
            exact h.symm

theorem matchLine_token_ok_iff : (∃ result, matchLine (.token name :: tail) line = .ok result) ↔
    (∀ c ∈ line.takeWhile fun c => !isBlank c, c.utf8Size = 1) ∧
    ∀ first middle, Step (.token name) line first middle →
      ∃ captures, matchLine tail middle = .ok captures := by
  have ends : (∃ best, probe (fun behind => Option.isSome <$> matchLine tail behind) line =
      .ok best) ↔ _ := probe_ok_iff
  simp only [isSome_ok_iff] at ends
  have splits : (∀ first middle, Step (.token name) line first middle →
      ∃ captures, matchLine tail middle = .ok captures) ↔
      ∀ word behind, word ≠ [] → (∀ d ∈ word, isBlank d = false) → line = word ++ behind →
        ∃ captures, matchLine tail behind = .ok captures := by
    constructor
    · intro h word behind hne hword hline
      exact h _ _ (.token hne hword hline)
    · intro h first middle hstep
      cases hstep with
      | token hne hword hline => exact h _ _ hne hword hline
  rw [splits, ← ends]
  constructor
  · rintro ⟨result, h⟩
    rw [matchLine_token] at h
    cases hprobe : probe (fun behind => Option.isSome <$> matchLine tail behind) line with
    | error e =>
        rw [hprobe] at h
        cases h
    | ok best => exact ⟨best, rfl⟩
  · rintro ⟨best, hprobe⟩
    have htail := (ends.mp ⟨best, hprobe⟩).2
    rw [matchLine_token, hprobe]
    cases best with
    | some best =>
        obtain ⟨word, behind⟩ := best
        obtain ⟨hne, hword, hline, -⟩ := probe_some hprobe
        obtain ⟨captures, hcaptures⟩ := htail word behind hne hword hline
        simp [bind, Except.bind, hne, hcaptures, pure, Except.pure]
    | none =>
        by_cases hne : (line.takeWhile fun c => !isBlank c) = []
        · simp [bind, Except.bind, hne, pure, Except.pure]
        · obtain ⟨captures, hcaptures⟩ := htail _ (line.dropWhile fun c => !isBlank c) hne
            (fun c hc => by simpa using List.mem_takeWhile_imp hc)
            List.takeWhile_append_dropWhile.symm
          simp [bind, Except.bind, hne, hcaptures, pure, Except.pure]

theorem map_ok_iff {result : Except Panic (Option Captures)}
    (f : Option Captures → Option Captures) :
    (∃ captures, f <$> result = .ok captures) ↔ ∃ captures, result = .ok captures := by
  cases result <;> simp [Functor.map, Except.map]

/-- The matcher panics where a token marker can begin at a word that is not ASCII. -/
theorem matchLine_ok_iff :
    (∃ result, matchLine pattern line = .ok result) ↔ Legible pattern line := by
  induction pattern generalizing line with
  | nil =>
      refine iff_of_true ⟨_, rfl⟩ ?_
      intro front name tail captures behind heq
      exact absurd heq.symm (List.append_ne_nil_of_right_ne_nil _ (List.cons_ne_nil _ _))
  | cons token tail ih =>
      rw [legible_cons]
      by_cases hkind : ∃ name, token = .token name
      · obtain ⟨name, rfl⟩ := hkind
        rw [matchLine_token_ok_iff]
        simp only [ih, PatternToken.token.injEq, forall_eq']
      · have hkind : ∀ name, token ≠ .token name := fun name same => hkind ⟨name, same⟩
        by_cases hstep : ∃ first middle, Step token line first middle
        · obtain ⟨first, middle, hstep⟩ := hstep
          rw [matchLine_step hkind hstep, map_ok_iff, ih]
          constructor
          · intro h
            refine ⟨fun name same => absurd same (hkind name), fun first' middle' hstep' => ?_⟩
            obtain ⟨-, rfl⟩ := Step.unique hkind hstep hstep'
            exact h
          · intro h
            exact h.2 _ _ hstep
        · have hstep : ∀ first middle, ¬ Step token line first middle := fun first middle h =>
            hstep ⟨first, middle, h⟩
          rw [matchLine_stuck hkind hstep]
          exact iff_of_true ⟨none, rfl⟩ ⟨fun name same => absurd same (hkind name),
            fun first middle h => absurd h (hstep first middle)⟩

/-- What is captured is a reading of the line. -/
theorem matchLine_some (h : matchLine pattern line = .ok (some captures)) :
    Reading pattern line captures [] := by
  induction pattern generalizing line captures with
  | nil =>
      rw [matchLine] at h
      split at h
      · next hline =>
          obtain rfl := Option.some_inj.mp (Except.ok.inj h)
          exact reading_nil_iff.mpr ⟨hline, rfl⟩
      · cases h
  | cons token tail ih =>
      by_cases hkind : ∃ name, token = .token name
      · obtain ⟨name, rfl⟩ := hkind
        rcases matchLine_token_cases h with ⟨first, middle, others, hstep, hmatch, hout⟩ | ⟨none, -⟩
        · obtain rfl := Option.some_inj.mp hout
          exact .cons hstep (ih hmatch)
        · cases none
      · have hkind : ∀ name, token ≠ .token name := fun name same => hkind ⟨name, same⟩
        by_cases hstep : ∃ first middle, Step token line first middle
        · obtain ⟨first, middle, hstep⟩ := hstep
          rw [matchLine_step hkind hstep] at h
          cases hmatch : matchLine tail middle with
          | error e =>
              rw [hmatch] at h
              cases h
          | ok result =>
              rw [hmatch] at h
              obtain ⟨others, rfl, rfl⟩ := Option.map_eq_some_iff.mp (Except.ok.inj h)
              exact .cons hstep (ih hmatch)
        · rw [matchLine_stuck hkind fun first middle h => hstep ⟨first, middle, h⟩] at h
          cases h

/-- A line without a match has no reading. -/
theorem matchLine_none (h : matchLine pattern line = .ok none) :
    ¬ Reading pattern line captures [] := by
  induction pattern generalizing line captures with
  | nil =>
      rintro ⟨⟩
      cases h
  | cons token tail ih =>
      intro hreading
      cases hreading with
      | cons hstep hreading =>
          by_cases hkind : ∃ name, token = .token name
          · obtain ⟨name, rfl⟩ := hkind
            rcases matchLine_token_cases h with ⟨_, _, _, -, -, hout⟩ | ⟨-, hstuck⟩
            · cases hout
            · exact ih (hstuck _ _ hstep) hreading
          · rw [matchLine_step (fun name same => hkind ⟨name, same⟩) hstep] at h
            rename_i middle others
            cases hmatch : matchLine tail middle with
            | error e =>
                rw [hmatch] at h
                cases h
            | ok result =>
                rw [hmatch] at h
                have none := Option.map_eq_none_iff.mp (Except.ok.inj h)
                exact ih (none ▸ hmatch) hreading

end Match

/-! ### A file without a match -/

section Files

variable {recipe : Recipe} {source : Text} {ps : List Text} {p : Text}

/-- A line as it is written back. -/
def closed (piece : Text) : Text := body piece ++ if ['\n'] <:+ piece then ['\n'] else []

theorem mapM_ok {f : Text → Except Panic Text} {ls : List Text} (h : ∀ l ∈ ls, f l = .ok l) :
    ls.mapM f = .ok ls := by
  induction ls with
  | nil => rfl
  | cons l ls ih =>
      rw [List.mapM_cons, h l List.mem_cons_self, ih fun l hl => h l (List.mem_cons_of_mem _ hl)]
      rfl

/-- Lines that are joined again, the last one with its line break if it has one. -/
theorem join_closed (hne : ps ≠ []) (h : ∀ q ∈ ps.dropLast, ['\n'] <:+ q) :
    ['\n'].intercalate (ps.map body) ++ (if ['\n'] <:+ ps.getLast hne then ['\n'] else []) =
      (ps.map closed).flatten := by
  induction ps with
  | nil => exact absurd rfl hne
  | cons p ps ih =>
      cases ps with
      | nil =>
          have whole : ['\n'].intercalate ([p].map body) = body p := by simp [List.intercalate]
          rw [whole, List.map_singleton, List.flatten_singleton, closed]
          congr
      | cons q rest =>
          have hp : ['\n'] <:+ p := h p (by simp)
          have further := ih (List.cons_ne_nil _ _) fun r hr => h r (by simp [hr])
          rw [List.map_cons (f := closed), List.flatten_cons, ← further, closed, if_pos hp,
            List.getLast_cons (List.cons_ne_nil _ _)]
          simp [List.intercalate]

theorem piece_ne_nil (h : p ∈ pieces source) : p ≠ [] := by
  obtain ⟨line, -, rfl | ⟨rfl, hne⟩⟩ := pieces_cases h
  · exact List.append_ne_nil_of_right_ne_nil _ (List.cons_ne_nil _ _)
  · exact hne

/-- Without a match, every line is written back with a plain line break. -/
theorem applyRecipe_unmatched
    (h : ∀ line ∈ lines source, matchLine recipe.matchPattern line = .ok none) :
    applyRecipe source recipe = .ok ((pieces source).map closed).flatten := by
  have same : (lines source).mapM (rewriteLine recipe) = .ok (lines source) :=
    mapM_ok fun line hline => by
      rw [rewriteLine, h line hline]
      rfl
  rw [applyRecipe, same]
  refine congrArg Except.ok ?_
  rcases List.eq_nil_or_concat' (pieces source) with none | ⟨front, last, hps⟩
  · have empty : source = [] := by rw [← flatten_pieces source, none]; rfl
    subst empty
    rfl
  · have hlast : last ≠ [] := piece_ne_nil (hps ▸ List.mem_append_right _ List.mem_cons_self)
    have ends : ['\n'] <:+ source ↔ ['\n'] <:+ last := by
      conv_lhs => rw [← flatten_pieces source, hps, List.flatten_append, List.flatten_singleton]
      rw [List.singleton_suffix_iff_getLast?_eq_some, List.singleton_suffix_iff_getLast?_eq_some,
        List.getLast?_append_of_ne_nil _ hlast]
    have joined := join_closed (show pieces source ≠ [] by simp [hps]) fun q hq => by
      rw [hps, List.dropLast_concat] at hq
      exact ends_of_pieces hps q hq
    simp only [hps, List.getLast_concat] at joined
    rw [← hps] at joined
    simp only [ends]
    exact joined

theorem closed_of_plain (h : p ∈ pieces source) (hplain : ¬ Crlf p) : closed p = p := by
  obtain ⟨one, ⟨hcrlf, -⟩ | ⟨-, hlf | ⟨hopen, -⟩⟩⟩ := body_cases h
  · exact absurd hcrlf hplain
  · have ends : ['\n'] <:+ p := by
      rw [hlf]
      exact List.suffix_append _ _
    rw [closed, if_pos ends, ← hlf]
  · have ends : ¬ ['\n'] <:+ p := fun ends =>
      one (hopen ▸ ends.subset List.mem_cons_self)
    rw [closed, if_neg ends, List.append_nil, ← hopen]

/-- Without carriage returns in front of its line breaks, a file is written back as it was. -/
theorem applyRecipe_eq_self
    (h : ∀ line ∈ lines source, matchLine recipe.matchPattern line = .ok none)
    (hplain : ∀ piece ∈ pieces source, ¬ Crlf piece) : applyRecipe source recipe = .ok source := by
  have same : (pieces source).map closed = pieces source := by
    conv_rhs => rw [← List.map_id (pieces source)]
    exact List.map_congr_left fun p hp => closed_of_plain hp (hplain p hp)
  rw [applyRecipe_unmatched h, same, flatten_pieces]

end Files

/-! ### Straight patterns -/

/-- What may stand behind a whitespace marker. -/
def StartsVisible : List PatternToken → Prop
  | .literal text :: _ => ∃ c ∈ text.head?, isBlank c = false
  | .whitespace _ :: _ => False
  | _ => True

/-- Nothing that could begin with a blank is behind a whitespace marker, other than a rest marker,
and nothing at all behind a rest marker. -/
def Straight : List PatternToken → Prop
  | [] => True
  | .whitespace _ :: tail => StartsVisible tail ∧ Straight tail
  | .rest _ :: tail => tail = []
  | _ :: tail => Straight tail

theorem Fits.of_nil {captures : Captures} (h : Fits [] captures) : captures = [] := by
  cases h
  rfl

/-- A line that fits a straight pattern fits it with the markers that take all they can. -/
theorem Straight.reading {pattern : List PatternToken} {captures : Captures}
    (hstraight : Straight pattern) (h : Fits pattern captures) :
    ∃ captures', Reading pattern (weave pattern captures) captures' [] := by
  induction h with
  | nil => exact ⟨[], .nil⟩
  | literal _ ih =>
      obtain ⟨others, hreading⟩ := ih hstraight
      exact ⟨_, .cons (.literal rfl) hreading⟩
  | token hne hword _ ih =>
      obtain ⟨others, hreading⟩ := ih hstraight
      exact ⟨_, .cons (.token hne hword rfl) hreading⟩
  | rest htail _ =>
      obtain rfl := hstraight
      obtain rfl := htail.of_nil
      exact ⟨_, .cons .rest .nil⟩
  | @whitespace name blanks tail captures hne hblank htail ih =>
      obtain ⟨hstart, htailStraight⟩ := hstraight
      obtain ⟨others, hreading⟩ := ih htailStraight
      cases htail with
      | nil => exact ⟨_, .cons (.whitespace hne hblank (by simp [weave]) rfl) hreading⟩
      | literal =>
          obtain ⟨c, hc, hvisible⟩ := hstart
          refine ⟨_, .cons (.whitespace hne hblank (fun d hd => ?_) rfl) hreading⟩
          have first := (List.head?_append (l := _)).symm.trans (Option.mem_def.mp hd)
          rw [Option.mem_def.mp hc] at first
          obtain rfl := Option.some_inj.mp first
          exact hvisible
      | whitespace => exact absurd hstart id
      | @token _ word _ _ hneWord hword =>
          refine ⟨_, .cons (.whitespace hne hblank (fun d hd => ?_) rfl) hreading⟩
          have first := (List.head?_append_of_ne_nil word hneWord).symm.trans (Option.mem_def.mp hd)
          exact hword d (List.mem_of_mem_head? first)
      | rest htail =>
          obtain rfl := htailStraight
          obtain rfl := htail.of_nil
          refine ⟨_, .cons (step_whitespace fun none => ?_) (.cons .rest .nil)⟩
          have all := (List.takeWhile_append_of_pos hblank).symm.trans none
          exact hne (List.append_eq_nil_iff.mp all).1

/-! ### The meaning of a pattern -/

/-- On a line that has ASCII words wherever a token marker can begin, the matcher does not panic
and captures something if and only if the pattern equals the line when its markers take all they
can. What it captures gives the line back. A file in which no line matches is left as it was, if
no line of it ends in a carriage return. -/
theorem match_line_sound (recipe : Recipe) (line source : Text) :
    (Legible recipe.matchPattern line →
      (∃ result, matchLine recipe.matchPattern line = .ok result) ∧
      ((∃ captures, matchLine recipe.matchPattern line = .ok (some captures)) ↔
        MatchesGreedily recipe.matchPattern line)) ∧
    (∀ captures, matchLine recipe.matchPattern line = .ok (some captures) →
      Fits recipe.matchPattern captures ∧ weave recipe.matchPattern captures = line) ∧
    ((∀ piece ∈ pieces source, ¬ Crlf piece) →
      (∀ line ∈ lines source, matchLine recipe.matchPattern line = .ok none) →
      applyRecipe source recipe = .ok source) := by
  refine ⟨fun hlegible => ?_, fun captures hmatch => ?_, fun hplain hnone => ?_⟩
  · obtain ⟨result, hresult⟩ := matchLine_ok_iff.mpr hlegible
    refine ⟨⟨result, hresult⟩, ?_, ?_⟩
    · rintro ⟨captures, hmatch⟩
      exact ⟨captures, matchLine_some hmatch⟩
    · rintro ⟨captures, hreading⟩
      cases result with
      | none => exact absurd hreading (matchLine_none hresult)
      | some captures => exact ⟨captures, hresult⟩
  · obtain ⟨hfits, hweave⟩ := (matchLine_some hmatch).fits
    rw [List.append_nil] at hweave
    exact ⟨hfits, hweave⟩
  · exact applyRecipe_eq_self hnone hplain

/-- A whitespace marker in front of a literal that begins with a blank. -/
theorem whitespace_takes_all :
    ¬ ∀ (recipe : Recipe) (line source : Text),
      (∃ result, matchLine recipe.matchPattern line = .ok result) ∧
      ((∃ captures, matchLine recipe.matchPattern line = .ok (some captures)) ↔
        Matches recipe.matchPattern line) ∧
      (∀ captures, matchLine recipe.matchPattern line = .ok (some captures) →
        Fits recipe.matchPattern captures ∧ weave recipe.matchPattern captures = line) ∧
      ((∀ line ∈ lines source, matchLine recipe.matchPattern line = .ok none) →
        applyRecipe source recipe = .ok source) := by
  intro h
  have fits : Fits [.whitespace "s".toList, .literal " end".toList] [("s".toList, [' '])] :=
    .whitespace (List.cons_ne_nil _ _) (by simp [isBlank]) (.literal .nil)
  obtain ⟨captures, hmatch⟩ :=
    (h ⟨[.whitespace "s".toList, .literal " end".toList], []⟩ "  end".toList []).2.1.mpr
      ⟨_, fits, rfl⟩
  have stuck : matchLine [.whitespace "s".toList, .literal " end".toList] "  end".toList =
      .ok none := by decide +kernel
  rw [stuck] at hmatch
  cases hmatch

end Lazuli.Cli.RecipeMatch
