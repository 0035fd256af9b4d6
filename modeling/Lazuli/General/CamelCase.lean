import Mathlib

/-!
Camel case.

A list of words, of small letters and digits, is written as one text with a capital for each
word (`upperCamel`), or for each word but the first (`camel`). A capital shows where a word
begins, so the words can be read back, except that a word which begins with a digit runs into
the word before. `fuse` joins such words: two lists are written the same exactly when they are
fused the same, and the two ways to write never agree.
-/

namespace Lazuli.General.CamelCase

abbrev Word := List Char

/-! ### Words -/

/-- Small letters and digits, and at least one. -/
def Spoken (w : Word) : Prop :=
  w ≠ [] ∧ ∀ c ∈ w, c.isLower = true ∨ c.isDigit = true

/-- The word begins with a small letter. -/
def opens (w : Word) : Bool := w.head?.any Char.isLower

/-- Spoken words, of which the first begins with a letter. -/
structure Speakable (ws : List Word) : Prop where
  spoken : ∀ w ∈ ws, Spoken w
  first : ∀ w ∈ ws.head?, opens w = true

def capital : Word → Word
  | [] => []
  | c :: rest => c.toUpper :: rest

def upperCamel (ws : List Word) : List Char := ws.flatMap capital

def camel : List Word → List Char
  | [] => []
  | w :: ws => w ++ upperCamel ws

/-- Each word that does not begin with a letter is joined to the one before. -/
def fuse : List Word → List Word
  | [] => []
  | w :: ws =>
      match fuse ws with
      | [] => [w]
      | v :: vs => if opens v then w :: v :: vs else (w ++ v) :: vs

section Words

variable {w : Word} {ws vs : List Word}

/-- Upper case makes no character but capitals. -/
theorem eq_of_toUpper_eq {c d : Char} (hd : d.isUpper = false) (h : c.toUpper = d) : c = d := by
  by_cases hlower : c.isLower = true
  · have hupper : c.toUpper.isUpper = true := by
      rw [Char.isUpper_toUpper_eq_isAlpha]
      simp [Char.isAlpha, hlower]
    rw [h, hd] at hupper
    cases hupper
  · rwa [Char.toUpper_eq_of_not_isLower hlower] at h

theorem not_isUpper_of_spoken (h : Spoken w) : ∀ c ∈ w, c.isUpper = false := by
  intro c hc
  rcases h.2 c hc with lower | digit
  · simpa using Char.not_isUpper_of_isLower lower
  · simp only [Char.isDigit, Char.isUpper, Bool.and_eq_true, decide_eq_true_eq] at *
    grind

theorem Spoken.append {v : Word} (hw : Spoken w) (hv : Spoken v) : Spoken (w ++ v) :=
  ⟨List.append_ne_nil_of_left_ne_nil hw.1 v, fun c hc =>
    (List.mem_append.mp hc).elim (hw.2 c) (hv.2 c)⟩

theorem opens_append {v : Word} (h : w ≠ []) : opens (w ++ v) = opens w := by
  cases w with
  | nil => exact absurd rfl h
  | cons c w => rfl

theorem Speakable.append (hw : Speakable ws) (hv : ∀ v ∈ vs, Spoken v) (h : ws ≠ []) :
    Speakable (ws ++ vs) where
  spoken w hmem := (List.mem_append.mp hmem).elim (hw.spoken w) (hv w)
  first := by
    cases ws with
    | nil => exact absurd rfl h
    | cons w ws => exact hw.first

@[simp] theorem upperCamel_nil : upperCamel [] = [] := rfl

@[simp] theorem upperCamel_cons (w : Word) (ws : List Word) :
    upperCamel (w :: ws) = capital w ++ upperCamel ws := rfl

@[simp] theorem upperCamel_append (ws vs : List Word) :
    upperCamel (ws ++ vs) = upperCamel ws ++ upperCamel vs :=
  List.flatMap_append

@[simp] theorem camel_cons (w : Word) (ws : List Word) :
    camel (w :: ws) = w ++ upperCamel ws := rfl

theorem camel_append (h : ws ≠ []) : camel (ws ++ vs) = camel ws ++ upperCamel vs := by
  cases ws with
  | nil => exact absurd rfl h
  | cons w ws => simp

theorem capital_append {v : Word} (h : w ≠ []) : capital (w ++ v) = capital w ++ v := by
  cases w with
  | nil => exact absurd rfl h
  | cons c w => rfl

/-- A word that begins with a digit has no capital. -/
theorem capital_eq_self (h : opens w = false) : capital w = w := by
  cases w with
  | nil => rfl
  | cons c w =>
      have hc : ¬ c.isLower := by simpa [opens] using h
      simp [capital, Char.toUpper_eq_of_not_isLower hc]

end Words

/-! ### Fusing -/

section Fuse

variable {w : Word} {ws vs : List Word}

theorem fuse_nil : fuse [] = [] := rfl

theorem fuse_cons : fuse (w :: ws) =
    match fuse ws with
    | [] => [w]
    | v :: vs => if opens v then w :: v :: vs else (w ++ v) :: vs := rfl

@[simp] theorem fuse_eq_nil : fuse ws = [] ↔ ws = [] := by
  cases ws with
  | nil => simp [fuse_nil]
  | cons w ws =>
      simp only [fuse_cons]
      split
      · simp
      · split <;> simp

theorem fuse_cons_of_opens (h : ∀ v ∈ ws.head?, opens v = true) (hws : ∀ w ∈ ws, w ≠ []) :
    fuse (w :: ws) = w :: fuse ws := by
  cases ws with
  | nil => rfl
  | cons v vs =>
      have hv : opens v = true := h v rfl
      have head : ∃ v' vs', fuse (v :: vs) = v' :: vs' ∧ opens v' = true := by
        simp only [fuse_cons]
        split
        · exact ⟨v, [], rfl, hv⟩
        · split
          · exact ⟨v, _, rfl, hv⟩
          · exact ⟨_, _, rfl, (opens_append (hws v List.mem_cons_self)).trans hv⟩
      obtain ⟨v', vs', hfuse, hv'⟩ := head
      rw [fuse_cons, hfuse]
      simp [hv']

theorem fuse_append_of_opens (h : ∀ v ∈ vs.head?, opens v = true) (hvs : ∀ w ∈ vs, w ≠ []) :
    fuse (ws ++ vs) = fuse ws ++ fuse vs := by
  induction ws with
  | nil => rfl
  | cons w ws ih =>
      by_cases hws : ws = []
      · subst hws
        exact fuse_cons_of_opens h hvs
      · rw [List.cons_append, fuse_cons, ih, fuse_cons]
        cases hfuse : fuse ws with
        | nil => exact absurd (fuse_eq_nil.mp hfuse) hws
        | cons v vs => simp only [List.cons_append]; split <;> rfl

theorem spoken_fuse (h : ∀ w ∈ ws, Spoken w) : ∀ w ∈ fuse ws, Spoken w := by
  induction ws with
  | nil => simp [fuse_nil]
  | cons w ws ih =>
      have hw := h w List.mem_cons_self
      have rest := ih fun v hv => h v (List.mem_cons_of_mem w hv)
      simp only [fuse_cons]
      split
      · simpa using hw
      · rename_i v vs hfuse
        rw [hfuse] at rest
        have hv := rest v List.mem_cons_self
        split
        · intro u hu
          rcases List.mem_cons.mp hu with rfl | hu
          · exact hw
          · exact rest u hu
        · intro u hu
          rcases List.mem_cons.mp hu with rfl | hu
          · exact hw.append hv
          · exact rest u (List.mem_cons_of_mem v hu)

/-- Behind the first word all words of a fused list begin with a letter. -/
theorem opens_tail_fuse (ws : List Word) : ∀ v ∈ (fuse ws).tail, opens v = true := by
  induction ws with
  | nil => simp [fuse_nil]
  | cons w ws ih =>
      simp only [fuse_cons]
      split
      · simp
      · rename_i v vs hfuse
        rw [hfuse] at ih
        split
        · rename_i hv
          simpa [hv] using ih
        · simpa using ih

theorem opens_fuse (h : Speakable ws) : ∀ v ∈ fuse ws, opens v = true := by
  intro v hv
  cases ws with
  | nil => simp [fuse_nil] at hv
  | cons w ws =>
      have hw : opens w = true := h.first w rfl
      have hne : w ≠ [] := (h.spoken w List.mem_cons_self).1
      have tail := opens_tail_fuse (w :: ws)
      revert hv tail
      simp only [fuse_cons]
      split
      · simp only [List.mem_singleton]
        rintro rfl -
        exact hw
      · split
        · intro hv tail
          rcases List.mem_cons.mp hv with rfl | hv
          · exact hw
          · exact tail v hv
        · intro hv tail
          rcases List.mem_cons.mp hv with rfl | hv
          · exact (opens_append hne).trans hw
          · exact tail v hv

theorem upperCamel_fuse (h : ∀ w ∈ ws, Spoken w) : upperCamel (fuse ws) = upperCamel ws := by
  induction ws with
  | nil => rfl
  | cons w ws ih =>
      have hw := h w List.mem_cons_self
      have rest := ih fun v hv => h v (List.mem_cons_of_mem w hv)
      rw [upperCamel_cons, ← rest, fuse_cons]
      cases hfuse : fuse ws with
      | nil => rfl
      | cons v vs =>
          cases hv : opens v with
          | true => simp [hv]
          | false => simp [hv, capital_append hw.1, capital_eq_self hv]

theorem camel_fuse (h : ∀ w ∈ ws, Spoken w) : camel (fuse ws) = camel ws := by
  cases ws with
  | nil => rfl
  | cons w ws =>
      have rest := upperCamel_fuse fun v hv => h v (List.mem_cons_of_mem w hv)
      rw [camel_cons, ← rest, fuse_cons]
      cases hfuse : fuse ws with
      | nil => rfl
      | cons v vs =>
          cases hv : opens v with
          | true => simp [hv]
          | false => simp [hv, capital_eq_self hv]

end Fuse

/-! ### Reading words back -/

section Reading

variable {w v : Word} {ws vs : List Word} {s t : List Char}

/-- The first capital is where the text can be cut. -/
theorem cut_unique (hw : ∀ c ∈ w, c.isUpper = false) (hv : ∀ c ∈ v, c.isUpper = false)
    (hs : ∀ c ∈ s.head?, c.isUpper = true) (ht : ∀ c ∈ t.head?, c.isUpper = true)
    (h : w ++ s = v ++ t) : w = v ∧ s = t := by
  induction w generalizing v with
  | nil =>
      cases v with
      | nil => exact ⟨rfl, h⟩
      | cons d v =>
          have upper := hs d (by simp [show s = d :: (v ++ t) from h])
          simp [hv d List.mem_cons_self] at upper
  | cons c w ih =>
      cases v with
      | nil =>
          have upper := ht c (by simp [show t = c :: (w ++ s) from h.symm])
          simp [hw c List.mem_cons_self] at upper
      | cons d v =>
          obtain ⟨rfl, rest⟩ := List.cons.inj h
          obtain ⟨rfl, same⟩ := ih (fun c hc => hw c (List.mem_cons_of_mem _ hc))
            (fun c hc => hv c (List.mem_cons_of_mem _ hc)) rest
          exact ⟨rfl, same⟩

theorem isUpper_head_upperCamel (h : ∀ w ∈ ws.head?, opens w = true) :
    ∀ c ∈ (upperCamel ws).head?, c.isUpper = true := by
  cases ws with
  | nil => simp
  | cons w ws =>
      have hw := h w rfl
      cases w with
      | nil => simp [opens] at hw
      | cons c w =>
          have lower : c.isLower = true := hw
          simp [capital, Char.isAlpha, lower]

theorem isAlphanum_of_mem_upperCamel (h : ∀ w ∈ ws, Spoken w) :
    ∀ c ∈ upperCamel ws, c.isAlphanum = true := by
  have spoken {c : Char} (hc : c.isLower = true ∨ c.isDigit = true) : c.isAlphanum = true := by
    rcases hc with hc | hc <;> simp [Char.isAlphanum, Char.isAlpha, hc]
  intro c hc
  obtain ⟨w, hw, hc⟩ := List.mem_flatMap.mp hc
  obtain ⟨-, chars⟩ := h w hw
  cases w with
  | nil => cases hc
  | cons d w =>
      rcases List.mem_cons.mp hc with rfl | hc
      · have hd := spoken (chars d List.mem_cons_self)
        rw [Char.isAlphanum, Char.isAlpha_toUpper_eq_isAlpha]
        cases alpha : d.isAlpha with
        | true => rfl
        | false =>
            have lower : ¬ d.isLower := by simp [Char.isAlpha] at alpha; simp [alpha.2]
            rwa [Char.toUpper_eq_of_not_isLower lower, ← alpha]
      · exact spoken (chars c (List.mem_cons_of_mem d hc))

theorem toUpper_inj {c d : Char} (hc : c.isLower = true) (hd : d.isLower = true)
    (h : c.toUpper = d.toUpper) : c = d := by
  have lowered := congrArg Char.toLower h
  rw [Char.toLower_toUpper_eq_toLower, Char.toLower_toUpper_eq_toLower] at lowered
  rwa [Char.toLower_eq_of_not_isUpper (Char.not_isUpper_of_isLower hc),
    Char.toLower_eq_of_not_isUpper (Char.not_isUpper_of_isLower hd)] at lowered

theorem upperCamel_inj (hws : ∀ w ∈ ws, Spoken w ∧ opens w = true)
    (hvs : ∀ v ∈ vs, Spoken v ∧ opens v = true) (h : upperCamel ws = upperCamel vs) :
    ws = vs := by
  have nonempty {u : Word} (hu : Spoken u ∧ opens u = true) : capital u ≠ [] := by
    cases u with
    | nil => exact absurd rfl hu.1.1
    | cons c u => simp [capital]
  induction ws generalizing vs with
  | nil =>
      cases vs with
      | nil => rfl
      | cons v vs =>
          have none := (List.append_eq_nil_iff.mp h.symm).1
          exact absurd none (nonempty (hvs v List.mem_cons_self))
  | cons w ws ih =>
      cases vs with
      | nil =>
          have none := (List.append_eq_nil_iff.mp h).1
          exact absurd none (nonempty (hws w List.mem_cons_self))
      | cons v vs =>
          obtain ⟨hw, openW⟩ := hws w List.mem_cons_self
          obtain ⟨hv, openV⟩ := hvs v List.mem_cons_self
          have restW := fun u hu => hws u (List.mem_cons_of_mem w hu)
          have restV := fun u hu => hvs u (List.mem_cons_of_mem v hu)
          cases w with
          | nil => exact absurd rfl hw.1
          | cons c w =>
              cases v with
              | nil => exact absurd rfl hv.1
              | cons d v =>
                  obtain ⟨head, tail⟩ := List.cons.inj h
                  obtain ⟨rfl, same⟩ := cut_unique
                    (fun e he => not_isUpper_of_spoken hw e (List.mem_cons_of_mem c he))
                    (fun e he => not_isUpper_of_spoken hv e (List.mem_cons_of_mem d he))
                    (isUpper_head_upperCamel fun u hu => (restW u (List.mem_of_mem_head? hu)).2)
                    (isUpper_head_upperCamel fun u hu => (restV u (List.mem_of_mem_head? hu)).2) tail
                  rw [toUpper_inj openW openV head, ih restW restV same]

theorem camel_inj (hws : ∀ w ∈ ws, Spoken w ∧ opens w = true)
    (hvs : ∀ v ∈ vs, Spoken v ∧ opens v = true) (h : camel ws = camel vs) : ws = vs := by
  cases ws with
  | nil =>
      cases vs with
      | nil => rfl
      | cons v vs =>
          have none := (List.append_eq_nil_iff.mp h.symm).1
          exact absurd none (hvs v List.mem_cons_self).1.1
  | cons w ws =>
      cases vs with
      | nil =>
          have none := (List.append_eq_nil_iff.mp h).1
          exact absurd none (hws w List.mem_cons_self).1.1
      | cons v vs =>
          have restW := fun u hu => hws u (List.mem_cons_of_mem w hu)
          have restV := fun u hu => hvs u (List.mem_cons_of_mem v hu)
          obtain ⟨rfl, same⟩ := cut_unique
            (not_isUpper_of_spoken (hws w List.mem_cons_self).1)
            (not_isUpper_of_spoken (hvs v List.mem_cons_self).1)
            (isUpper_head_upperCamel fun u hu => (restW u (List.mem_of_mem_head? hu)).2)
            (isUpper_head_upperCamel fun u hu => (restV u (List.mem_of_mem_head? hu)).2) h
          rw [upperCamel_inj restW restV same]

/-- Two lists of words are written the same with capitals exactly when they fuse to the same
words. -/
theorem upperCamel_eq_iff (hws : Speakable ws) (hvs : Speakable vs) :
    upperCamel ws = upperCamel vs ↔ fuse ws = fuse vs := by
  rw [← upperCamel_fuse hws.spoken, ← upperCamel_fuse hvs.spoken]
  constructor
  · exact upperCamel_inj (fun w hw => ⟨spoken_fuse hws.spoken w hw, opens_fuse hws w hw⟩)
      (fun v hv => ⟨spoken_fuse hvs.spoken v hv, opens_fuse hvs v hv⟩)
  · exact congrArg upperCamel

/-- The same for a first word without a capital. -/
theorem camel_eq_iff (hws : Speakable ws) (hvs : Speakable vs) :
    camel ws = camel vs ↔ fuse ws = fuse vs := by
  rw [← camel_fuse hws.spoken, ← camel_fuse hvs.spoken]
  constructor
  · exact camel_inj (fun w hw => ⟨spoken_fuse hws.spoken w hw, opens_fuse hws w hw⟩)
      (fun v hv => ⟨spoken_fuse hvs.spoken v hv, opens_fuse hvs v hv⟩)
  · exact congrArg camel

theorem upperCamel_ne_camel (hws : Speakable ws) (hvs : Speakable vs) (h : ws ≠ []) :
    upperCamel ws ≠ camel vs := by
  intro same
  cases ws with
  | nil => exact h rfl
  | cons w ws =>
      have openW := hws.first w rfl
      cases w with
      | nil => simp [opens] at openW
      | cons c w =>
          have lower : c.isLower = true := openW
          cases vs with
          | nil => simp [capital, camel] at same
          | cons v vs =>
              have openV := hvs.first v rfl
              cases v with
              | nil => simp [opens] at openV
              | cons d v =>
                  have lower' : d.isLower = true := openV
                  obtain ⟨head, -⟩ := List.cons.inj same
                  have upper : d.isUpper = true := by
                    rw [← head, Char.isUpper_toUpper_eq_isAlpha, Char.isAlpha, lower, Bool.or_true]
                  exact Char.not_isUpper_of_isLower lower' upper

end Reading

end Lazuli.General.CamelCase

/-!
Snake case.

A text of letters and digits is written in small letters, with an underscore in front of the
capitals that follow a character of some kind (`snake`). Underscores in front of every capital
but the first, and underscores only where a small letter or a digit is before it, are the same
exactly when no two capitals are next to each other.
-/

namespace Lazuli.General.SnakeCase

/-- The rest of a text, behind the character `prev`. -/
def snakeAfter (marks : Char → Bool) (prev : Char) : List Char → List Char
  | [] => []
  | c :: rest =>
      (if c.isUpper && marks prev then ['_'] else []) ++ c.toLower :: snakeAfter marks c rest

/-- `marks` says behind which characters a capital has an underscore. -/
def snake (marks : Char → Bool) : List Char → List Char
  | [] => []
  | c :: rest => c.toLower :: snakeAfter marks c rest

/-- Behind a small letter or a digit. -/
def small (c : Char) : Bool := c.isLower || c.isDigit

/-- No capital is next to another. -/
def Spaced (s : List Char) : Prop := s.IsChain fun a b => ¬ (a.isUpper = true ∧ b.isUpper = true)

instance (s : List Char) : Decidable (Spaced s) := by
  unfold Spaced
  infer_instance

section

variable {marks : Char → Bool} {c : Char} {s : List Char}

theorem small_or_upper (h : c.isAlphanum = true) : small c = !c.isUpper := by
  simp only [Char.isAlphanum, Char.isAlpha, Char.isDigit, Char.isLower, Char.isUpper, small,
    Bool.or_eq_true, Bool.and_eq_true, decide_eq_true_eq] at *
  grind

theorem toLower_ne_underscore (h : c.isAlphanum = true) : c.toLower ≠ '_' := by
  intro same
  cases hupper : c.isUpper with
  | true =>
      have halpha : c.toLower.isAlpha = true := by simp [Char.isAlpha, hupper]
      rw [same] at halpha
      cases halpha
  | false =>
      rw [Char.toLower_eq_of_not_isUpper (by simp [hupper])] at same
      rw [same] at h
      cases h

theorem snakeAfter_inj_of_spaced (hs : ∀ a ∈ c :: s, a.isAlphanum = true) :
    snakeAfter small c s = snakeAfter (fun _ => true) c s ↔ Spaced (c :: s) := by
  induction s generalizing c with
  | nil => simp [snakeAfter, Spaced]
  | cons d s ih =>
      have hc := small_or_upper (hs c List.mem_cons_self)
      have hd := toLower_ne_underscore (hs d (List.mem_cons_of_mem _ List.mem_cons_self))
      have ih := ih (c := d) fun a ha => hs a (List.mem_cons_of_mem _ ha)
      have hchain : Spaced (c :: d :: s) ↔
          ¬ (c.isUpper = true ∧ d.isUpper = true) ∧ Spaced (d :: s) := List.isChain_cons_cons
      rw [hchain, snakeAfter, snakeAfter, hc]
      cases hcu : c.isUpper with
      | false => simpa [hcu] using ih
      | true =>
          cases hdu : d.isUpper with
          | false => simpa [hcu, hdu] using ih
          | true => simp [hd]

/-- The two ways to write a text agree exactly when its capitals are apart. -/
theorem snake_eq_iff_spaced (hs : ∀ a ∈ s, a.isAlphanum = true) :
    snake small s = snake (fun _ => true) s ↔ Spaced s := by
  cases s with
  | nil => simp [snake, Spaced]
  | cons c s =>
      rw [snake, snake, List.cons.injEq, and_iff_right rfl]
      exact snakeAfter_inj_of_spaced hs

/-! ### Ends -/

theorem head_snake (hs : ∀ a ∈ s, a.isAlphanum = true) : ∀ a ∈ (snake marks s).head?, a ≠ '_' := by
  cases s with
  | nil => simp [snake]
  | cons c s =>
      intro a ha
      obtain rfl : c.toLower = a := by simpa [snake] using ha
      exact toLower_ne_underscore (hs c List.mem_cons_self)

theorem getLast_snakeAfter (hs : ∀ a ∈ s, a.isAlphanum = true) :
    ∀ a ∈ (snakeAfter marks c s).getLast?, a ≠ '_' := by
  induction s generalizing c with
  | nil => simp [snakeAfter]
  | cons d s ih =>
      have hd := toLower_ne_underscore (hs d List.mem_cons_self)
      have ih := ih (c := d) fun a ha => hs a (List.mem_cons_of_mem _ ha)
      intro a ha
      rw [snakeAfter, List.getLast?_append_of_ne_nil _ (List.cons_ne_nil _ _),
        List.getLast?_cons] at ha
      cases hrest : (snakeAfter marks d s).getLast? with
      | none =>
          rw [hrest] at ha
          obtain rfl : d.toLower = a := by simpa using ha
          exact hd
      | some b =>
          rw [hrest] at ha
          obtain rfl : b = a := by simpa using ha
          exact ih b hrest

theorem getLast_snake (hs : ∀ a ∈ s, a.isAlphanum = true) :
    ∀ a ∈ (snake marks s).getLast?, a ≠ '_' := by
  cases s with
  | nil => simp [snake]
  | cons c s =>
      intro a ha
      rw [snake, List.getLast?_cons] at ha
      cases hrest : (snakeAfter marks c s).getLast? with
      | none =>
          rw [hrest] at ha
          obtain rfl : c.toLower = a := by simpa using ha
          exact toLower_ne_underscore (hs c List.mem_cons_self)
      | some b =>
          rw [hrest] at ha
          obtain rfl : b = a := by simpa using ha
          exact getLast_snakeAfter (fun d hd => hs d (List.mem_cons_of_mem _ hd)) b hrest

/-- A text in snake case is none of its names with a capital in front. -/
theorem snake_ne_of_head_isUpper (h : s.head?.any Char.isUpper = true) : snake marks s ≠ s := by
  cases s with
  | nil => simp at h
  | cons c s =>
      intro same
      have hc : c.toLower = c := (List.cons.inj same).1
      have hupper : c.toLower.isUpper = true := by
        rw [hc]
        simpa using h
      rw [Char.isUpper_toLower_eq_false] at hupper
      cases hupper

end

end Lazuli.General.SnakeCase
