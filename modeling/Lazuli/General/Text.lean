import Mathlib.Data.List.DropRight

/-!
Texts as lists of characters: trimming, where a character can stand, and numbers in decimal.

`trim` removes Unicode white space at both ends, so it neither adds nor drops any other
character. A text that joins parts with a mark which the parts do not contain can be cut
again, from either end; the decimal text of an integer is such a part, and determines it.
-/

namespace Lazuli.General.Text

/-- The Unicode property `White_Space`. -/
def isWhitespace (c : Char) : Bool :=
  c.val ∈ [0x9, 0xA, 0xB, 0xC, 0xD, 0x20, 0x85, 0xA0, 0x1680, 0x2028, 0x2029, 0x202F, 0x205F,
    0x3000] ∨ 0x2000 ≤ c.val ∧ c.val ≤ 0x200A

/-- The visible characters of ASCII are no white space. -/
theorem isWhitespace_of_visible {c : Char} (h : 32 < c.val.toNat ∧ c.val.toNat < 127) :
    isWhitespace c = false := by
  simp only [isWhitespace, decide_eq_false_iff_not, not_or]
  constructor
  · intro hmem
    simp only [List.mem_cons, List.not_mem_nil, or_false] at hmem
    rcases hmem with same | same | same | same | same | same | same | same | same | same | same |
      same | same | same <;> simp [same] at h
  · rintro ⟨hlow, -⟩
    have hlow : 8192 ≤ c.val.toNat := UInt32.le_iff_toNat_le.mp hlow
    omega

theorem isWhitespace_of_isDigit {c : Char} (h : c.isDigit = true) : isWhitespace c = false := by
  simp only [Char.isDigit, Bool.and_eq_true, decide_eq_true_eq, ge_iff_le,
    UInt32.le_iff_toNat_le] at h
  have hval : 48 ≤ c.val.toNat ∧ c.val.toNat ≤ 57 := h
  exact isWhitespace_of_visible (by omega)

def trim (s : List Char) : List Char :=
  (s.dropWhile isWhitespace).rdropWhile isWhitespace

section Trim

variable {c : Char} {s : List Char}

/-- Trimming takes white space away, at both ends. -/
theorem trim_decomposition (s : List Char) :
    ∃ w w' : List Char, s = w ++ (trim s ++ w') ∧
      (∀ c ∈ w, isWhitespace c = true) ∧ ∀ c ∈ w', isWhitespace c = true := by
  refine ⟨s.takeWhile isWhitespace, (s.dropWhile isWhitespace).rtakeWhile isWhitespace,
    ?_, fun c hc => List.mem_takeWhile_imp hc, fun c hc => List.mem_rtakeWhile_imp hc⟩
  rw [trim, List.rdropWhile_append_rtakeWhile, List.takeWhile_append_dropWhile]

theorem mem_of_mem_trim (h : c ∈ trim s) : c ∈ s := by
  obtain ⟨w, w', hs, -, -⟩ := trim_decomposition s
  rw [hs]
  exact List.mem_append_right _ (List.mem_append_left _ h)

theorem length_trim_le (s : List Char) : (trim s).length ≤ s.length := by
  obtain ⟨w, w', hs, -, -⟩ := trim_decomposition s
  have whole := congrArg List.length hs
  rw [List.length_append, List.length_append] at whole
  omega

theorem count_trim (hc : isWhitespace c = false) (s : List Char) :
    (trim s).count c = s.count c := by
  obtain ⟨w, w', hs, hw, hw'⟩ := trim_decomposition s
  have hnot {u : List Char} (hu : ∀ d ∈ u, isWhitespace d = true) : u.count c = 0 := by
    rw [List.count_eq_zero]
    intro hmem
    rw [hu c hmem] at hc
    cases hc
  conv => rhs; rw [hs]
  rw [List.count_append, List.count_append, hnot hw, hnot hw', Nat.zero_add, Nat.add_zero]

theorem mem_trim_iff (hc : isWhitespace c = false) : c ∈ trim s ↔ c ∈ s := by
  rw [← List.count_pos_iff, ← List.count_pos_iff, count_trim hc]

theorem trim_eq_self (hhead : ∀ c ∈ s.head?, isWhitespace c = false)
    (hlast : ∀ c ∈ s.getLast?, isWhitespace c = false) : trim s = s := by
  have hdrop : s.dropWhile isWhitespace = s := by
    cases s with
    | nil => rfl
    | cons c s => rw [List.dropWhile_cons_of_neg (by simp [hhead c rfl])]
  rw [trim, hdrop, List.rdropWhile_eq_self_iff]
  intro hne
  simp [hlast (s.getLast hne) (List.getLast?_eq_some_getLast hne)]

theorem isWhitespace_head_trim : ∀ c ∈ (trim s).head?, isWhitespace c = false := by
  intro c hc
  have hprefix : trim s <+: s.dropWhile isWhitespace := List.rdropWhile_prefix _ _
  obtain ⟨t, ht⟩ := hprefix
  have hhead : (s.dropWhile isWhitespace).head? = some c := by
    rw [← ht, List.head?_append, hc, Option.some_or]
  have hne := List.head?_dropWhile_not isWhitespace s
  rw [hhead] at hne
  simpa using hne

theorem isWhitespace_getLast_trim : ∀ c ∈ (trim s).getLast?, isWhitespace c = false := by
  intro c hc
  have hne : trim s ≠ [] := by
    intro hnil
    rw [hnil] at hc
    cases hc
  rw [List.getLast?_eq_some_getLast hne] at hc
  have hlast := List.rdropWhile_last_not isWhitespace (s.dropWhile isWhitespace) hne
  obtain rfl := Option.some.inj hc
  exact Bool.eq_false_iff.mpr hlast

/-- What is dropped from the end stays behind a character that is kept. -/
theorem rdropWhile_append {α : Type*} {p : α → Bool} {s : List α}
    (hlast : ∀ a ∈ s.getLast?, p a = false) (t : List α) :
    (s ++ t).rdropWhile p = s ++ t.rdropWhile p := by
  induction t using List.reverseRecOn with
  | nil =>
      rw [List.append_nil, List.rdropWhile_nil, List.append_nil, List.rdropWhile_eq_self_iff]
      intro hne
      simp [hlast _ (List.getLast?_eq_some_getLast hne)]
  | append_singleton t a ih =>
      rw [← List.append_assoc]
      cases ha : p a with
      | true => rw [List.rdropWhile_concat_pos _ _ _ ha, List.rdropWhile_concat_pos _ _ _ ha, ih]
      | false =>
          rw [List.rdropWhile_concat_neg _ _ _ (by simp [ha]),
            List.rdropWhile_concat_neg _ _ _ (by simp [ha]), List.append_assoc]

/-- White space behind a text is taken away from what stands behind the text. -/
theorem trim_append (hne : s ≠ []) (hhead : ∀ c ∈ s.head?, isWhitespace c = false)
    (hlast : ∀ c ∈ s.getLast?, isWhitespace c = false) (t : List Char) :
    trim (s ++ t) = s ++ t.rdropWhile isWhitespace := by
  have hdrop : (s ++ t).dropWhile isWhitespace = s ++ t := by
    cases s with
    | nil => exact absurd rfl hne
    | cons c s => rw [List.cons_append, List.dropWhile_cons_of_neg (by simp [hhead c rfl])]
  rw [trim, hdrop, rdropWhile_append hlast]

theorem trim_trim (s : List Char) : trim (trim s) = trim s :=
  trim_eq_self isWhitespace_head_trim isWhitespace_getLast_trim

end Trim

/-- If `q` comes right after `w` and `x`, which is neither `q` nor in `w`, comes right after
`a`, then `q` is in `a`. -/
theorem mem_of_append_eq {α : Type*} {w m a b : List α} {q x : α}
    (h : w ++ q :: m = a ++ x :: b) (hw : x ∉ w) (hq : x ≠ q) : q ∈ a := by
  rcases List.append_eq_append_iff.mp h with ⟨d, ha, hd⟩ | ⟨d, hwd, hd⟩
  · cases d with
    | nil =>
        injection hd with hqx
        exact absurd hqx.symm hq
    | cons e d =>
        injection hd with hqe
        rw [ha, hqe]
        exact List.mem_append_right _ List.mem_cons_self
  · cases d with
    | nil =>
        injection hd with hxq
        exact absurd hxq hq
    | cons e d =>
        injection hd with hxe
        exact absurd (hwd ▸ hxe ▸ List.mem_append_right a List.mem_cons_self) hw

/-! ### Cutting at a mark -/

/-- The first mark cuts a list in one way only. -/
theorem append_cons_inj_left {α : Type*} {a a' b b' : List α} {x : α} (ha : x ∉ a)
    (ha' : x ∉ a') (h : a ++ x :: b = a' ++ x :: b') : a = a' ∧ b = b' := by
  rcases List.append_eq_append_iff.mp h with ⟨d, rfl, hd⟩ | ⟨d, rfl, hd⟩
  all_goals
    cases d with
    | nil => exact ⟨by simp, by simp_all⟩
    | cons e d =>
        injection hd with hx
        subst hx
        simp at ha ha'

/-- The last mark cuts a list in one way only. -/
theorem append_cons_inj_right {α : Type*} {a a' b b' : List α} {x : α} (hb : x ∉ b)
    (hb' : x ∉ b') (h : a ++ x :: b = a' ++ x :: b') : a = a' ∧ b = b' := by
  have hrev : b.reverse ++ x :: a.reverse = b'.reverse ++ x :: a'.reverse := by
    have := congrArg List.reverse h
    simpa using this
  obtain ⟨hb, ha⟩ := append_cons_inj_left (by simpa using hb) (by simpa using hb') hrev
  exact ⟨List.reverse_injective ha, List.reverse_injective hb⟩

/-! ### Joining with a separator -/

/-- Each piece, with `sep` before it. -/
def trail {α : Type*} (sep : List α) (pieces : List (List α)) : List α :=
  pieces.flatMap fun piece => sep ++ piece

theorem trail_cons {α : Type*} (sep piece : List α) (pieces : List (List α)) :
    trail sep (piece :: pieces) = sep ++ (piece ++ trail sep pieces) := by
  simp [trail]

theorem trail_append {α : Type*} (sep : List α) (pieces more : List (List α)) :
    trail sep (pieces ++ more) = trail sep pieces ++ trail sep more := by
  simp [trail]

theorem intercalate_eq_trail {α : Type*} (sep piece : List α) (pieces : List (List α)) :
    sep.intercalate (piece :: pieces) = piece ++ trail sep pieces := by
  induction pieces generalizing piece with
  | nil => simp [trail]
  | cons next pieces ih =>
      rw [List.intercalate_cons_cons, ih, trail_cons, List.append_assoc]

/-! ### Numbers in decimal -/

theorem isDigit_of_mem_toString_nat {n : Nat} {c : Char} (h : c ∈ (toString n).toList) :
    c.isDigit = true := by
  apply Nat.isDigit_of_mem_toDigits (b := 10) (n := n) (by decide) (by decide)
  simpa [Nat.repr] using h

theorem toString_nat_injective : Function.Injective (toString : Nat → String) := by
  intro m n h
  have hdigits : Nat.toDigits 10 m = Nat.toDigits 10 n := by
    have := congrArg String.toList h
    simpa [Nat.repr] using this
  rw [← Nat.ofDigitChars_ten_toDigits (n := m), hdigits, Nat.ofDigitChars_ten_toDigits]

theorem toString_nat_ne_empty (n : Nat) : (toString n).toList ≠ [] := by
  intro h
  simp at h

theorem toList_toString_negSucc (n : Nat) :
    (toString (Int.negSucc n)).toList = '-' :: (toString (n + 1)).toList := by
  show ("-" ++ toString (n + 1)).toList = _
  rw [String.toList_append]
  rfl

/-- The sign of a number is followed by digits. -/
theorem isDigit_of_mem_toString_int {n : Int} {c : Char} (h : c ∈ (toString n).toList) :
    c.isDigit = true ∨ c = '-' := by
  cases n with
  | ofNat n => exact .inl (isDigit_of_mem_toString_nat (n := n) h)
  | negSucc n =>
      rw [toList_toString_negSucc] at h
      cases h with
      | head => exact .inr rfl
      | tail _ h => exact .inl (isDigit_of_mem_toString_nat h)

theorem toString_int_ne_sign (n : Int) : (toString n).toList ≠ ['-'] := by
  intro h
  cases n with
  | ofNat n =>
      have digit := isDigit_of_mem_toString_nat (n := n) (c := '-')
        (show '-' ∈ (toString (Int.ofNat n)).toList from h ▸ List.mem_cons_self)
      cases digit
  | negSucc n =>
      rw [toList_toString_negSucc] at h
      exact toString_nat_ne_empty _ (List.cons.inj h).2

theorem toString_int_injective : Function.Injective (toString : Int → String) := by
  have sign {m n : Nat} : toString (Int.ofNat m) ≠ toString (Int.negSucc n) := by
    intro h
    have digit := isDigit_of_mem_toString_nat (n := m) (c := '-')
      (show '-' ∈ (toString (Int.ofNat m)).toList by
        rw [h, toList_toString_negSucc]
        exact List.mem_cons_self)
    cases digit
  intro m n h
  cases m with
  | ofNat m =>
      cases n with
      | ofNat n => exact congrArg Int.ofNat (toString_nat_injective h)
      | negSucc n => exact absurd h sign
  | negSucc m =>
      cases n with
      | ofNat n => exact absurd h.symm sign
      | negSucc n =>
          have digits := congrArg String.toList h
          rw [toList_toString_negSucc, toList_toString_negSucc] at digits
          have same := toString_nat_injective (String.toList_injective (List.cons.inj digits).2)
          rw [Nat.add_right_cancel same]

end Lazuli.General.Text
