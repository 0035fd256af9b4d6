import Mathlib

/-!
String literals of Go, between their quotes.

A literal is read into bytes. A character stands for its encoding, and an escape for one byte or
for the encoding of one character. It is shorter than what it is written with, so a literal that
holds a backslash never denotes its own text.
-/

namespace Lazuli.General.GoLiteral

/-! ### Reading -/

/-- What follows a backslash and is an escape by itself. -/
def simpleEscape : Char → Option UInt8
  | 'a' => some 7
  | 'b' => some 8
  | 't' => some 9
  | 'n' => some 10
  | 'v' => some 11
  | 'f' => some 12
  | 'r' => some 13
  | '"' => some 34
  | '\\' => some 92
  | _ => none

def digitValue (c : Char) : Option Nat :=
  if c.isDigit then some (c.toNat - 48)
  else if 'a' ≤ c ∧ c ≤ 'f' then some (c.toNat - 87)
  else if 'A' ≤ c ∧ c ≤ 'F' then some (c.toNat - 55)
  else none

/-- The number that the digits are in a base. -/
def number (base : Nat) (digits : List Char) : Option Nat :=
  digits.foldlM (fun n c => ((digitValue c).filter (· < base)).map (base * n + ·)) 0

def byteEscape (base : Nat) (digits : List Char) : Option (List UInt8) :=
  ((number base digits).filter (· < 256)).map fun n => [UInt8.ofNat n]

def charEscape (digits : List Char) : Option (List UInt8) :=
  ((number 16 digits).filter fun n => n.isValidChar).map fun n =>
    String.utf8EncodeChar (Char.ofNat n)

/-- No literal holds these as they are; the last two no source at all. -/
def isBarred (c : Char) : Bool := c = '"' || c = '\n' || c = '\x00' || c = '\ufeff'

/-- The bytes of a literal; there are none when it does not end with its quote. -/
def bytes : List Char → Option (List UInt8)
  | [] => some []
  | c :: rest =>
      if c = '\\' then
        match rest with
        | [] => none
        | e :: rest =>
            match simpleEscape e with
            | some b => (bytes rest).map (b :: ·)
            | none =>
                match e, rest with
                | 'x', d₁ :: d₂ :: rest =>
                    (byteEscape 16 [d₁, d₂]).bind fun bs => (bytes rest).map (bs ++ ·)
                | 'u', d₁ :: d₂ :: d₃ :: d₄ :: rest =>
                    (charEscape [d₁, d₂, d₃, d₄]).bind fun bs => (bytes rest).map (bs ++ ·)
                | 'U', d₁ :: d₂ :: d₃ :: d₄ :: d₅ :: d₆ :: d₇ :: d₈ :: rest =>
                    (charEscape [d₁, d₂, d₃, d₄, d₅, d₆, d₇, d₈]).bind fun bs =>
                      (bytes rest).map (bs ++ ·)
                | d₁, d₂ :: d₃ :: rest =>
                    (byteEscape 8 [d₁, d₂, d₃]).bind fun bs => (bytes rest).map (bs ++ ·)
                | _, _ => none
      else if isBarred c then none
      else (bytes rest).map (String.utf8EncodeChar c ++ ·)

/-- The text that a literal denotes, when its bytes are one. -/
def text (body : List Char) : Option (List Char) :=
  (bytes body).bind fun bs => bs.toByteArray.utf8Decode?.map Array.toList

/-! ### Plain literals -/

/-- A character that stands for itself. -/
def isPlain (c : Char) : Bool := c ≠ '\\' && !isBarred c

/-- How many bytes a text takes. -/
def size (s : List Char) : Nat := (s.flatMap String.utf8EncodeChar).length

section Plain

variable {s rest : List Char} {bs : List UInt8}

theorem size_cons (c : Char) (s : List Char) : size (c :: s) = c.utf8Size + size s := by
  simp [size]

theorem length_byteEscape {base : Nat} {digits : List Char} (h : byteEscape base digits = some bs) :
    bs.length = 1 := by
  obtain ⟨n, -, rfl⟩ := Option.map_eq_some_iff.mp h
  rfl

theorem length_charEscape {digits : List Char} (h : charEscape digits = some bs) :
    bs.length ≤ 4 := by
  obtain ⟨n, -, rfl⟩ := Option.map_eq_some_iff.mp h
  rw [String.length_utf8EncodeChar]
  exact Char.utf8Size_le_four _

/-- A character that begins no escape. -/
theorem bytes_cons {c : Char} (h : c ≠ '\\') : bytes (c :: rest) =
    if isBarred c then none else (bytes rest).map (String.utf8EncodeChar c ++ ·) := by
  rw [bytes.eq_def]
  exact if_neg h

theorem bytes_plain (h : ∀ c ∈ s, isPlain c = true) :
    bytes s = some (s.flatMap String.utf8EncodeChar) := by
  induction s with
  | nil => rfl
  | cons c s ih =>
      obtain ⟨hslash, hbarred⟩ := Bool.and_eq_true_iff.mp (h c List.mem_cons_self)
      rw [bytes_cons (of_decide_eq_true hslash), if_neg (by simpa using hbarred),
        ih fun d hd => h d (List.mem_cons_of_mem c hd)]
      rfl

/-- An escape takes more bytes than it denotes. -/
theorem escape_shorter {escape : Option (List UInt8)} (written : Nat)
    (h : (escape.bind fun es => (bytes rest).map (es ++ ·)) = some bs)
    (short : ∀ es, escape = some es → es.length < written)
    (ih : ∀ bs, bytes rest = some bs → bs.length ≤ size rest) :
    bs.length < written + size rest := by
  obtain ⟨es, hes, h⟩ := Option.bind_eq_some_iff.mp h
  obtain ⟨more, hmore, rfl⟩ := Option.map_eq_some_iff.mp h
  have := short es hes
  have := ih more hmore
  rw [List.length_append]
  omega

theorem length_escape (h : bytes ('\\' :: rest) = some bs)
    (ih : ∀ t : List Char, t.length ≤ rest.length → ∀ bs, bytes t = some bs →
      bs.length ≤ size t) : bs.length < size ('\\' :: rest) := by
  have hslash : ('\\' : Char).utf8Size = 1 := rfl
  rw [bytes.eq_def] at h
  simp only [if_true] at h
  split at h
  · cases h
  · rename_i e rest
    have he := e.utf8Size_pos
    simp only [size_cons, hslash]
    split at h
    · obtain ⟨more, hmore, rfl⟩ := Option.map_eq_some_iff.mp h
      have := ih rest (Nat.le_succ _) more hmore
      rw [List.length_cons]
      omega
    · split at h
      · rename_i d₁ d₂ rest _
        have := escape_shorter 2 h (fun es hes => by rw [length_byteEscape hes]; decide)
          (ih rest (by simp only [List.length_cons]; omega))
        have := d₁.utf8Size_pos
        simp only [size_cons]
        omega
      · rename_i d₁ d₂ d₃ d₄ rest _
        have := escape_shorter 5 h
          (fun es hes => Nat.lt_succ_of_le (length_charEscape hes))
          (ih rest (by simp only [List.length_cons]; omega))
        have := And.intro d₁.utf8Size_pos (And.intro d₂.utf8Size_pos d₃.utf8Size_pos)
        simp only [size_cons]
        omega
      · rename_i d₁ d₂ d₃ d₄ d₅ d₆ d₇ d₈ rest _
        have := escape_shorter 5 h
          (fun es hes => Nat.lt_succ_of_le (length_charEscape hes))
          (ih rest (by simp only [List.length_cons]; omega))
        have := And.intro d₁.utf8Size_pos (And.intro d₂.utf8Size_pos d₃.utf8Size_pos)
        simp only [size_cons]
        omega
      · rename_i d₂ d₃ rest _ _ _
        have := escape_shorter 2 h (fun es hes => by rw [length_byteEscape hes]; decide)
          (ih rest (by simp only [List.length_cons]; omega))
        have := d₂.utf8Size_pos
        simp only [size_cons]
        omega
      · cases h

/-- A literal denotes no more bytes than it takes, and fewer when it holds a backslash. -/
theorem length_bytes (h : bytes s = some bs) :
    bs.length ≤ size s ∧ ('\\' ∈ s → bs.length < size s) := by
  induction hn : s.length using Nat.strong_induction_on generalizing s bs with
  | _ n ih =>
    subst hn
    cases s with
    | nil =>
        obtain rfl := Option.some_inj.mp h
        exact ⟨Nat.le_refl _, fun mem => by cases mem⟩
    | cons c rest =>
        by_cases hc : c = '\\'
        · subst hc
          have shorter : bs.length < size ('\\' :: rest) := by
            refine length_escape h fun t ht bs hbs => ?_
            exact (ih t.length (Nat.lt_succ_of_le ht) hbs rfl).1
          exact ⟨shorter.le, fun _ => shorter⟩
        · rw [bytes_cons hc] at h
          split at h
          · cases h
          · obtain ⟨more, hmore, rfl⟩ := Option.map_eq_some_iff.mp h
            obtain ⟨hle, hlt⟩ := ih rest.length (Nat.lt_succ_self _) hmore rfl
            rw [List.length_append, String.length_utf8EncodeChar, size_cons]
            refine ⟨Nat.add_le_add_left hle _, fun mem => ?_⟩
            have later := (List.mem_cons.mp mem).resolve_left (Ne.symm hc)
            exact Nat.add_lt_add_left (hlt later) _

theorem plain_of_bytes (h : bytes s = some bs) (hslash : '\\' ∉ s) :
    ∀ c ∈ s, isPlain c = true := by
  induction s generalizing bs with
  | nil => exact fun c hc => absurd hc List.not_mem_nil
  | cons c s ih =>
      obtain ⟨hc, hs⟩ := not_or.mp fun h => hslash (List.mem_cons.mpr h)
      rw [bytes_cons (Ne.symm hc)] at h
      split at h
      · cases h
      · rename_i hbarred
        obtain ⟨more, hmore, -⟩ := Option.map_eq_some_iff.mp h
        rintro d hd
        rcases List.mem_cons.mp hd with rfl | hd
        · simp [isPlain, Ne.symm hc, hbarred]
        · exact ih hmore hs d hd

/-- A literal that denotes as long a text as its own holds no escape. -/
theorem plain_of_text {t : List Char} (h : text s = some t) (hsize : size t = size s) :
    ∀ c ∈ s, isPlain c = true := by
  obtain ⟨bs, hbs, htext⟩ := Option.bind_eq_some_iff.mp h
  obtain ⟨chars, hchars, rfl⟩ := Option.map_eq_some_iff.mp htext
  have hsome : bs.toByteArray.utf8Decode?.isSome = true := by rw [hchars]; rfl
  have hget : bs.toByteArray.utf8Decode?.get hsome = chars := Option.get_of_eq_some hsome hchars
  have hencode : chars.toList.utf8Encode = bs.toByteArray :=
    hget ▸ ByteArray.utf8Encode_get_utf8Decode?
  have hlength : bs.length = size chars.toList := by
    have := congrArg ByteArray.size hencode
    simpa [List.utf8Encode, size] using this.symm
  refine plain_of_bytes hbs fun hslash => ?_
  exact absurd ((length_bytes hbs).2 hslash) (by omega)

theorem text_plain (h : ∀ c ∈ s, isPlain c = true) : text s = some s := by
  have hencode : (s.flatMap String.utf8EncodeChar).toByteArray = s.utf8Encode := rfl
  rw [text, bytes_plain h, Option.bind_some, hencode, List.utf8Decode?_utf8Encode]
  rfl

/-- **A literal denotes a text as long as its own exactly when it is that text, all of whose
characters are plain.** -/
theorem text_eq_iff {t : List Char} (hsize : size t = size s) :
    text s = some t ↔ t = s ∧ ∀ c ∈ s, isPlain c = true := by
  constructor
  · intro h
    have hplain := plain_of_text h hsize
    exact ⟨(Option.some_inj.mp ((text_plain hplain).symm.trans h)).symm, hplain⟩
  · rintro ⟨rfl, hplain⟩
    exact text_plain hplain

end Plain

end Lazuli.General.GoLiteral
