import Mathlib.Data.List.Basic
import Mathlib.Data.List.GetD
import Mathlib.Data.List.Nodup

/-!
Base64 without padding, in the standard alphabet.

The decoder skips line breaks, and does not look at the bits of the last character that stand
for nothing. What the encoder writes is read back.
-/

namespace Lazuli.General.Base64

def alphabet : List Char :=
  "ABCDEFGHIJKLMNOPQRSTUVWXYZabcdefghijklmnopqrstuvwxyz0123456789+/".toList

def digit (n : Nat) : Char := alphabet.getD n 'A'

def value? (c : Char) : Option Nat := alphabet.idxOf? c

/-! ### Groups -/

/-- The bytes as numbers of six bits. -/
def sextets : List UInt8 → List Nat
  | a :: b :: c :: bytes =>
      let v := a.toNat * 65536 + b.toNat * 256 + c.toNat
      v / 262144 :: v / 4096 % 64 :: v / 64 % 64 :: v % 64 :: sextets bytes
  | [a, b] =>
      let v := a.toNat * 65536 + b.toNat * 256
      [v / 262144, v / 4096 % 64, v / 64 % 64]
  | [a] =>
      let v := a.toNat * 65536
      [v / 262144, v / 4096 % 64]
  | [] => []

/-- The bytes of numbers of six bits, of which one cannot be left over. -/
def bytes : List Nat → Option (List UInt8)
  | a :: b :: c :: d :: rest =>
      let v := a * 262144 + b * 4096 + c * 64 + d
      (bytes rest).map fun later =>
        .ofNat (v / 65536) :: .ofNat (v / 256 % 256) :: .ofNat (v % 256) :: later
  | [a, b, c] =>
      let v := a * 262144 + b * 4096 + c * 64
      some [.ofNat (v / 65536), .ofNat (v / 256 % 256)]
  | [a, b] =>
      let v := a * 262144 + b * 4096
      some [.ofNat (v / 65536)]
  | [_] => none
  | [] => some []

def encode (data : List UInt8) : List Char := (sextets data).map digit

def decode (text : List Char) : Option (List UInt8) :=
  ((text.filter fun c => c ≠ '\n' ∧ c ≠ '\r').mapM value?).bind bytes

/-! ### The round trip -/

theorem sextets_lt (data : List UInt8) : ∀ n ∈ sextets data, n < 64 := by
  induction data using sextets.induct with
  | case1 a b c data ih =>
      have := a.toNat_lt
      have := b.toNat_lt
      have := c.toNat_lt
      simp only [sextets, List.forall_mem_cons]
      exact ⟨by omega, by omega, by omega, by omega, ih⟩
  | case2 a b =>
      have := a.toNat_lt
      have := b.toNat_lt
      simp only [sextets, List.forall_mem_cons, List.not_mem_nil, false_implies, implies_true,
        and_true]
      omega
  | case3 a =>
      have := a.toNat_lt
      simp only [sextets, List.forall_mem_cons, List.not_mem_nil, false_implies, implies_true,
        and_true]
      omega
  | case4 => exact fun n mem => absurd mem List.not_mem_nil

theorem ofNat_eq {a : UInt8} {n : Nat} (h : n = a.toNat) : UInt8.ofNat n = a := by
  rw [h, UInt8.ofNat_toNat]

theorem bytes_sextets (data : List UInt8) : bytes (sextets data) = some data := by
  induction data using sextets.induct with
  | case1 a b c data ih =>
      have := a.toNat_lt
      have := b.toNat_lt
      have := c.toNat_lt
      simp only [sextets, bytes, ih, Option.map_some]
      congr 1
      refine List.cons_eq_cons.mpr ⟨ofNat_eq (by omega), ?_⟩
      exact List.cons_eq_cons.mpr ⟨ofNat_eq (by omega),
        List.cons_eq_cons.mpr ⟨ofNat_eq (by omega), rfl⟩⟩
  | case2 a b =>
      have := a.toNat_lt
      have := b.toNat_lt
      simp only [sextets, bytes]
      congr 1
      exact List.cons_eq_cons.mpr ⟨ofNat_eq (by omega),
        List.cons_eq_cons.mpr ⟨ofNat_eq (by omega), rfl⟩⟩
  | case3 a =>
      have := a.toNat_lt
      simp only [sextets, bytes]
      congr 1
      exact List.cons_eq_cons.mpr ⟨ofNat_eq (by omega), rfl⟩
  | case4 => rfl

theorem codes_alphabet : alphabet.map Char.toNat =
    List.range' 65 26 ++ List.range' 97 26 ++ List.range' 48 10 ++ [43, 47] := rfl

/-- No character of the alphabet is another one. -/
theorem nodup_alphabet : alphabet.Nodup := by
  refine .of_map Char.toNat ?_
  rw [codes_alphabet]
  decide

theorem digit_eq {n : Nat} (h : n < alphabet.length) : digit n = alphabet[n] :=
  List.getD_eq_getElem _ _ h

theorem value?_digit {n : Nat} (h : n < 64) : value? (digit n) = some n := by
  have known : n < alphabet.length := h
  rw [value?, digit_eq known, List.idxOf?_eq_some_iff]
  refine ⟨known, rfl, fun j lt same => ?_⟩
  exact Nat.ne_of_lt lt ((nodup_alphabet.getElem_inj_iff).mp same)

theorem digit_mem {n : Nat} (h : n < 64) : digit n ∈ alphabet := by
  rw [digit_eq h]
  exact List.getElem_mem _

theorem mem_alphabet_of_mem_encode {data : List UInt8} {c : Char} (mem : c ∈ encode data) :
    c ∈ alphabet := by
  obtain ⟨n, memN, rfl⟩ := List.mem_map.mp mem
  exact digit_mem (sextets_lt data n memN)

theorem mapM_value?_digit {values : List Nat} (small : ∀ n ∈ values, n < 64) :
    (values.map digit).mapM value? = some values := by
  induction values with
  | nil => rfl
  | cons n values ih =>
      obtain ⟨head, tail⟩ := List.forall_mem_cons.mp small
      rw [List.map_cons, List.mapM_cons, value?_digit head, ih tail]
      rfl

theorem decode_encode (data : List UInt8) : decode (encode data) = some data := by
  have unbroken : (encode data).filter (fun c => c ≠ '\n' ∧ c ≠ '\r') = encode data := by
    refine List.filter_eq_self.mpr fun c mem => ?_
    have plain : alphabet.all (fun c => decide (c ≠ '\n' ∧ c ≠ '\r')) = true := by decide
    exact List.all_eq_true.mp plain c (mem_alphabet_of_mem_encode mem)
  have values : (encode data).mapM value? = some (sextets data) :=
    mapM_value?_digit (sextets_lt data)
  rw [decode, unbroken, values]
  exact bytes_sextets data

end Lazuli.General.Base64
