import Mathlib
import Lazuli.General.Base64
import Lazuli.General.Text

/-!
Password hashes (`runtime/go/lazuli/auth/password.go`).

A hash is stored with the parameters it was computed with. The encoder always writes the same
ones, and the verifier does not look at them: it takes the salt and the length of the key out of
the stored hash, and everything else from its own constants.
-/

namespace Lazuli.Auth.Password

open Lazuli.General

abbrev Bytes := List UInt8

def AlgoArgon2id : String := "argon2id"

def AlgoBcrypt : String := "bcrypt"

def argon2idMemoryKiB : Nat := 64 * 1024

def argon2idTime : Nat := 3

def argon2idThreads : Nat := 4

def argon2idKeyLen : Nat := 32

structure Argon2Params where
  salt : Bytes
  time : Nat
  memory : Nat
  threads : Nat
  keyLen : Nat
  deriving DecidableEq

inductive PasswordError where
  | mismatch
  | hashMalformed
  | algoUnsupported
  | argon2Saturated
  | bcrypt (message : String)
  deriving DecidableEq

/-- The two hash functions. `argon2.IDKey` may not return, and a comparison of `bcrypt` fails
with a mismatch or with another error. -/
structure Library where
  idKey : Bytes → Argon2Params → Option Bytes
  generateFromPassword : Bytes → Except String (List Char)
  compareHashAndPassword : List Char → Bytes → Except PasswordError Unit

/-! ### Stored hashes -/

/-- A hash with the parameters `m`, `t` and `p`. -/
def phc (m t p : Nat) (salt hash : Bytes) : List Char :=
  "$argon2id$v=19$m=".toList ++ (toString m).toList ++ ",t=".toList ++ (toString t).toList ++
    ",p=".toList ++ (toString p).toList ++ "$".toList ++ Base64.encode salt ++ "$".toList ++
    Base64.encode hash

def encodeArgon2idPHC (salt hash : Bytes) : List Char :=
  phc argon2idMemoryKiB argon2idTime argon2idThreads salt hash

/-- Of the six parts the version and the parameters are not looked at. -/
def decodeArgon2idPHC (encoded : List Char) : Option (Bytes × Bytes) :=
  match encoded.splitOn '$' with
  | [_, name, _, _, salt, hash] =>
      if name = "argon2id".toList then
        (Base64.decode salt).bind fun salt => (Base64.decode hash).map fun hash => (salt, hash)
      else none
  | _ => none

section Library

variable (lib : Library) (saturated : Bool)

/-- `saturated` when no slot becomes free before the context is done. -/
def hashWithArgon2 (password : Bytes) (params : Argon2Params) :
    Option (Except PasswordError Bytes) :=
  if saturated then some (.error .argon2Saturated) else (lib.idKey password params).map .ok

/-- `salt` is what the random source gives. -/
def hashPassword (algorithm : String) (salt plaintext : Bytes) :
    Option (Except PasswordError (List Char)) :=
  if algorithm = AlgoArgon2id ∨ algorithm = "" then
    (hashWithArgon2 lib saturated plaintext
      ⟨salt, argon2idTime, argon2idMemoryKiB, argon2idThreads, argon2idKeyLen⟩).map fun
        | .error err => .error err
        | .ok hash => .ok (encodeArgon2idPHC salt hash)
  else if algorithm = AlgoBcrypt then
    some ((lib.generateFromPassword plaintext).mapError .bcrypt)
  else some (.error .algoUnsupported)

/-- The length of the key is one of 32 bits. -/
def verifyPassword (algorithm : String) (plaintext : Bytes) (storedHash : List Char) :
    Option (Except PasswordError Unit) :=
  if algorithm = AlgoArgon2id ∨ algorithm = "" then
    match decodeArgon2idPHC storedHash with
    | none => some (.error .hashMalformed)
    | some (salt, want) =>
        (hashWithArgon2 lib saturated plaintext
          ⟨salt, argon2idTime, argon2idMemoryKiB, argon2idThreads, want.length % 2 ^ 32⟩).map fun
            | .error err => .error err
            | .ok got => if got = want then .ok () else .error .mismatch
  else if algorithm = AlgoBcrypt then some (lib.compareHashAndPassword storedHash plaintext)
  else some (.error .algoUnsupported)

end Library

/-! ### Reading a stored hash -/

theorem dollar_notMem_toString (n : Nat) : '$' ∉ (toString n).toList := by
  intro mem
  exact absurd (Text.isDigit_of_mem_toString_nat mem) (by decide)

theorem dollar_notMem_encode (data : Bytes) : '$' ∉ Base64.encode data := by
  intro mem
  exact absurd (Base64.mem_alphabet_of_mem_encode mem) (by decide)

/-- The parts between the dollar signs. -/
theorem splitOn_phc (m t p : Nat) (salt hash : Bytes) : (phc m t p salt hash).splitOn '$' =
    [[], "argon2id".toList, "v=19".toList,
      "m=".toList ++ (toString m).toList ++ ",t=".toList ++ (toString t).toList ++ ",p=".toList ++
        (toString p).toList, Base64.encode salt, Base64.encode hash] := by
  set parameters := "m=".toList ++ (toString m).toList ++ ",t=".toList ++ (toString t).toList ++
    ",p=".toList ++ (toString p).toList with parameters_eq
  have free : '$' ∉ parameters := by
    have literal : ∀ text ∈ ["m=".toList, ",t=".toList, ",p=".toList], '$' ∉ text := by decide
    rw [parameters_eq]
    simp only [List.mem_append, not_or]
    exact ⟨⟨⟨⟨⟨literal _ (by simp), dollar_notMem_toString m⟩, literal _ (by simp)⟩,
      dollar_notMem_toString t⟩, literal _ (by simp)⟩, dollar_notMem_toString p⟩
  have joined : phc m t p salt hash = List.intercalate ['$']
      [[], "argon2id".toList, "v=19".toList, parameters, Base64.encode salt,
        Base64.encode hash] := by
    have front : "$argon2id$v=19$m=".toList =
        ['$'] ++ "argon2id".toList ++ ['$'] ++ "v=19".toList ++ ['$'] ++ "m=".toList := rfl
    have dollar : "$".toList = ['$'] := rfl
    unfold phc
    simp only [front, dollar, parameters_eq, List.intercalate_cons_cons,
      List.intercalate_singleton, List.nil_append, List.append_assoc]
  rw [joined]
  refine List.splitOn_intercalate '$' ?_ (List.cons_ne_nil _ _)
  have named : ∀ text ∈ [[], "argon2id".toList, "v=19".toList], '$' ∉ text := by decide
  simp only [List.forall_mem_cons] at named ⊢
  exact ⟨named.1, named.2.1, named.2.2.1, free, dollar_notMem_encode salt,
    dollar_notMem_encode hash, fun _ mem => absurd mem List.not_mem_nil⟩

/-- Salt and key are read back, and the parameters are dropped. -/
theorem decode_phc (m t p : Nat) (salt hash : Bytes) :
    decodeArgon2idPHC (phc m t p salt hash) = some (salt, hash) := by
  rw [decodeArgon2idPHC, splitOn_phc]
  simp only [↓reduceIte, Base64.decode_encode, Option.bind_some, Option.map_some]

/-! ### Verification -/

/-- What the verifier computes the hash with. -/
def verifierParams (salt key : Bytes) : Argon2Params :=
  ⟨salt, argon2idTime, argon2idMemoryKiB, argon2idThreads, key.length % 2 ^ 32⟩

theorem verifyPassword_phc (lib : Library) (m t p : Nat) (salt key plaintext : Bytes) :
    verifyPassword lib false AlgoArgon2id plaintext (phc m t p salt key) =
      (lib.idKey plaintext (verifierParams salt key)).map fun got =>
        if got = key then .ok () else .error .mismatch := by
  rw [verifyPassword, if_pos (.inl rfl), decode_phc]
  simp only [hashWithArgon2, Bool.false_eq_true, ↓reduceIte, verifierParams, Option.map_map]
  rfl

/-- What `HashPassword` stores for a password verifies the passwords that Argon2id makes the same
key of, this one with them, and no others. -/
theorem verifyPassword_hashPassword {lib : Library} {written read : String} {stored : List Char}
    {salt plaintext : Bytes} (hwritten : written = AlgoArgon2id ∨ written = "")
    (hread : read = AlgoArgon2id ∨ read = "")
    (length : ∀ password params key, lib.idKey password params = some key →
      key.length = params.keyLen)
    (hashed : hashPassword lib false written salt plaintext = some (.ok stored))
    (attempt : Bytes) :
    verifyPassword lib false read attempt stored = some (.ok ()) ↔
      lib.idKey attempt ⟨salt, argon2idTime, argon2idMemoryKiB, argon2idThreads, argon2idKeyLen⟩ =
        lib.idKey plaintext
          ⟨salt, argon2idTime, argon2idMemoryKiB, argon2idThreads, argon2idKeyLen⟩ := by
  rw [hashPassword, if_pos hwritten, hashWithArgon2, if_neg Bool.false_ne_true] at hashed
  cases computed : lib.idKey plaintext
      ⟨salt, argon2idTime, argon2idMemoryKiB, argon2idThreads, argon2idKeyLen⟩ with
  | none =>
      rw [computed] at hashed
      cases hashed
  | some key =>
      rw [computed] at hashed
      obtain rfl : encodeArgon2idPHC salt key = stored := Except.ok.inj (Option.some.inj hashed)
      have same : verifierParams salt key =
          ⟨salt, argon2idTime, argon2idMemoryKiB, argon2idThreads, argon2idKeyLen⟩ := by
        rw [verifierParams, length _ _ _ computed]
        rfl
      have named : verifyPassword lib false read attempt (encodeArgon2idPHC salt key) =
          verifyPassword lib false AlgoArgon2id attempt (encodeArgon2idPHC salt key) := by
        rw [verifyPassword, verifyPassword, if_pos hread, if_pos (.inl rfl)]
      rw [named, encodeArgon2idPHC, verifyPassword_phc, same]
      cases lib.idKey attempt
          ⟨salt, argon2idTime, argon2idMemoryKiB, argon2idThreads, argon2idKeyLen⟩ with
      | none => simp
      | some got => by_cases equal : got = key <;> simp [equal]

/-- A key that is the first byte of the password over and over. -/
theorem verifyPassword_hashPassword_first :
    let lib : Library :=
      { idKey := fun password params => some (List.replicate params.keyLen (password.headD 0))
        generateFromPassword := fun _ => .error "unused"
        compareHashAndPassword := fun _ _ => .error .mismatch }
    let params : Argon2Params :=
      ⟨[1, 2], argon2idTime, argon2idMemoryKiB, argon2idThreads, argon2idKeyLen⟩
    verifyPassword lib false "" [7, 9] (encodeArgon2idPHC [1, 2] (List.replicate 32 7)) =
        some (.ok ()) ↔
      lib.idKey [7, 9] params = lib.idKey [7, 8] params := by
  intro lib params
  refine verifyPassword_hashPassword (.inl rfl) (.inr rfl) ?_ rfl [7, 9]
  rintro password params key computed
  obtain rfl := Option.some.inj computed
  exact List.length_replicate

/-- A hash is read back without its parameters and verified with the constants, whatever its
parameters are; those of the encoder are the constants. -/
theorem verifyPassword_phc_iff (lib : Library) (m t p : Nat) (salt key plaintext : Bytes) :
    decodeArgon2idPHC (phc m t p salt key) = some (salt, key) ∧
    (verifyPassword lib false AlgoArgon2id plaintext (phc m t p salt key) = some (.ok ()) ↔
      lib.idKey plaintext (verifierParams salt key) = some key) ∧
    encodeArgon2idPHC salt key = phc (verifierParams salt key).memory
      (verifierParams salt key).time (verifierParams salt key).threads salt key := by
  refine ⟨decode_phc m t p salt key, ?_, rfl⟩
  rw [verifyPassword_phc]
  cases lib.idKey plaintext (verifierParams salt key) with
  | none => exact iff_of_false nofun nofun
  | some got =>
      rw [Option.map_some, Option.some_inj, Option.some_inj]
      by_cases same : got = key
      · exact iff_of_true (if_pos same) same
      · rw [if_neg same]
        exact iff_of_false nofun same

/-- A hash with two rounds does not verify its own password, and one without a salt does. -/
theorem recorded_params_ignored :
    let lib : Library :=
      { idKey := fun _ params => some (List.replicate params.keyLen (.ofNat params.time))
        generateFromPassword := fun _ => .error "unused"
        compareHashAndPassword := fun _ _ => .error .mismatch }
    lib.idKey [] ⟨[1], 2, 65536, 4, 2⟩ = some [2, 2] ∧
      verifyPassword lib false AlgoArgon2id [] (phc 65536 2 4 [1] [2, 2]) =
        some (.error .mismatch) ∧
      verifyPassword lib false AlgoArgon2id [] (encodeArgon2idPHC [] [3]) = some (.ok ()) := by
  intro lib
  refine ⟨rfl, ?_, ?_⟩
  · rw [verifyPassword_phc]
    rfl
  · rw [encodeArgon2idPHC, verifyPassword_phc]
    rfl

end Lazuli.Auth.Password
