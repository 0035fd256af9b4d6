import Mathlib.Tactic.Positivity
import Lazuli.Runtime.RateLimit.Store
import Lazuli.Runtime.Strings

/-!
The rate limit literals (`runtime/go/lazuli/ratelimit.go`).

`parseRateLimitSpec` reads `<N> per [<M>] <unit> [per <key>]`. `Reads` is that grammar over the
white-space separated words of the literal, and `parseTokens_eq_ok_iff` says what the parser makes
of a reading: the window is a product of 64-bit integers, and only a product that wraps to zero or
below is refused. `Exact` is what the parser is for, and `exact_iff` names the literals on which it
is that.
-/

namespace Lazuli.Runtime.RateLimit

open Lazuli.General Lazuli.Runtime.Strings

/-- The caller dimension that owns a bucket. -/
inductive RateLimitKey where
  | global
  | ip
  | user
  | org
  deriving DecidableEq

/-- `limit` requests are admitted in a `window`. -/
structure RateLimitSpec where
  limit : Int
  window : Int
  key : RateLimitKey
  deriving DecidableEq

/-- `ErrRateLimitMalformed`. -/
inductive RateLimitError where
  | malformed
  deriving DecidableEq

def second : Int := 1000000000

def rateLimitWindowUnit (s : String) : Option Int :=
  match String.ofList (trimSuffix s.toList ['s']) with
  | "second" => some second
  | "minute" => some minute
  | "hour" => some (60 * minute)
  | "day" => some (24 * (60 * minute))
  | _ => none

/-- An actor is bucketed as a user. -/
def rateLimitScopeKey (s : String) : Option RateLimitKey :=
  match s with
  | "ip" => some .ip
  | "user" => some .user
  | "org" => some .org
  | "actor" => some .user
  | _ => none

/-- What follows the window: nothing, or the key. -/
def parseScope : List String → Option RateLimitKey
  | [] => some .global
  | ["per", key] => rateLimitScopeKey key
  | _ => none

/-- The window of `size` units and the key after it. The product is one of 64-bit integers. -/
def parseWindow (limit size : Int) (unit : String) (rest : List String) :
    Except RateLimitError RateLimitSpec :=
  match rateLimitWindowUnit unit with
  | none => .error .malformed
  | some unit =>
      let window := wrap64 (size * unit)
      if window ≤ 0 then .error .malformed
      else match parseScope rest with
        | none => .error .malformed
        | some key => .ok ⟨limit, window, key⟩

/-- The parser on the words of the literal: `fields[0]`, `"per"`, `fields[2]` and the rest. -/
def parseTokens : List String → Except RateLimitError RateLimitSpec
  | number :: "per" :: third :: rest =>
      match atoi number.toList with
      | none => .error .malformed
      | some limit =>
          if limit ≤ 0 then .error .malformed
          else match atoi third.toList with
            | none => parseWindow limit 1 third rest
            | some size =>
                match rest with
                | [] => .error .malformed
                | unit :: rest =>
                    if size ≤ 0 then .error .malformed else parseWindow limit size unit rest
  | _ => .error .malformed

/-- `strings.Fields(strings.ToLower(literal))`. Nothing is assumed of `unicode.ToLower`. -/
def tokens (lower : Char → Char) (literal : String) : List String :=
  (fields (literal.toList.map lower)).map String.ofList

def parseRateLimitSpec (lower : Char → Char) (literal : String) :
    Except RateLimitError RateLimitSpec :=
  parseTokens (tokens lower literal)

/-! ### The grammar -/

/-- A unit in nanoseconds, under its name or the plural of it. -/
def UnitWord (s : String) (unit : Int) : Prop :=
  ∃ word, (word, unit) ∈ [("second", second), ("minute", minute), ("hour", 60 * minute),
    ("day", 24 * (60 * minute))] ∧ (s = word ∨ s = word ++ "s")

def KeyWord (s : String) (key : RateLimitKey) : Prop :=
  (s, key) ∈ [("ip", RateLimitKey.ip), ("user", .user), ("org", .org), ("actor", .user)]

/-- `[<M>] <unit>`; no number is one. -/
inductive WindowWords : List String → Nat → Int → Prop where
  | one {unit : String} {u : Int} : UnitWord unit u → WindowWords [unit] 1 u
  | many {size unit : String} {m : Nat} {u : Int} :
      Numeral size.toList m → 0 < m → UnitWord unit u → WindowWords [size, unit] m u

/-- `[per <key>]`. -/
inductive ScopeWords : List String → RateLimitKey → Prop where
  | absent : ScopeWords [] .global
  | per {word : String} {key : RateLimitKey} : KeyWord word key → ScopeWords ["per", word] key

/-- The words are `<N> per [<M>] <unit> [per <key>]` with positive integers `n` and `m`. -/
def Reads (words : List String) (n m : Nat) (unit : Int) (key : RateLimitKey) : Prop :=
  ∃ number window scope, words = number :: "per" :: (window ++ scope) ∧
    Numeral number.toList n ∧ 0 < n ∧ WindowWords window m unit ∧ ScopeWords scope key

/-- **What the parser is for**: it accepts what the grammar reads, with the limit and the window
the literal spells, and refuses a window that a duration cannot hold. -/
def Exact (lower : Char → Char) (literal : String) : Prop :=
  ∀ spec, parseRateLimitSpec lower literal = .ok spec ↔
    ∃ n m unit key, Reads (tokens lower literal) n m unit key ∧ m * unit ≤ maxDuration ∧
      spec = ⟨n, m * unit, key⟩

/-! ### Words -/

section Words

variable {s : String}

theorem singular_eq_iff {word : String} (h : ¬ ['s'] <:+ word.toList) :
    String.ofList (trimSuffix s.toList ['s']) = word ↔ s = word ∨ s = word ++ "s" := by
  have plural : s = word ++ "s" ↔ s.toList = word.toList ++ ['s'] := by
    rw [← String.toList_inj, String.toList_append]
    rfl
  rw [← String.toList_inj, String.toList_ofList, trimSuffix_eq_iff h, String.toList_inj, plural]

theorem rateLimitWindowUnit_eq_some_iff {unit : Int} :
    rateLimitWindowUnit s = some unit ↔ UnitWord s unit := by
  have words : UnitWord s unit ↔ (String.ofList (trimSuffix s.toList ['s']), unit) ∈
      [("second", second), ("minute", minute), ("hour", 60 * minute),
        ("day", 24 * (60 * minute))] := by
    refine Iff.trans (exists_congr fun word => and_congr_right fun mem => (singular_eq_iff ?_).symm)
      exists_eq_right'
    simp only [List.mem_cons, Prod.mk.injEq, List.not_mem_nil, or_false] at mem
    rcases mem with ⟨rfl, -⟩ | ⟨rfl, -⟩ | ⟨rfl, -⟩ | ⟨rfl, -⟩ <;> decide
  rw [words]
  unfold rateLimitWindowUnit
  generalize String.ofList (trimSuffix s.toList ['s']) = word
  split <;> simp_all [eq_comm]

theorem rateLimitScopeKey_eq_some_iff {key : RateLimitKey} :
    rateLimitScopeKey s = some key ↔ KeyWord s key := by
  unfold rateLimitScopeKey KeyWord
  split <;> simp_all [eq_comm]

theorem UnitWord.pos {unit : Int} (h : UnitWord s unit) : 0 < unit := by
  obtain ⟨word, mem, -⟩ := h
  simp only [List.mem_cons, Prod.mk.injEq, List.not_mem_nil, or_false] at mem
  rcases mem with ⟨-, rfl⟩ | ⟨-, rfl⟩ | ⟨-, rfl⟩ | ⟨-, rfl⟩ <;> decide

/-- No unit is a number. -/
theorem atoi_of_unitWord {unit : Int} (h : UnitWord s unit) : atoi s.toList = none := by
  obtain ⟨word, mem, same⟩ := h
  simp only [List.mem_cons, Prod.mk.injEq, List.not_mem_nil, or_false] at mem
  rcases mem with ⟨rfl, -⟩ | ⟨rfl, -⟩ | ⟨rfl, -⟩ | ⟨rfl, -⟩ <;>
    rcases same with rfl | rfl <;> decide

theorem UnitWord.unique {u u' : Int} (h : UnitWord s u) (h' : UnitWord s u') : u = u' :=
  Option.some.inj ((rateLimitWindowUnit_eq_some_iff.mpr h).symm.trans
    (rateLimitWindowUnit_eq_some_iff.mpr h'))

theorem KeyWord.unique {key key' : RateLimitKey} (h : KeyWord s key) (h' : KeyWord s key') :
    key = key' :=
  Option.some.inj ((rateLimitScopeKey_eq_some_iff.mpr h).symm.trans
    (rateLimitScopeKey_eq_some_iff.mpr h'))

end Words

theorem WindowWords.unique {window : List String} {m m' : Nat} {u u' : Int}
    (h : WindowWords window m u) (h' : WindowWords window m' u') : m = m' ∧ u = u' := by
  cases h with
  | one word =>
      cases h' with
      | one word' => exact ⟨rfl, word.unique word'⟩
  | many size _ word =>
      cases h' with
      | many size' _ word' => exact ⟨size.unique size', word.unique word'⟩

theorem ScopeWords.unique {scope : List String} {key key' : RateLimitKey}
    (h : ScopeWords scope key) (h' : ScopeWords scope key') : key = key' := by
  cases h with
  | absent =>
      cases h' with
      | absent => rfl
  | per word =>
      cases h' with
      | per word' => exact word.unique word'

/-- A literal reads in one way: whether a key follows does not change whether the number of words
after the first `per` is odd. -/
theorem Reads.unique {words : List String} {n n' m m' : Nat} {unit unit' : Int}
    {key key' : RateLimitKey} (h : Reads words n m unit key) (h' : Reads words n' m' unit' key') :
    n = n' ∧ m = m' ∧ unit = unit' ∧ key = key' := by
  obtain ⟨number, window, scope, rfl, num, -, win, sc⟩ := h
  obtain ⟨number', window', scope', same, num', -, win', sc'⟩ := h'
  simp only [List.cons.injEq, true_and] at same
  obtain ⟨rfl, same⟩ := same
  have lengths : window.length = window'.length := by
    have total := congrArg List.length same
    rw [List.length_append, List.length_append] at total
    cases win <;> cases win' <;> cases sc <;> cases sc' <;> simp at total ⊢
  obtain ⟨rfl, rfl⟩ := List.append_inj same lengths
  exact ⟨num.unique num', (win.unique win').1, (win.unique win').2, sc.unique sc'⟩

/-! ### What the parser accepts -/

section Parser

variable {limit size : Int} {unit : String} {rest words : List String} {spec : RateLimitSpec}

theorem parseScope_eq_some_iff {key : RateLimitKey} :
    parseScope rest = some key ↔ ScopeWords rest key := by
  constructor
  · intro h
    unfold parseScope at h
    split at h
    case h_1 =>
      cases h
      exact .absent
    case h_2 => exact .per (rateLimitScopeKey_eq_some_iff.mp h)
    case h_3 => cases h
  · rintro (_ | word)
    · rfl
    · exact rateLimitScopeKey_eq_some_iff.mpr word

theorem parseWindow_eq_ok_iff :
    parseWindow limit size unit rest = .ok spec ↔
      ∃ u key, UnitWord unit u ∧ ScopeWords rest key ∧ 0 < wrap64 (size * u) ∧
        spec = ⟨limit, wrap64 (size * u), key⟩ := by
  unfold parseWindow
  constructor
  · intro h
    cases hu : rateLimitWindowUnit unit with
    | none => simp [hu] at h
    | some u =>
        by_cases low : wrap64 (size * u) ≤ 0
        · simp [hu, low] at h
        · cases hk : parseScope rest with
          | none => simp [hu, hk] at h
          | some key =>
              simp only [hu, if_neg low, hk, Except.ok.injEq] at h
              exact ⟨u, key, rateLimitWindowUnit_eq_some_iff.mp hu, parseScope_eq_some_iff.mp hk,
                by omega, h.symm⟩
  · rintro ⟨u, key, hu, hk, pos, rfl⟩
    rw [← rateLimitWindowUnit_eq_some_iff] at hu
    rw [← parseScope_eq_some_iff] at hk
    simp only [hu, hk, if_neg (show ¬ wrap64 (size * u) ≤ 0 by omega)]

/-- The parser accepts a reading whose numbers are 64-bit integers and whose window, as one, is
positive. -/
theorem parseTokens_eq_ok_iff :
    parseTokens words = .ok spec ↔
      ∃ n m unit key, Reads words n m unit key ∧ n ≤ maxDuration ∧ m ≤ maxDuration ∧
        0 < wrap64 (m * unit) ∧ spec = ⟨n, wrap64 (m * unit), key⟩ := by
  constructor
  · intro h
    unfold parseTokens at h
    split at h
    case h_2 => cases h
    case h_1 number third rest =>
      cases hn : atoi number.toList with
      | none => simp [hn] at h
      | some limit =>
          by_cases low : limit ≤ 0
          · simp [hn, low] at h
          · simp only [hn, if_neg low] at h
            obtain ⟨n, num, rfl, le⟩ := numeral_of_atoi hn (by omega)
            cases hm : atoi third.toList with
            | none =>
                simp only [hm] at h
                obtain ⟨u, key, hu, hk, pos, rfl⟩ := parseWindow_eq_ok_iff.mp h
                exact ⟨n, 1, u, key, ⟨number, [third], rest, rfl, num, by omega, .one hu, hk⟩, le,
                  by decide, pos, rfl⟩
            | some size =>
                cases rest with
                | nil => simp [hm] at h
                | cons unit rest =>
                    by_cases small : size ≤ 0
                    · simp [hm, small] at h
                    · simp only [hm, if_neg small] at h
                      obtain ⟨m, sized, rfl, le'⟩ := numeral_of_atoi hm (by omega)
                      obtain ⟨u, key, hu, hk, pos, rfl⟩ := parseWindow_eq_ok_iff.mp h
                      exact ⟨n, m, u, key, ⟨number, [third, unit], rest, rfl, num, by omega,
                        .many sized (by omega) hu, hk⟩, le, le', pos, rfl⟩
  · rintro ⟨n, m, u, key, ⟨number, window, scope, rfl, num, pos, win, sc⟩, hn, hm, positive, rfl⟩
    have limit : atoi number.toList = some (n : Int) := by rw [atoi_numeral num, if_pos hn]
    have notLow : ¬ (n : Int) ≤ 0 := by omega
    cases win with
    | one unit =>
        simp only [List.cons_append, List.nil_append, parseTokens, limit, if_neg notLow,
          atoi_of_unitWord unit]
        exact parseWindow_eq_ok_iff.mpr ⟨u, key, unit, sc, positive, rfl⟩
    | @many word _ _ _ sized sizePos unit =>
        have size : atoi word.toList = some (m : Int) := by rw [atoi_numeral sized, if_pos hm]
        have notSmall : ¬ (m : Int) ≤ 0 := by omega
        simp only [List.cons_append, List.nil_append, parseTokens, limit, if_neg notLow, size,
          if_neg notSmall]
        exact parseWindow_eq_ok_iff.mpr ⟨u, key, unit, sc, positive, rfl⟩

end Parser

/-- The limit of the literal is a 64-bit integer when its window is a duration, and a window that
is none does not wrap to a positive one. -/
def InRange (lower : Char → Char) (literal : String) : Prop :=
  ∀ n m unit key, Reads (tokens lower literal) n m unit key →
    (m * unit ≤ maxDuration → n ≤ maxDuration) ∧
      (maxDuration < m * unit → n ≤ maxDuration → m ≤ maxDuration → wrap64 (m * unit) ≤ 0)

/-- **Exact where nothing wraps.** -/
theorem exact_iff (lower : Char → Char) (literal : String) :
    Exact lower literal ↔ InRange lower literal := by
  constructor
  · intro exact n m unit key reads
    constructor
    · intro fits
      obtain ⟨n', m', unit', key', reads', le, -⟩ :=
        parseTokens_eq_ok_iff.mp ((exact _).mpr ⟨n, m, unit, key, reads, fits, rfl⟩)
      rwa [(reads.unique reads').1]
    · intro large hn hm
      by_contra positive
      rw [not_le] at positive
      obtain ⟨n', m', unit', key', reads', fits, -⟩ := (exact _).mp
        (parseTokens_eq_ok_iff.mpr ⟨n, m, unit, key, reads, hn, hm, positive, rfl⟩)
      obtain ⟨-, rfl, rfl, -⟩ := reads.unique reads'
      omega
  · intro inRange spec
    rw [parseRateLimitSpec, parseTokens_eq_ok_iff]
    refine exists_congr fun n => exists_congr fun m => exists_congr fun unit =>
      exists_congr fun key => and_congr_right fun reads => ?_
    obtain ⟨narrow, wide⟩ := inRange n m unit key reads
    obtain ⟨-, _, -, -, -, -, win, -⟩ := id reads
    have unitPos : 0 < unit := by
      cases win with
      | one word => exact word.pos
      | many _ _ word => exact word.pos
    have le : (m : Int) ≤ m * unit := le_mul_of_one_le_right (by omega) unitPos
    have nonneg : 0 ≤ (m : Int) * unit := by positivity
    constructor
    · rintro ⟨hn, hm, positive, rfl⟩
      have fits : m * unit ≤ maxDuration := by
        by_contra large
        have := wide (by omega) hn hm
        omega
      exact ⟨fits, by rw [wrap64_of_nonneg nonneg fits]⟩
    · rintro ⟨fits, rfl⟩
      have positive : 0 < (m : Int) * unit := by
        cases win with
        | one word => omega
        | many _ sizePos _ => exact mul_pos (by omega) unitPos
      rw [wrap64_of_nonneg nonneg fits]
      exact ⟨narrow fits, by omega, positive, rfl⟩

theorem reads_wrapping :
    Reads (tokens Char.toLower "1 per 307445735 minutes") 1 307445735 (60000000000) .global := by
  have words : tokens Char.toLower "1 per 307445735 minutes" =
      ["1", "per", "307445735", "minutes"] := by decide
  rw [words]
  exact ⟨"1", ["307445735", "minutes"], [], rfl, ⟨"1".toList, .inl rfl, by decide⟩, by decide,
    .many ⟨"307445735".toList, .inl rfl, by decide⟩ (by decide)
      ⟨"minute", by decide, .inr rfl⟩, .absent⟩

/-- A window of more than five centuries becomes one of 26 seconds. -/
theorem wrapped_window_accepted :
    parseRateLimitSpec Char.toLower "1 per 307445735 minutes" = .ok ⟨1, 26290448384, .global⟩ ∧
      ¬ Exact Char.toLower "1 per 307445735 minutes" := by
  have accepted : parseRateLimitSpec Char.toLower "1 per 307445735 minutes" =
      .ok ⟨1, 26290448384, .global⟩ :=
    parseTokens_eq_ok_iff.mpr ⟨1, 307445735, _, .global, reads_wrapping, by decide, by decide,
      by decide, rfl⟩
  refine ⟨accepted, fun exact => ?_⟩
  obtain ⟨n, m, unit, key, reads, fits, -⟩ := (exact _).mp accepted
  obtain ⟨-, rfl, rfl, -⟩ := reads.unique reads_wrapping
  revert fits
  decide

end Lazuli.Runtime.RateLimit
