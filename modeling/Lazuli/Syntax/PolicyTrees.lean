import Lazuli.Syntax.PolicyExpr

/-!
The trees of the policy grammar.

Every tree that the parser builds is well formed, and no part of the parser makes the text longer
(`Sound`). So the limits on depth and rounds are never met (`Within`).
-/

namespace Lazuli.Syntax

/-! ### Well-formed trees -/

/-- A token of the given letters and of digits, which no digit begins. -/
def IsToken (letter : Char → Bool) (token : List Char) : Prop :=
  ∃ c rest, token = c :: rest ∧ letter c = true ∧ rest.all (fun d => letter d || d.isDigit) = true

structure PolicyAtomAst.WellFormed (atom : PolicyAtomAst) : Prop where
  ns : atom.ns ∈ atomNamespaces
  name : isKebabOrSnakeIdent atom.name = true

inductive PolicyExprAst.WellFormed : PolicyExprAst → Prop
  | authenticated : WellFormed .authenticated
  | hasRole {name : List Char} :
      IsToken (fun c => c.isLower || c = '_') name → WellFormed (.hasRole name)
  | hasPermission {perm : List Char} :
      IsToken (fun c => c.isLower || c = '_' || c = ':') perm →
        isValidPermissionRef perm = true → WellFormed (.hasPermission perm)
  | atom {atom : PolicyAtomAst} : atom.WellFormed → WellFormed (.atom atom)
  | and {t : PolicyExprAst} {ts : List PolicyExprAst} :
      ts ≠ [] → (∀ term ∈ t :: ts, WellFormed term) → WellFormed (.and (t :: ts))
  | or {t : PolicyExprAst} {ts : List PolicyExprAst} :
      ts ≠ [] → (∀ term ∈ t :: ts, WellFormed term) → WellFormed (.or (t :: ts))
  | not {inner : PolicyExprAst} : WellFormed inner → WellFormed (.not inner)

/-! ### What the readers leave -/

section Readers

variable {c : Char} {kw s rest token : List Char} {letter : Char → Bool}

theorem length_skipWs_le (s : List Char) : (skipWs s).length ≤ s.length :=
  List.length_dropWhile_le _ s

theorem skipWs_of_consumeKeyword (h : consumeKeyword kw s = (true, rest)) :
    skipWs s = kw ++ rest := by
  unfold consumeKeyword at h
  simp only at h
  split at h
  case isFalse => cases h
  case isTrue lead =>
    have whole : kw ++ (skipWs s).drop kw.length = skipWs s := List.prefix_iff_eq_append.mp lead
    split at h
    case h_1 nothing =>
      rw [nothing] at whole
      rw [← whole, (Prod.mk.inj h).2]
    case h_2 d after left =>
      split at h
      case isFalse => cases h
      case isTrue =>
        rw [left] at whole
        rw [← whole, (Prod.mk.inj h).2]

theorem eq_skipWs_of_consumeKeyword (h : consumeKeyword kw s = (false, rest)) :
    rest = skipWs s := by
  unfold consumeKeyword at h
  simp only at h
  split at h
  case isFalse => exact (Prod.mk.inj h).2.symm
  case isTrue =>
    split at h
    case h_1 => cases h
    case h_2 =>
      split at h
      case isFalse => exact (Prod.mk.inj h).2.symm
      case isTrue => cases h

theorem skipWs_of_consumeChar (h : consumeChar c s = (true, rest)) : skipWs s = c :: rest := by
  unfold consumeChar at h
  split at h
  case h_1 => cases h
  case h_2 d after left =>
    split at h
    case isFalse => cases h
    case isTrue same => rw [left, same, (Prod.mk.inj h).2]

theorem eq_skipWs_of_consumeChar (h : consumeChar c s = (false, rest)) : rest = skipWs s := by
  unfold consumeChar at h
  split at h
  case h_1 nothing => rw [nothing, (Prod.mk.inj h).2]
  case h_2 d after left =>
    split at h
    case isFalse => rw [left, (Prod.mk.inj h).2]
    case isTrue => cases h

theorem skipWs_of_readToken (h : readToken letter s = some (token, rest)) :
    skipWs s = token ++ rest ∧ IsToken letter token := by
  unfold readToken at h
  split at h
  case h_1 => cases h
  case h_2 c tail left =>
    split at h
    case isFalse => cases h
    case isTrue first =>
      obtain ⟨rfl, rfl⟩ := Prod.mk.inj (Option.some.inj h)
      refine ⟨?_, c, _, rfl, first, ?_⟩
      · rw [left, List.cons_append, List.takeWhile_append_dropWhile]
      · exact List.all_takeWhile

theorem skipWs_of_readAtomToken (h : readAtomToken s = some (token, rest)) :
    skipWs s = token ++ rest := by
  unfold readAtomToken at h
  split at h
  case h_2 => cases h
  case h_1 tail left =>
    have body := List.takeWhile_append_dropWhile (p := isAtomChar) (l := tail)
    simp only at h
    split at h
    case isTrue => cases h
    case isFalse =>
      split at h
      case h_1 inside opened =>
        have args := List.takeWhile_append_dropWhile (p := (· ≠ ')')) (l := inside)
        split at h
        case h_1 open_ =>
          obtain ⟨rfl, rfl⟩ := Prod.mk.inj (Option.some.inj h)
          rw [open_, List.append_nil] at args
          conv_lhs => rw [left, ← body, opened]
          simp only [args, List.cons_append, List.append_nil]
        case h_2 closing after closed =>
          obtain ⟨rfl, rfl⟩ := Prod.mk.inj (Option.some.inj h)
          rw [closed] at args
          conv_lhs => rw [left, ← body, opened, ← args]
          simp only [List.cons_append, List.append_assoc, List.nil_append]
      case h_2 after _ =>
        obtain ⟨rfl, rfl⟩ := Prod.mk.inj (Option.some.inj h)
        conv_lhs => rw [left, ← body]
        rfl

theorem length_of_consumeKeyword (h : consumeKeyword kw s = (true, rest)) :
    rest.length + kw.length ≤ s.length := by
  have whole := congrArg List.length (skipWs_of_consumeKeyword h)
  have := length_skipWs_le s
  rw [List.length_append] at whole
  omega

theorem length_of_consumeKeyword_false (h : consumeKeyword kw s = (false, rest)) :
    rest.length ≤ s.length := eq_skipWs_of_consumeKeyword h ▸ length_skipWs_le s

theorem length_of_consumeChar (h : consumeChar c s = (true, rest)) : rest.length < s.length := by
  have whole := congrArg List.length (skipWs_of_consumeChar h)
  have := length_skipWs_le s
  rw [List.length_cons] at whole
  omega

theorem length_of_consumeChar_false (h : consumeChar c s = (false, rest)) :
    rest.length ≤ s.length := eq_skipWs_of_consumeChar h ▸ length_skipWs_le s

theorem length_of_skipWs (h : skipWs s = token ++ rest) : rest.length ≤ s.length := by
  have whole := congrArg List.length h
  have := length_skipWs_le s
  rw [List.length_append] at whole
  omega

end Readers

/-! ### Every tree that is read is well formed -/

theorem parseAtomBody_wellFormed {body : List Char} {args : Option (List Char)}
    {atom : PolicyAtomAst} (h : parseAtomBody body args = .ok atom) : atom.WellFormed := by
  unfold parseAtomBody at h
  split at h
  case h_1 => cases h
  case h_2 ns name _ =>
    split at h
    case isTrue => cases h
    case isFalse known =>
      split at h
      case isFalse => cases h
      case isTrue named =>
        obtain rfl := Except.ok.inj h
        exact ⟨not_not.mp known, named⟩

theorem parsePolicyAtom_wellFormed {value : List Char} {atom : PolicyAtomAst}
    (h : parsePolicyAtom value = .ok atom) : atom.WellFormed := by
  unfold parsePolicyAtom at h
  split at h
  case h_2 => cases h
  case h_1 body _ =>
    split at h
    case h_2 => exact parseAtomBody_wellFormed h
    case h_1 head tail _ =>
      split at h
      case isTrue => cases h
      case isFalse =>
        split at h
        case isTrue => cases h
        case isFalse => exact parseAtomBody_wellFormed h

/-- What is read is well formed, and what is left is no longer than the text was. -/
def Sound (p : Parser PolicyExprAst) : Prop :=
  ∀ s t rest, p s = .ok (t, rest) → t.WellFormed ∧ rest.length ≤ s.length

section Sound

variable {term unary : Parser PolicyExprAst} {kw s rest : List Char} {t : PolicyExprAst}
  {combine : List PolicyExprAst → PolicyExprAst}

theorem Sound.parseMore (sound : Sound term) {n : Nat} {ts : List PolicyExprAst}
    (h : parseMore kw term n s = .ok (ts, rest)) :
    (∀ t ∈ ts, t.WellFormed) ∧ rest.length ≤ s.length := by
  induction n generalizing s ts rest with
  | zero => cases h
  | succ n ih =>
      rw [Syntax.parseMore] at h
      split at h
      case h_1 left none =>
        obtain ⟨rfl, rfl⟩ := Prod.mk.inj (Except.ok.inj h)
        exact ⟨fun t mem => absurd mem List.not_mem_nil, length_of_consumeKeyword_false none⟩
      case h_2 left found =>
        have shorter := length_of_consumeKeyword found
        split at h
        case h_1 => cases h
        case h_2 t next read =>
          split at h
          case h_1 => cases h
          case h_2 ts' last more =>
            obtain ⟨rfl, rfl⟩ := Prod.mk.inj (Except.ok.inj h)
            obtain ⟨first, le⟩ := sound _ _ _ read
            obtain ⟨others, le'⟩ := ih more
            exact ⟨List.forall_mem_cons.mpr ⟨first, others⟩, by omega⟩

theorem Sound.parseTerms (sound : Sound term)
    (combined : ∀ t ts, ts ≠ [] → (∀ term ∈ t :: ts, term.WellFormed) →
      (combine (t :: ts)).WellFormed) : Sound (parseTerms kw combine term) := by
  intro s t rest h
  unfold Syntax.parseTerms at h
  split at h
  case h_1 => cases h
  case h_2 first next read =>
    split at h
    case h_1 => cases h
    case h_2 ts last more =>
      obtain ⟨rfl, rfl⟩ := Prod.mk.inj (Except.ok.inj h)
      obtain ⟨wellFormed, le⟩ := sound _ _ _ read
      obtain ⟨others, le'⟩ := sound.parseMore more
      refine ⟨?_, le'.trans le⟩
      cases ts with
      | nil => exact wellFormed
      | cons u ts =>
          exact combined _ _ (List.cons_ne_nil u ts) (List.forall_mem_cons.mpr ⟨wellFormed, others⟩)

theorem Sound.parseOr (sound : Sound unary) : Sound (parseOr unary) :=
  (sound.parseTerms fun _ _ => .and).parseTerms fun _ _ => .or

theorem parseRole_sound (h : parseRole s = .ok (t, rest)) :
    t.WellFormed ∧ rest.length ≤ s.length := by
  unfold parseRole at h
  split at h
  case h_1 => cases h
  case h_2 name left read =>
    obtain ⟨rfl, rfl⟩ := Prod.mk.inj (Except.ok.inj h)
    obtain ⟨whole, token⟩ := skipWs_of_readToken read
    exact ⟨.hasRole token, length_of_skipWs whole⟩

theorem parsePermission_sound (h : parsePermission s = .ok (t, rest)) :
    t.WellFormed ∧ rest.length ≤ s.length := by
  unfold parsePermission at h
  split at h
  case h_1 => cases h
  case h_2 perm left read =>
    split at h
    case isFalse => cases h
    case isTrue valid =>
      obtain ⟨rfl, rfl⟩ := Prod.mk.inj (Except.ok.inj h)
      obtain ⟨whole, token⟩ := skipWs_of_readToken read
      exact ⟨.hasPermission token valid, length_of_skipWs whole⟩

theorem Sound.parseAtom (sound : Sound unary) : Sound (parseAtom unary) := by
  intro s t rest h
  unfold Syntax.parseAtom at h
  split at h
  case h_1 inside opened =>
    have shorter := length_of_consumeChar opened
    split at h
    case h_1 => cases h
    case h_2 inner left read =>
      split at h
      case h_2 => cases h
      case h_1 after closed =>
        obtain ⟨rfl, rfl⟩ := Prod.mk.inj (Except.ok.inj h)
        have shorter' := length_of_consumeChar closed
        obtain ⟨wellFormed, le⟩ := sound.parseOr _ _ _ read
        exact ⟨wellFormed, by omega⟩
  case h_2 left unopened =>
    have le := length_of_consumeChar_false unopened
    split at h
    case h_1 after found =>
      obtain ⟨rfl, rfl⟩ := Prod.mk.inj (Except.ok.inj h)
      have shorter := length_of_consumeKeyword found
      exact ⟨.authenticated, by omega⟩
    case h_2 left₁ none₁ =>
      have le₁ := length_of_consumeKeyword_false none₁
      split at h
      case h_1 after found =>
        have shorter := length_of_consumeKeyword found
        obtain ⟨wellFormed, le'⟩ := parseRole_sound h
        exact ⟨wellFormed, by omega⟩
      case h_2 left₂ none₂ =>
        have le₂ := length_of_consumeKeyword_false none₂
        split at h
        case h_1 after found =>
          have shorter := length_of_consumeKeyword found
          obtain ⟨wellFormed, le'⟩ := parsePermission_sound h
          exact ⟨wellFormed, by omega⟩
        case h_2 left₃ none₃ =>
          have le₃ := length_of_consumeKeyword_false none₃
          split at h
          case h_1 => cases h
          case h_2 token after read =>
            have le₄ := length_of_skipWs (skipWs_of_readAtomToken read)
            split at h
            case h_1 => cases h
            case h_2 atom parsed =>
              obtain ⟨rfl, rfl⟩ := Prod.mk.inj (Except.ok.inj h)
              exact ⟨.atom (parsePolicyAtom_wellFormed parsed), by omega⟩

theorem parseUnary_sound (n : Nat) : Sound (parseUnary n) := by
  induction n with
  | zero =>
      intro s t rest h
      cases h
  | succ n ih =>
      intro s t rest h
      rw [parseUnary] at h
      split at h
      case h_1 left found =>
        have shorter := length_of_consumeKeyword found
        split at h
        case h_1 => cases h
        case h_2 inner after read =>
          obtain ⟨rfl, rfl⟩ := Prod.mk.inj (Except.ok.inj h)
          obtain ⟨wellFormed, le⟩ := ih _ _ _ read
          exact ⟨.not wellFormed, by omega⟩
      case h_2 left none =>
        have le := length_of_consumeKeyword_false none
        obtain ⟨wellFormed, le'⟩ := ih.parseAtom _ _ _ h
        exact ⟨wellFormed, le'.trans le⟩

theorem wellFormed_of_parsePolicyExpr (h : parsePolicyExpr s = .ok t) : t.WellFormed := by
  unfold parsePolicyExpr at h
  split at h
  case h_1 => cases h
  case h_2 expr rest read =>
    split at h
    case isFalse => cases h
    case isTrue =>
      obtain rfl := Except.ok.inj h
      exact ((parseUnary_sound _).parseOr _ _ _ read).1

end Sound

/-! ### The limits are never met -/

/-- Texts shorter than `k` are read without meeting a limit. -/
def Within (k : Nat) (p : Parser PolicyExprAst) : Prop := ∀ s, s.length < k → p s ≠ .error .depth

section Within

variable {term unary : Parser PolicyExprAst} {kw : List Char} {k : Nat}
  {combine : List PolicyExprAst → PolicyExprAst}

theorem Within.parseMore (within : Within k term) (sound : Sound term) (some : kw ≠ []) {n : Nat}
    {s : List Char} (short : s.length < k) (rounds : s.length < n) :
    parseMore kw term n s ≠ .error .depth := by
  have length := List.length_pos_of_ne_nil some
  induction n generalizing s with
  | zero => exact absurd rounds (Nat.not_lt_zero _)
  | succ n ih =>
      rw [Syntax.parseMore]
      split
      case h_1 => simp
      case h_2 left found =>
        have shorter := length_of_consumeKeyword found
        split
        case h_1 e failed =>
          intro same
          exact within left (by omega) (Except.error.inj same ▸ failed)
        case h_2 t next read =>
          have le := (sound _ _ _ read).2
          have more := ih (s := next) (by omega) (by omega)
          split
          case h_1 e failed =>
            intro same
            exact more (Except.error.inj same ▸ failed)
          case h_2 => simp

theorem Within.parseTerms (within : Within k term) (sound : Sound term) (some : kw ≠ []) :
    Within k (parseTerms kw combine term) := by
  intro s short
  unfold Syntax.parseTerms
  split
  case h_1 e failed =>
    intro same
    exact within s short (Except.error.inj same ▸ failed)
  case h_2 t next read =>
    have le := (sound _ _ _ read).2
    have more := within.parseMore sound some (s := next) (by omega) (Nat.lt_succ_self _)
    split
    case h_1 e failed =>
      intro same
      exact more (Except.error.inj same ▸ failed)
    case h_2 => simp

theorem Within.parseOr (within : Within k unary) (sound : Sound unary) :
    Within k (parseOr unary) :=
  (within.parseTerms sound (by simp)).parseTerms (sound.parseTerms fun _ _ => .and) (by simp)

theorem parseAtomBody_ne_depth (body : List Char) (args : Option (List Char)) :
    parseAtomBody body args ≠ .error .depth := by
  unfold parseAtomBody
  split
  · simp
  · split
    · simp
    · split <;> simp

theorem parsePolicyAtom_ne_depth (value : List Char) : parsePolicyAtom value ≠ .error .depth := by
  unfold parsePolicyAtom
  split
  case h_2 => simp
  case h_1 =>
    split
    case h_2 => exact parseAtomBody_ne_depth _ _
    case h_1 =>
      split
      case isTrue => simp
      case isFalse =>
        split
        case isTrue => simp
        case isFalse => exact parseAtomBody_ne_depth _ _

theorem parseRole_ne_depth (s : List Char) : parseRole s ≠ .error .depth := by
  unfold parseRole
  split <;> simp

theorem parsePermission_ne_depth (s : List Char) : parsePermission s ≠ .error .depth := by
  unfold parsePermission
  split
  · simp
  · split <;> simp

theorem Within.parseAtom (within : Within k unary) (sound : Sound unary) :
    Within (k + 1) (parseAtom unary) := by
  intro s short
  unfold Syntax.parseAtom
  split
  case h_1 inside opened =>
    have shorter := length_of_consumeChar opened
    have whole := within.parseOr sound inside (by omega)
    split
    case h_1 e failed =>
      intro same
      exact whole (Except.error.inj same ▸ failed)
    case h_2 => split <;> simp
  case h_2 =>
    split
    case h_1 => simp
    case h_2 =>
      split
      case h_1 => exact parseRole_ne_depth _
      case h_2 =>
        split
        case h_1 => exact parsePermission_ne_depth _
        case h_2 =>
          split
          case h_1 => simp
          case h_2 token after read =>
            split
            case h_1 e failed =>
              intro same
              exact parsePolicyAtom_ne_depth token (Except.error.inj same ▸ failed)
            case h_2 => simp

theorem within_parseUnary (n : Nat) : Within n (parseUnary n) := by
  induction n with
  | zero => exact fun s short => absurd short (Nat.not_lt_zero _)
  | succ n ih =>
      intro s short
      rw [parseUnary]
      split
      case h_1 left found =>
        have shorter := length_of_consumeKeyword found
        have kw : "not".toList.length = 3 := rfl
        have inner := ih left (by omega)
        split
        case h_1 e failed =>
          intro same
          exact inner (Except.error.inj same ▸ failed)
        case h_2 => simp
      case h_2 left none =>
        have le := length_of_consumeKeyword_false none
        exact ih.parseAtom (parseUnary_sound n) left (by omega)

theorem parsePolicyExpr_ne_depth (s : List Char) : parsePolicyExpr s ≠ .error .depth := by
  have whole := (within_parseUnary (s.length + 1)).parseOr (parseUnary_sound _) s (by omega)
  unfold parsePolicyExpr
  split
  case h_1 e failed =>
    intro same
    exact whole (Except.error.inj same ▸ failed)
  case h_2 => split <;> simp

end Within

end Lazuli.Syntax
