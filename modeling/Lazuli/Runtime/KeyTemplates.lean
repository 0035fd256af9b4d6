import Mathlib.Data.List.Nodup
import Mathlib.Data.List.TakeWhile
import Lazuli.General.Replace

/-!
The names of encryption keys (`runtime/go/lazuli/encryption/registry.go`,
`crates/lazuli_ir/src/encryption.rs`).

`EncryptionTemplate.parse` lists the axes that a template names in braces, and `resolveTemplate`
replaces the braces of one axis after those of another. `Isolated` is what it is for: different
values of a listed axis name different keys. With two axes the value of the first can be the braces
of the second, so it holds for the templates with at most one axis (`keys_isolated_iff`).
-/

namespace Lazuli.Runtime.KeyTemplates

open Lazuli.General

inductive TemplateAxis where
  | tenantID
  | userID
  | recordID
  deriving DecidableEq

def TemplateAxis.text : TemplateAxis → List Char
  | .tenantID => "tenant_id".toList
  | .userID => "user_id".toList
  | .recordID => "record_id".toList

/-! ### Templates -/

structure EncryptionTemplate where
  literal : List Char
  axes : List TemplateAxis
  deriving DecidableEq

/-- The axis of a name; none has another name. -/
def TemplateAxis.parse (name : List Char) : Option TemplateAxis :=
  [.tenantID, .userID, .recordID].find? (·.text = name)

/-- An axis is listed where it comes first. -/
def pushAxis (axes : List TemplateAxis) : Option TemplateAxis → List TemplateAxis
  | some axis => if axis ∈ axes then axes else axes ++ [axis]
  | none => axes

/-- The axes between the braces. What follows an opening brace is skipped up to the next closing
one. -/
def axesFrom (axes : List TemplateAxis) : List Char → List TemplateAxis
  | [] => axes
  | c :: s =>
      if c = '{' ∧ '}' ∈ s then
        axesFrom (pushAxis axes (TemplateAxis.parse (s.takeWhile (· ≠ '}'))))
          (s.dropWhile (· ≠ '}')).tail
      else axesFrom axes s
termination_by s => s.length
decreasing_by
  · have := (List.dropWhile_suffix (· ≠ '}') (l := s)).length_le
    rw [List.length_tail, List.length_cons]
    omega
  · exact Nat.lt_succ_self _

def EncryptionTemplate.parse (literal : List Char) : EncryptionTemplate :=
  ⟨literal, axesFrom [] literal⟩

/-! ### Keys -/

structure CtxAxes where
  tenantID : List Char
  userID : List Char
  recordID : List Char
  deriving DecidableEq

def axisValue (axis : TemplateAxis) (supplied : CtxAxes) : List Char :=
  match axis with
  | .tenantID => supplied.tenantID
  | .userID => supplied.userID
  | .recordID => supplied.recordID

/-- The axis has no value. -/
inductive EncryptionError where
  | missing (axis : TemplateAxis)
  deriving DecidableEq

def EncryptionError.message : EncryptionError → String
  | .missing .tenantID =>
      "encryption: binding references \x7btenant_id\x7d but ctx carries no tenant"
  | .missing .userID => "encryption: binding references \x7buser_id\x7d but ctx carries no user"
  | .missing .recordID =>
      "encryption: binding references \x7brecord_id\x7d but no record id was supplied to " ++
        "encryption.For"

/-- The axis in braces. -/
def TemplateAxis.brace (axis : TemplateAxis) : List Char := '{' :: (axis.text ++ ['}'])

/-- `strings.ReplaceAll`, for the braces of an axis. -/
def substitute (axis : TemplateAxis) (value out : List Char) : List Char :=
  (Pattern.literal axis.brace (List.cons_ne_nil _ _)).replaceAll value out

def resolveTemplate (out : List Char) (axes : List TemplateAxis) (supplied : CtxAxes) :
    Except EncryptionError (List Char) :=
  match axes with
  | [] => .ok out
  | axis :: axes =>
      if axisValue axis supplied = [] then .error (.missing axis)
      else resolveTemplate (substitute axis (axisValue axis supplied) out) axes supplied

/-- The name of the key. -/
def EncryptionTemplate.resolve (template : EncryptionTemplate) (supplied : CtxAxes) :
    Except EncryptionError (List Char) :=
  resolveTemplate template.literal template.axes supplied

/-- **Keys are isolated**: values that differ in a listed axis name different keys. -/
def Isolated (template : EncryptionTemplate) : Prop :=
  ∀ supplied supplied' name name', template.resolve supplied = .ok name →
    template.resolve supplied' = .ok name' →
      (∃ axis ∈ template.axes, axisValue axis supplied ≠ axisValue axis supplied') → name ≠ name'

/-! ### The axes of a template -/

section Axes

variable {axes : List TemplateAxis} {axis : TemplateAxis} {s : List Char}

theorem parse_eq_some {name : List Char} (h : TemplateAxis.parse name = some axis) :
    name = axis.text := by
  have named := List.find?_some h
  exact (of_decide_eq_true named).symm

theorem mem_pushAxis {found : Option TemplateAxis} :
    axis ∈ pushAxis axes found ↔ axis ∈ axes ∨ found = some axis := by
  unfold pushAxis
  split
  case h_1 other =>
    split
    · simp only [Option.some.injEq]
      constructor
      · exact .inl
      · rintro (mem | rfl)
        · exact mem
        · assumption
    · simp [eq_comm]
  case h_2 => simp

theorem nodup_pushAxis {found : Option TemplateAxis} (h : axes.Nodup) :
    (pushAxis axes found).Nodup := by
  unfold pushAxis
  split
  case h_1 other =>
    split
    case isTrue => exact h
    case isFalse fresh =>
      exact List.nodup_append.mpr ⟨h, List.nodup_singleton _, by
        rintro a mem b found rfl
        exact fresh (List.mem_singleton.mp found ▸ mem)⟩
  case h_2 => exact h

theorem axesFrom_nil : axesFrom axes [] = axes := by
  rw [axesFrom]

theorem axesFrom_cons {c : Char} (other : c ≠ '{') : axesFrom axes (c :: s) = axesFrom axes s := by
  rw [axesFrom, if_neg fun opens => other opens.1]

theorem parse_text (axis : TemplateAxis) : TemplateAxis.parse axis.text = some axis := by
  cases axis <;> decide

/-- An axis in braces is listed. -/
theorem axesFrom_brace (axis : TemplateAxis) (s : List Char) :
    axesFrom axes (axis.brace ++ s) = axesFrom (pushAxis axes (some axis)) s := by
  have plain : ∀ c ∈ axis.text, decide (c ≠ '}') = true :=
    List.all_eq_true.mp (by cases axis <;> rfl)
  have split : axis.brace ++ s = '{' :: (axis.text ++ '}' :: s) := by
    simp [TemplateAxis.brace]
  have closes : '}' ∈ axis.text ++ '}' :: s := List.mem_append_right _ List.mem_cons_self
  rw [split, axesFrom, if_pos ⟨rfl, closes⟩, List.takeWhile_append_of_pos plain,
    List.dropWhile_append_of_pos plain, List.takeWhile_cons_of_neg (by simp),
    List.dropWhile_cons_of_neg (by simp), List.append_nil, parse_text, List.tail_cons]

/-- An axis is listed once. -/
theorem nodup_axesFrom (h : axes.Nodup) : (axesFrom axes s).Nodup := by
  induction axes, s using axesFrom.induct with
  | case1 axes =>
      rw [axesFrom]
      exact h
  | case2 axes c s opens ih =>
      rw [axesFrom, if_pos opens]
      exact ih (nodup_pushAxis h)
  | case3 axes c s closed ih =>
      rw [axesFrom, if_neg closed]
      exact ih h

/-- A listed axis stands in the text in its braces. -/
theorem braces_of_mem (h : axis ∈ axesFrom axes s) : axis ∈ axes ∨ axis.brace <:+: s := by
  induction axes, s using axesFrom.induct with
  | case1 axes =>
      rw [axesFrom] at h
      exact .inl h
  | case2 axes c s opens ih =>
      rw [axesFrom, if_pos opens] at h
      obtain ⟨rfl, closes⟩ := opens
      have split : s = s.takeWhile (· ≠ '}') ++ '}' :: (s.dropWhile (· ≠ '}')).tail := by
        have parts := List.takeWhile_append_dropWhile (p := (· ≠ '}')) (l := s)
        have closing := List.head?_dropWhile_not (· ≠ '}') s
        cases rest : s.dropWhile (· ≠ '}') with
        | nil =>
            rw [rest, List.append_nil] at parts
            rw [← parts] at closes
            simpa using List.mem_takeWhile_imp closes
        | cons d tail =>
            rw [rest] at parts closing
            obtain rfl : d = '}' := by simpa using closing
            exact parts.symm
      rcases ih h with found | later
      · rcases mem_pushAxis.mp found with mem | named
        · exact .inl mem
        · refine .inr (List.IsPrefix.isInfix ⟨(s.dropWhile (· ≠ '}')).tail, ?_⟩)
          conv_rhs => rw [split, parse_eq_some named]
          simp [TemplateAxis.brace]
      · have tail : (s.dropWhile (· ≠ '}')).tail <:+ '{' :: s :=
          (List.tail_suffix _).trans ((List.dropWhile_suffix _).trans (List.suffix_cons _ s))
        exact .inr (later.trans tail.isInfix)
  | case3 axes c s closed ih =>
      rw [axesFrom, if_neg closed] at h
      exact (ih h).imp_right fun mem => mem.trans (List.suffix_cons c s).isInfix

end Axes

/-! ### One axis after another -/

section Substitute

variable {axis other : TemplateAxis} {value s u : List Char} {c : Char}

/-- What follows the opening brace. -/
def TemplateAxis.inner (axis : TemplateAxis) : List Char := axis.text ++ ['}']

theorem brace_eq (axis : TemplateAxis) : axis.brace = '{' :: axis.inner := rfl

theorem notMem_inner (axis : TemplateAxis) : '{' ∉ axis.inner ∧ 'x' ∉ axis.inner := by
  cases axis <;> decide

theorem substitute_brace (axis : TemplateAxis) (value s : List Char) :
    substitute axis value (axis.brace ++ s) = value ++ substitute axis value s := by
  have found : (Pattern.literal axis.brace (List.cons_ne_nil _ _)).matchAt (axis.brace ++ s) =
      some axis.brace.length := if_pos (List.prefix_append _ _)
  rw [substitute, Pattern.replaceAll_of_match found, List.drop_left]
  rfl

theorem substitute_cons (h : ¬ axis.brace <+: c :: s) :
    substitute axis value (c :: s) = c :: substitute axis value s :=
  Pattern.replaceAll_cons (if_neg h)

/-- A text without an opening brace is left alone. -/
theorem substitute_append (closed : '{' ∉ u) :
    substitute axis value (u ++ s) = u ++ substitute axis value s := by
  induction u with
  | nil => rfl
  | cons c u ih =>
      rw [List.mem_cons, not_or] at closed
      rw [List.cons_append, substitute_cons, ih closed.2, List.cons_append]
      intro start
      exact closed.1 (List.cons_prefix_cons.mp start).1

/-- The braces of an axis do not come up where no brace was, when what is put in starts with a
character that they do not go on with. -/
theorem brace_prefix_cons {d : Char} {rest : List Char} (starts : value = d :: rest)
    (foreign : d ∉ other.inner) (h : other.brace <+: c :: substitute axis value s) :
    other.brace <+: c :: s := by
  subst starts
  obtain ⟨rfl, start⟩ := List.cons_prefix_cons.mp h
  refine List.cons_prefix_cons.mpr ⟨rfl, ?_⟩
  rcases Pattern.prefix_replaceAll start with there | ⟨l, r, split, shorter⟩
  · exact there
  · obtain ⟨y, same⟩ := start
    rw [show substitute axis (d :: rest) s = _ from split] at same
    rcases List.append_eq_append_iff.mp same with ⟨e, rfl, -⟩ | ⟨e, inner, after⟩
    · rw [List.length_append] at shorter
      omega
    · cases e with
      | nil =>
          rw [inner, List.append_nil] at shorter
          omega
      | cons b e =>
          obtain ⟨rfl, -⟩ := List.cons.inj after
          refine absurd ?_ foreign
          rw [TemplateAxis.inner, inner]
          exact List.mem_append_right l List.mem_cons_self

/-- The braces of another axis as a value are replaced like the braces that the text has. -/
theorem substitute_braces (axis other : TemplateAxis) (s : List Char) :
    substitute other ['x'] (substitute axis other.brace s) =
      substitute other ['x'] (substitute axis ['x'] s) := by
  obtain ⟨closed, plain⟩ := notMem_inner other
  induction s using (Pattern.literal axis.brace (List.cons_ne_nil _ _)).induct with
  | nil => rfl
  | hit s n found ih =>
      obtain ⟨⟨t, rfl⟩, length⟩ := Option.ite_none_right_eq_some.mp found
      obtain rfl := Option.some.inj length
      rw [List.drop_left] at ih
      rw [substitute_brace, substitute_brace, substitute_brace, substitute_append (by simp), ih]
  | skip c s none ih =>
      have miss : ¬ axis.brace <+: c :: s :=
        fun start => Option.some_ne_none _ ((if_pos start).symm.trans none)
      rw [substitute_cons miss, substitute_cons miss]
      by_cases here : other.brace <+: c :: s
      · obtain ⟨t, split⟩ := here
        rw [brace_eq, List.cons_append] at split
        obtain ⟨rfl, rfl⟩ := List.cons.inj split
        rw [substitute_append closed, substitute_append closed, substitute_append closed,
          substitute_append closed, List.append_cancel_left_eq] at ih
        rw [substitute_append closed, substitute_append closed, ← List.cons_append,
          ← List.cons_append, ← brace_eq, substitute_brace, substitute_brace, ih]
      · rw [substitute_cons fun start => here (brace_prefix_cons (brace_eq other) closed start),
          substitute_cons fun start => here (brace_prefix_cons rfl plain start), ih]

end Substitute

/-! ### Isolation -/

section Isolation

variable {axes : List TemplateAxis} {out name literal : List Char} {supplied : CtxAxes}

theorem resolveTemplate_of_values (out : List Char)
    (h : ∀ axis ∈ axes, axisValue axis supplied ≠ []) :
    ∃ name, resolveTemplate out axes supplied = .ok name := by
  induction axes generalizing out with
  | nil => exact ⟨out, rfl⟩
  | cons axis axes ih =>
      obtain ⟨value, rest⟩ := List.forall_mem_cons.mp h
      rw [resolveTemplate, if_neg value]
      exact ih _ rest

/-- Only the values of the axes at hand are used. -/
theorem resolveTemplate_congr {supplied' : CtxAxes}
    (h : ∀ axis ∈ axes, axisValue axis supplied = axisValue axis supplied') :
    resolveTemplate out axes supplied = resolveTemplate out axes supplied' := by
  induction axes generalizing out with
  | nil => rfl
  | cons axis axes ih =>
      obtain ⟨value, rest⟩ := List.forall_mem_cons.mp h
      rw [resolveTemplate, resolveTemplate, value, ih rest]

/-- Every axis has the value `x`, but one has another. -/
def valued (axis : TemplateAxis) (value : List Char) : CtxAxes where
  tenantID := if axis = .tenantID then value else ['x']
  userID := if axis = .userID then value else ['x']
  recordID := if axis = .recordID then value else ['x']

theorem axisValue_valued (axis other : TemplateAxis) (value : List Char) :
    axisValue other (valued axis value) = if axis = other then value else ['x'] := by
  cases other <;> rfl

/-- Two axes collide: the value of the first can be the braces of the second. -/
theorem collides {axis other : TemplateAxis} (distinct : (axis :: other :: axes).Nodup)
    (ok : resolveTemplate out (axis :: other :: axes) (valued axis ['x']) = .ok name) :
    resolveTemplate out (axis :: other :: axes) (valued axis other.brace) = .ok name := by
  obtain ⟨apart, -⟩ := List.nodup_cons.mp distinct
  have others : ∀ b ∈ other :: axes, axis ≠ b := fun b mem same => apart (same ▸ mem)
  have value : ∀ b ∈ other :: axes, ∀ v, axisValue b (valued axis v) = ['x'] := by
    intro b mem v
    rw [axisValue_valued, if_neg (others b mem)]
  have first : ∀ v, axisValue axis (valued axis v) = v := fun v => by
    rw [axisValue_valued, if_pos rfl]
  have second : ∀ v, axisValue other (valued axis v) = ['x'] := value other List.mem_cons_self
  have step (v : List Char) (some : v ≠ []) :
      resolveTemplate out (axis :: other :: axes) (valued axis v) =
        resolveTemplate (substitute other ['x'] (substitute axis v out)) axes (valued axis v) := by
    rw [resolveTemplate, first, if_neg some, resolveTemplate, second, if_neg (List.cons_ne_nil _ _)]
  rw [step _ (List.cons_ne_nil 'x' [])] at ok
  rw [step other.brace (List.cons_ne_nil _ _), substitute_braces, ← ok]
  exact resolveTemplate_congr fun b mem => by
    rw [value b (List.mem_cons_of_mem other mem), value b (List.mem_cons_of_mem other mem)]

/-- With one axis, the name tells the value. -/
theorem resolve_single {axis : TemplateAxis} {name' : List Char} {supplied' : CtxAxes}
    (present : axis.brace <:+: out) (ok : resolveTemplate out [axis] supplied = .ok name)
    (ok' : resolveTemplate out [axis] supplied' = .ok name')
    (differ : axisValue axis supplied ≠ axisValue axis supplied') : name ≠ name' := by
  rw [resolveTemplate] at ok ok'
  split at ok
  case isTrue => cases ok
  split at ok'
  case isTrue => cases ok'
  rintro rfl
  have same := Except.ok.inj (ok.trans ok'.symm)
  refine differ (Pattern.replaceAll_injective (fun free => ?_) same)
  exact free axis.brace rfl present

/-- **Isolated with one axis**, and not with two. -/
theorem keys_isolated_iff (literal : List Char) :
    Isolated (.parse literal) ↔ (EncryptionTemplate.parse literal).axes.length ≤ 1 := by
  have distinct : (EncryptionTemplate.parse literal).axes.Nodup := nodup_axesFrom List.nodup_nil
  have listed : ∀ axis ∈ (EncryptionTemplate.parse literal).axes, axis.brace <:+: literal :=
    fun axis mem => (braces_of_mem mem).resolve_left List.not_mem_nil
  unfold Isolated EncryptionTemplate.resolve
  rw [show (EncryptionTemplate.parse literal).literal = literal from rfl]
  generalize (EncryptionTemplate.parse literal).axes = axes at distinct listed ⊢
  constructor
  · intro isolated
    match axes, distinct, isolated with
    | [], _, _ => exact Nat.zero_le 1
    | [_], _, _ => exact le_rfl
    | axis :: other :: axes, distinct, isolated =>
        have values : ∀ b ∈ axis :: other :: axes, axisValue b (valued axis ['x']) ≠ [] := by
          intro b _
          rw [axisValue_valued, ite_self]
          exact List.cons_ne_nil _ _
        obtain ⟨name, ok⟩ := resolveTemplate_of_values literal values
        refine absurd rfl (isolated _ _ name name (collides distinct ok) ok
          ⟨axis, List.mem_cons_self, ?_⟩)
        rw [axisValue_valued, axisValue_valued, if_pos rfl, if_pos rfl]
        exact fun same => by cases (List.cons.inj same).1
  · intro short supplied supplied' name name' ok ok' differ
    match axes, short, differ with
    | [], _, ⟨axis, mem, _⟩ => cases mem
    | [axis], _, ⟨b, mem, differ⟩ =>
        obtain rfl := List.mem_singleton.mp mem
        exact resolve_single (listed b mem) ok ok' differ

end Isolation

/-- A key for each user of a tenant. -/
def userKey : List Char := "\x7btenant_id\x7d_\x7buser_id\x7d".toList

theorem userKey_axes : (EncryptionTemplate.parse userKey).axes = [.tenantID, .userID] := by
  have split : userKey = TemplateAxis.tenantID.brace ++ '_' :: (TemplateAxis.userID.brace ++ []) :=
    rfl
  rw [EncryptionTemplate.parse, split, axesFrom_brace, axesFrom_cons (by decide), axesFrom_brace,
    axesFrom_nil]
  rfl

/-- The tenant `a_b` and its user `c` share the key of the tenant `a` and its user `b_c`. -/
theorem userKey_shared :
    (EncryptionTemplate.parse userKey).resolve ⟨"a_b".toList, "c".toList, []⟩ =
        .ok "a_b_c".toList ∧
      (EncryptionTemplate.parse userKey).resolve ⟨"a".toList, "b_c".toList, []⟩ =
        .ok "a_b_c".toList ∧
      ¬ ∀ literal, Isolated (.parse literal) := by
  have name : (EncryptionTemplate.parse userKey).resolve ⟨"a_b".toList, "c".toList, []⟩ =
      .ok "a_b_c".toList := by
    rw [EncryptionTemplate.resolve, userKey_axes]
    rfl
  have name' : (EncryptionTemplate.parse userKey).resolve ⟨"a".toList, "b_c".toList, []⟩ =
      .ok "a_b_c".toList := by
    rw [EncryptionTemplate.resolve, userKey_axes]
    rfl
  refine ⟨name, name', fun isolated => isolated userKey _ _ _ _ name name' ?_ rfl⟩
  exact ⟨.tenantID, by rw [userKey_axes]; exact List.mem_cons_self, by decide⟩

end Lazuli.Runtime.KeyTemplates
