import Lazuli.General.Lookup
import Mathlib.Data.List.Induction
import Mathlib.Data.List.Nodup

/-!
A ledger that is written behind the scripts it tells of.

A script does or undoes an item; the statement after it lists or unlists the item. Both are
statements of one log, which may break off anywhere. A log is lawful when each script finds its
item unlisted or listed, as its direction asks, and each statement of the ledger follows its
script. In a lawful log the ledger is right about an item unless the last script of the item is
without its statement (`mem_rows_iff_lastScript`), and no item is done twice in a row otherwise
(`down_or_cutOff`).
-/

namespace Lazuli.General.Ledger

inductive Direction where
  | up
  | down
  deriving DecidableEq

inductive Statement (V : Type*) where
  | script (direction : Direction) (item : V)
  | ledger (direction : Direction) (item : V)
  deriving DecidableEq

variable {V : Type*}

def Statement.item : Statement V → V
  | .script _ v | .ledger _ v => v

/-- The statements for items one after the other. -/
def statements (d : Direction) (items : List V) : List (Statement V) :=
  items.flatMap fun v => [.script d v, .ledger d v]

def Statement.IsScript (v : V) (s : Statement V) : Prop :=
  s = .script .up v ∨ s = .script .down v

section Statements

variable {d : Direction} {v : V} {s : Statement V}

theorem mem_statements {items : List V} :
    s ∈ statements d items ↔ ∃ v ∈ items, s = .script d v ∨ s = .ledger d v := by
  simp [statements]

theorem length_statements (items : List V) : (statements d items).length = 2 * items.length := by
  simp [statements, Nat.mul_comm]

theorem statements_injective {a b : List V} (same : statements d a = statements d b) : a = b := by
  induction a generalizing b with
  | nil =>
      cases b with
      | nil => rfl
      | cons w b => cases same
  | cons v a ih =>
      cases b with
      | nil => cases same
      | cons w b =>
          have same : Statement.script d v :: .ledger d v :: statements d a =
              .script d w :: .ledger d w :: statements d b := same
          obtain ⟨head, tail⟩ := List.cons.inj same
          rw [(Statement.script.inj head).2, ih (List.cons.inj tail).2]

theorem isScript_script : (Statement.script d v).IsScript v := by
  cases d
  · exact Or.inl rfl
  · exact Or.inr rfl

theorem Statement.IsScript.item_eq (h : s.IsScript v) : s.item = v := by
  rcases h with rfl | rfl <;> rfl

end Statements

variable [DecidableEq V]

/-! ### The ledger -/

/-- Listing what is listed changes nothing. -/
def record (rows : List V) : Statement V → List V
  | .script _ _ => rows
  | .ledger .up v => if v ∈ rows then rows else rows ++ [v]
  | .ledger .down v => rows.filter (· ≠ v)

/-- The rows of the ledger after a log. -/
def rows (log : List (Statement V)) : List V := log.foldl record []

variable {log pre post : List (Statement V)} {d : Direction} {v w : V} {s : Statement V}

theorem rows_append_singleton : rows (log ++ [s]) = record (rows log) s := by
  rw [rows, List.foldl_append]
  rfl

theorem rows_append_script : rows (log ++ [.script d w]) = rows log := rows_append_singleton

theorem mem_rows_append_ledger :
    v ∈ rows (log ++ [.ledger d w]) ↔ if v = w then d = .up else v ∈ rows log := by
  rw [rows_append_singleton]
  cases d with
  | up =>
      rw [record]
      by_cases same : v = w
      · subst same
        by_cases listed : v ∈ rows log <;> simp [listed]
      · by_cases listed : w ∈ rows log <;> simp [listed, same]
  | down =>
      rw [record, List.mem_filter]
      by_cases same : v = w <;> simp [same]

theorem mem_rows_append_of_ne (other : s.item ≠ v) : v ∈ rows (log ++ [s]) ↔ v ∈ rows log := by
  cases s with
  | script d w => rw [rows_append_script]
  | ledger d w =>
      have other : ¬ v = w := fun same => other same.symm
      rw [mem_rows_append_ledger, if_neg other]

theorem mem_rows_of_append (mem : v ∈ rows (log ++ post)) :
    v ∈ rows log ∨ .ledger .up v ∈ post := by
  induction post using List.reverseRecOn with
  | nil =>
      rw [List.append_nil] at mem
      exact Or.inl mem
  | append_singleton post s ih =>
      rw [← List.append_assoc] at mem
      have before (h : v ∈ rows (log ++ post)) : v ∈ rows log ∨ .ledger .up v ∈ post ++ [s] :=
        (ih h).imp_right (List.mem_append_left [s])
      by_cases same : s.item = v
      · cases s with
        | script d w =>
            rw [rows_append_script] at mem
            exact before mem
        | ledger d w =>
            obtain rfl : w = v := same
            rw [mem_rows_append_ledger, if_pos rfl] at mem
            subst mem
            exact Or.inr (List.mem_append_right post (List.mem_singleton_self _))
      · exact before ((mem_rows_append_of_ne same).mp mem)

/-- The ledger tells of the items whose statements are in front of the break. -/
theorem mem_rows_append_take {items : List V} {n : Nat} :
    v ∈ rows (log ++ (statements d items).take n) ↔
      if v ∈ items.take (n / 2) then d = .up else v ∈ rows log := by
  induction items generalizing log n with
  | nil => simp [statements]
  | cons w items ih =>
      have all : statements d (w :: items) =
          .script d w :: .ledger d w :: statements d items := rfl
      rcases n with - | - | n
      · simp
      · have first : (statements d (w :: items)).take 1 = [.script d w] := rfl
        rw [first, rows_append_script]
        simp
      · have half : (n + 2) / 2 = n / 2 + 1 := by omega
        have split : log ++ (statements d (w :: items)).take (n + 2) =
            (log ++ [.script d w]) ++ [.ledger d w] ++ (statements d items).take n := by
          simp [all]
        rw [half, split, ih, mem_rows_append_ledger, rows_append_script, List.take_succ_cons]
        by_cases same : v = w <;> by_cases later : v ∈ items.take (n / 2) <;>
          simp [same, later]

theorem mem_rows_append_statements {items : List V} :
    v ∈ rows (log ++ statements d items) ↔ if v ∈ items then d = .up else v ∈ rows log := by
  have half : (statements d items).length / 2 = items.length := by
    rw [length_statements]
    omega
  have all : v ∈ rows (log ++ (statements d items).take (statements d items).length) ↔
      if v ∈ items.take ((statements d items).length / 2) then d = .up else v ∈ rows log :=
    mem_rows_append_take
  rwa [half, List.take_length, List.take_length] at all

theorem nodup_rows (log : List (Statement V)) : (rows log).Nodup := by
  induction log using List.reverseRecOn with
  | nil => exact List.nodup_nil
  | append_singleton log s ih =>
      rw [rows_append_singleton]
      cases s with
      | script d w => exact ih
      | ledger d w =>
          cases d with
          | up =>
              rw [record]
              split
              · exact ih
              · rename_i unlisted
                exact List.Nodup.append ih (List.nodup_singleton w)
                  (List.disjoint_singleton.mpr unlisted)
          | down => exact ih.filter _

/-! ### Lawful logs -/

/-- What may follow a log. -/
def Allowed (log : List (Statement V)) : Statement V → Prop
  | .script d v => d = .up ↔ v ∉ rows log
  | .ledger d v => log.getLast? = some (.script d v)

def Lawful (log : List (Statement V)) : Prop :=
  ∀ pre s post, log = pre ++ s :: post → Allowed pre s

theorem lawful_nil : Lawful ([] : List (Statement V)) := by
  intro pre s post split
  cases pre <;> cases split

theorem Lawful.of_append (h : Lawful (log ++ post)) : Lawful log := by
  rintro before s rest rfl
  exact h before s (rest ++ post) (by rw [List.append_assoc, List.cons_append])

theorem Lawful.append_singleton (h : Lawful log) (allowed : Allowed log s) :
    Lawful (log ++ [s]) := by
  intro pre t rest split
  rcases List.eq_nil_or_concat' rest with rfl | ⟨rest, last, rfl⟩
  · obtain ⟨rfl, same⟩ := List.append_inj' split rfl
    cases same
    exact allowed
  · rw [← List.cons_append, ← List.append_assoc] at split
    exact h pre t rest (List.append_inj' split rfl).1

theorem Lawful.last (h : Lawful (log ++ [s])) : Allowed log s := h log s [] rfl

/-- Items that are unlisted, or listed, may be done, or undone, up to any statement. -/
theorem Lawful.append_statements {items : List V} (h : Lawful log) (distinct : items.Nodup)
    (due : ∀ v ∈ items, d = .up ↔ v ∉ rows log) (n : Nat) :
    Lawful (log ++ (statements d items).take n) := by
  induction items generalizing log n with
  | nil => simpa [statements] using h
  | cons v items ih =>
      have all : statements d (v :: items) =
          .script d v :: .ledger d v :: statements d items := rfl
      have script : Lawful (log ++ [.script d v]) :=
        h.append_singleton (due v List.mem_cons_self)
      rw [all]
      rcases n with - | - | n
      · rwa [List.take_zero, List.append_nil]
      · exact script
      · have ledger : Lawful ((log ++ [.script d v]) ++ [.ledger d v]) :=
          script.append_singleton List.getLast?_concat
        obtain ⟨new, distinct⟩ := List.nodup_cons.mp distinct
        have due : ∀ w ∈ items, d = .up ↔ w ∉ rows ((log ++ [.script d v]) ++ [.ledger d v]) := by
          intro w mem
          have other : w ≠ v := fun same => new (same ▸ mem)
          rw [mem_rows_append_ledger, if_neg other, rows_append_script]
          exact due w (List.mem_cons_of_mem v mem)
        have rest := ih ledger distinct due n
        simpa using rest

/-! ### What the ledger tells of -/

/-- The last statement of an item. -/
def lastOf (log : List (Statement V)) (v : V) : Option (Statement V) :=
  lastWhere (fun s => s.item = v) log

/-- Whether an item is listed after its last statement: a script alone has changed nothing. -/
def Lists : Option (Statement V) → Prop
  | none => False
  | some (.script d _) => d ≠ .up
  | some (.ledger d _) => d = .up

theorem lastOf_append_self (same : s.item = v) : lastOf (log ++ [s]) v = some s := by
  rw [lastOf, lastWhere, List.reverse_append]
  exact List.find?_cons_of_pos (decide_eq_true same)

theorem lastOf_append_of_ne (other : s.item ≠ v) : lastOf (log ++ [s]) v = lastOf log v := by
  rw [lastOf, lastWhere, List.reverse_append]
  exact List.find?_cons_of_neg (by simpa using other)

theorem mem_rows_iff (lawful : Lawful log) : v ∈ rows log ↔ Lists (lastOf log v) := by
  induction log using List.reverseRecOn with
  | nil => exact List.mem_nil_iff v
  | append_singleton log s ih =>
      have allowed := lawful.last
      by_cases same : s.item = v
      · rw [lastOf_append_self same]
        cases s with
        | script d w =>
            obtain rfl : w = v := same
            have allowed : d = .up ↔ w ∉ rows log := allowed
            rw [rows_append_script, Lists, Ne, allowed, not_not]
        | ledger d w =>
            obtain rfl : w = v := same
            rw [mem_rows_append_ledger, if_pos rfl, Lists]
      · rw [lastOf_append_of_ne same, mem_rows_append_of_ne same]
        exact ih lawful.of_append

/-- The log breaks off behind the last script of an item, before its statement. -/
def CutOff (log : List (Statement V)) (v : V) : Prop := ∃ d, lastOf log v = some (.script d v)

instance (v : V) (s : Statement V) : Decidable (s.IsScript v) :=
  inferInstanceAs (Decidable (_ ∨ _))

/-- The last script of an item. -/
def lastScript (log : List (Statement V)) (v : V) : Option (Statement V) :=
  lastWhere (fun s => s.IsScript v) log

/-- A statement of the ledger has its script in front. -/
theorem Lawful.script_before (lawful : Lawful log) (split : log = pre ++ .ledger d v :: post) :
    ∃ front, pre = front ++ [.script d v] := by
  have allowed : pre.getLast? = some (.script d v) := lawful pre (.ledger d v) post split
  exact ⟨pre.dropLast, (List.dropLast_append_getLast? _ allowed).symm⟩

theorem lastScript_of_lastOf (lawful : Lawful log) (last : lastOf log v = some s) :
    ∃ d, lastScript log v = some (.script d v) ∧ (s = .script d v ∨ s = .ledger d v) := by
  obtain ⟨pre, post, split, here, later⟩ := lastWhere_eq_some_iff.mp last
  have none : ∀ t ∈ post, ¬ decide (t.IsScript v) = true := by
    intro t mem script
    exact later t mem (decide_eq_true (of_decide_eq_true script).item_eq)
  cases s with
  | script d w =>
      obtain rfl : w = v := of_decide_eq_true here
      refine ⟨d, lastWhere_eq_some_iff.mpr ⟨pre, post, split, ?_, none⟩, Or.inl rfl⟩
      exact decide_eq_true isScript_script
  | ledger d w =>
      obtain rfl : w = v := of_decide_eq_true here
      obtain ⟨front, rfl⟩ := lawful.script_before split
      refine ⟨d, lastWhere_eq_some_iff.mpr ⟨front, .ledger d w :: post, ?_, ?_, ?_⟩, Or.inr rfl⟩
      · rw [split, List.append_assoc]
        rfl
      · exact decide_eq_true isScript_script
      · refine List.forall_mem_cons.mpr ⟨?_, none⟩
        rw [decide_eq_true_eq]
        rintro (h | h) <;> cases h

theorem lastScript_eq_none (last : lastOf log v = none) : lastScript log v = none := by
  rw [lastOf, lastWhere, List.find?_eq_none] at last
  rw [lastScript, lastWhere, List.find?_eq_none]
  intro s mem script
  exact last s mem (decide_eq_true (of_decide_eq_true script).item_eq)

/-- The ledger is right about the items whose last script was not cut off, and about no other. -/
theorem mem_rows_iff_lastScript (lawful : Lawful log) :
    (v ∈ rows log ↔ lastScript log v = some (.script .up v)) ↔ ¬ CutOff log v := by
  rw [mem_rows_iff lawful, CutOff]
  cases last : lastOf log v with
  | none =>
      rw [lastScript_eq_none last]
      simp [Lists]
  | some s =>
      obtain ⟨d, script, rfl | rfl⟩ := lastScript_of_lastOf lawful last
      · rw [script]
        simp [Lists]
      · rw [script]
        simp [Lists]

/-- Between two scripts that do an item there is one that undoes it, unless the first one was cut
off. -/
theorem down_or_cutOff {a b c : List (Statement V)}
    (lawful : Lawful (a ++ .script .up v :: (b ++ .script .up v :: c))) :
    .script .down v ∈ b ∨ CutOff (a ++ .script .up v :: b) v := by
  rw [← List.cons_append, ← List.append_assoc] at lawful
  have allowed : Allowed (a ++ .script .up v :: b) (.script .up v) := lawful _ _ _ rfl
  have unlisted : v ∉ rows (a ++ .script .up v :: b) := allowed.mp rfl
  have before := lawful.of_append
  rw [mem_rows_iff before] at unlisted
  cases last : lastOf (a ++ .script .up v :: b) v with
  | none =>
      rw [lastOf, lastWhere, List.find?_eq_none] at last
      refine absurd (decide_eq_true rfl) (last (.script .up v) ?_)
      simp
  | some s =>
      obtain ⟨d, -, rfl | rfl⟩ := lastScript_of_lastOf before last
      · exact Or.inr ⟨d, last⟩
      · refine Or.inl ?_
        cases d with
        | up => exact absurd rfl (last ▸ unlisted)
        | down =>
            obtain ⟨pre, post, split, -, later⟩ := lastWhere_eq_some_iff.mp last
            obtain ⟨front, rfl⟩ := before.script_before split
            rcases List.append_eq_append_iff.mp split with ⟨mid, hfront, hb⟩ | ⟨mid, -, hpost⟩
            · cases mid with
              | nil => cases hb
              | cons x mid =>
                  obtain ⟨rfl, rfl⟩ := List.cons.inj hb
                  have last : .script .down v ∈ .script .up v :: mid := by
                    refine List.mem_of_getLast? ?_
                    rw [← List.getLast?_append_cons a, ← hfront, List.getLast?_concat]
                  refine List.mem_append_left _ ((List.mem_cons.mp last).resolve_left ?_)
                  intro same
                  cases same
            · cases mid with
              | nil => cases hpost
              | cons x mid =>
                  obtain ⟨rfl, rfl⟩ := List.cons.inj hpost
                  refine absurd (decide_eq_true rfl) (later (.script .up v) ?_)
                  simp

/-! ### Undoing what was done last -/

/-- In an order of two parts, as many as one of them has come first exactly if they all go before
the other. -/
theorem mem_take_iff_before {R : V → V → Prop} {order front back : List V}
    (antisymm : ∀ a b, R a b → R b a → a = b) (sorted : order.Pairwise R)
    (parts : order.Perm (front ++ back)) (distinct : order.Nodup) :
    (∀ v, v ∈ order.take front.length ↔ v ∈ front) ↔ ∀ v ∈ front, ∀ w ∈ back, R v w := by
  have apart := (List.nodup_append.mp (parts.nodup_iff.mp distinct)).2.2
  constructor
  · intro first v hv w hw
    rw [← List.take_append_drop front.length order] at sorted
    refine (List.pairwise_append.mp sorted).2.2 v ((first v).mpr hv) w ?_
    have mem : w ∈ order := parts.mem_iff.mpr (List.mem_append_right _ hw)
    rw [← List.take_append_drop front.length order, List.mem_append, first w] at mem
    exact mem.resolve_left fun h => apart w h w hw rfl
  · intro before v
    let one : List V := order.filter (· ∈ front)
    let other : List V := order.filter (· ∉ front)
    have same : one.Perm front := by
      have filtered := parts.filter (· ∈ front)
      have none : back.filter (· ∈ front) = [] :=
        List.filter_eq_nil_iff.mpr fun w hw h => apart w (of_decide_eq_true h) w hw rfl
      rw [List.filter_append, none, List.append_nil] at filtered
      rwa [List.filter_eq_self.mpr fun v hv => decide_eq_true hv] at filtered
    have split : order = one ++ other := by
      refine List.Perm.eq_of_pairwise (fun a b _ _ => antisymm a b) sorted ?_ ?_
      · refine List.pairwise_append.mpr ⟨sorted.filter _, sorted.filter _, fun a ha b hb => ?_⟩
        obtain ⟨mem, new⟩ := List.mem_filter.mp hb
        have late := (List.mem_append.mp (parts.mem_iff.mp mem)).resolve_left
          (of_decide_eq_true new)
        exact before a (same.mem_iff.mp ha) b late
      · have cut := (List.filter_append_perm (fun v => decide (v ∈ front)) order).symm
        simpa [one, other] using cut
    rw [split, ← same.length_eq, List.take_left, same.mem_iff]

end Lazuli.General.Ledger
