import Mathlib.Data.List.Basic
import Mathlib.Data.List.Nodup
import Mathlib.Logic.Function.Iterate

/-!
A backlog from whose front a pass takes a bounded number of entries.

Some of what is taken stays where it was. An entry that does not stay is taken exactly once as
long as fewer entries stay before it than a pass takes, and never otherwise.
-/

namespace Lazuli.General.Backlog

section Pass

variable {α : Type} (stays : α → Bool) (limit : Nat)

def pass (q : List α) : List α := (q.take limit).filter stays ++ q.drop limit

/-- Everything that is taken in a number of passes. -/
def taken : Nat → List α → List α
  | 0, _ => []
  | n + 1, q => q.take limit ++ taken n (pass stays limit q)

variable {stays limit} {q before rest : List α} {x : α}

theorem pass_sublist : (pass stays limit q).Sublist q := by
  have kept : ((q.take limit).filter stays ++ q.drop limit).Sublist
      (q.take limit ++ q.drop limit) := List.filter_sublist.append (List.Sublist.refl _)
  rwa [List.take_append_drop] at kept

/-- A pass over more than it takes does not see the rest. -/
theorem pass_append (h : limit ≤ before.length) :
    pass stays limit (before ++ rest) = pass stays limit before ++ rest := by
  rw [pass, pass, List.take_append_of_le_length h, List.drop_append_of_le_length h,
    List.append_assoc]

theorem countP_pass : (pass stays limit q).countP stays = q.countP stays := by
  have filtered : ((q.take limit).filter stays).countP stays = (q.take limit).countP stays := by
    rw [List.countP_filter]
    simp only [Bool.and_self]
  rw [pass, List.countP_append, filtered, ← List.countP_append, List.take_append_drop]

/-- Where fewer stay than are taken, something goes. -/
theorem length_pass_lt (few : q.countP stays < limit) (long : limit ≤ q.length) :
    (pass stays limit q).length < q.length := by
  have front : (q.take limit).countP stays ≤ q.countP stays :=
    (List.take_sublist limit q).countP_le
  rw [pass, List.length_append, ← List.countP_eq_length_filter, List.length_drop]
  omega

theorem taken_add (m n : Nat) :
    taken stays limit (m + n) q = taken stays limit m q ++
      taken stays limit n ((pass stays limit)^[m] q) := by
  induction m generalizing q with
  | zero => rw [Nat.zero_add]; rfl
  | succ m ih => rw [Nat.succ_add, taken, taken, ih, List.append_assoc, Function.iterate_succ_apply]

theorem iterate_sublist (n : Nat) : ((pass stays limit)^[n] q).Sublist q := by
  induction n generalizing q with
  | zero => exact List.Sublist.refl q
  | succ n ih => exact ih.trans pass_sublist

theorem taken_subset (n : Nat) : taken stays limit n q ⊆ q := by
  induction n generalizing q with
  | zero => exact List.nil_subset q
  | succ n ih =>
      exact List.append_subset.mpr
        ⟨List.take_subset limit q, List.Subset.trans ih pass_sublist.subset⟩

end Pass

/-! ### One entry -/

section Entry

variable {α : Type} [DecidableEq α] {stays : α → Bool} {limit : Nat} {before rest : List α} {x : α}

/-- Where too many stay before an entry, no pass comes to it. -/
theorem blocked (new : x ∉ before) (full : limit ≤ before.countP stays) (n : Nat) :
    x ∈ (pass stays limit)^[n] (before ++ x :: rest) ∧
      (taken stays limit n (before ++ x :: rest)).count x = 0 := by
  induction n generalizing before with
  | zero => exact ⟨by simp, rfl⟩
  | succ n ih =>
      have long : limit ≤ before.length := Nat.le_trans full List.countP_le_length
      have untaken : ((before ++ x :: rest).take limit).count x = 0 := by
        rw [List.take_append_of_le_length long]
        exact List.count_eq_zero.mpr fun mem => new (List.mem_of_mem_take mem)
      have new' : x ∉ pass stays limit before := fun mem => new (pass_sublist.subset mem)
      obtain ⟨stuck, never⟩ := ih new' (by rwa [countP_pass])
      rw [Function.iterate_succ_apply, taken, List.count_append, untaken, pass_append long]
      exact ⟨stuck, by rw [never]⟩

/-- Otherwise some pass comes to it, after passes that do not. -/
theorem exists_reached (rest : List α) (new : x ∉ before) (few : before.countP stays < limit) :
    ∃ n, ∃ front : List α, x ∉ front ∧ front.length < limit ∧
      (pass stays limit)^[n] (before ++ x :: rest) = front ++ x :: rest ∧
      (taken stays limit n (before ++ x :: rest)).count x = 0 := by
  induction h : before.length using Nat.strongRecOn generalizing before with
  | ind length ih =>
      rcases Nat.lt_or_ge before.length limit with short | long
      · exact ⟨0, before, new, short, rfl, rfl⟩
      · have untaken : ((before ++ x :: rest).take limit).count x = 0 := by
          rw [List.take_append_of_le_length long]
          exact List.count_eq_zero.mpr fun mem => new (List.mem_of_mem_take mem)
        obtain ⟨n, front, new', short, reached, never⟩ := ih _ (h ▸ length_pass_lt few long)
          (fun mem => new (pass_sublist.subset mem)) (by rwa [countP_pass]) rfl
        refine ⟨n + 1, front, new', short, ?_, ?_⟩
        · rw [Function.iterate_succ_apply, pass_append long, reached]
        · rw [taken, List.count_append, untaken, pass_append long, never]

/-- A pass that comes to an entry takes it for good unless it stays. -/
theorem reached (leaves : stays x = false) (new : x ∉ before) (last : x ∉ rest)
    (short : before.length < limit) (n : Nat) :
    x ∉ (pass stays limit)^[n + 1] (before ++ x :: rest) ∧
      (taken stays limit (n + 1) (before ++ x :: rest)).count x = 1 := by
  obtain ⟨k, rfl⟩ := Nat.exists_eq_add_of_lt short
  have front : (before ++ x :: rest).take (before.length + k + 1) =
      before ++ x :: rest.take k := by
    rw [Nat.add_assoc, List.take_length_add_append, List.take_succ_cons]
  have later : (before ++ x :: rest).drop (before.length + k + 1) = rest.drop k := by
    rw [Nat.add_assoc, List.drop_length_add_append, List.drop_succ_cons]
  have gone : x ∉ pass stays (before.length + k + 1) (before ++ x :: rest) := by
    rw [pass, front, later]
    intro mem
    rcases List.mem_append.mp mem with mem | mem
    · exact Bool.false_ne_true (leaves.symm.trans (List.mem_filter.mp mem).2)
    · exact last (List.mem_of_mem_drop mem)
  have once : ((before ++ x :: rest).take (before.length + k + 1)).count x = 1 := by
    have taken : x ∉ rest.take k := fun mem => last (List.mem_of_mem_take mem)
    rw [front, List.count_append, List.count_cons_self, List.count_eq_zero.mpr new,
      List.count_eq_zero.mpr taken]
  have after : (taken stays (before.length + k + 1) n
      (pass stays (before.length + k + 1) (before ++ x :: rest))).count x = 0 :=
    List.count_eq_zero.mpr fun mem => gone (taken_subset n mem)
  rw [Function.iterate_succ_apply, taken, List.count_append, once, after]
  exact ⟨fun mem => gone ((iterate_sublist n).subset mem), rfl⟩

/-- An entry that does not stay is taken once and for all exactly when fewer stay before it than
a pass takes. -/
theorem taken_once_iff (leaves : stays x = false) (new : x ∉ before) (last : x ∉ rest) :
    (∃ N, ∀ n, N ≤ n → x ∉ (pass stays limit)^[n] (before ++ x :: rest) ∧
      (taken stays limit n (before ++ x :: rest)).count x = 1) ↔
        before.countP stays < limit := by
  constructor
  · rintro ⟨N, served⟩
    by_contra full
    exact (served N (Nat.le_refl N)).1 (blocked new (Nat.not_lt.mp full) N).1
  · intro few
    obtain ⟨m, front, new', short, comes, never⟩ := exists_reached rest new few
    refine ⟨m + 1, fun n le => ?_⟩
    obtain ⟨k, rfl⟩ := Nat.exists_eq_add_of_le le
    obtain ⟨gone, once⟩ := reached leaves new' last short k
    rw [show m + 1 + k = (k + 1) + m by omega, Function.iterate_add_apply, comes,
      Nat.add_comm (k + 1) m, taken_add, List.count_append, never, comes, once]
    exact ⟨gone, rfl⟩

end Entry

end Lazuli.General.Backlog
