import Mathlib.Data.Finset.Attach
import Mathlib.Data.Finset.Card
import Mathlib.Data.List.Sort
import Mathlib.Data.Fintype.Card
import Mathlib.Data.Fintype.EquivFin
import Mathlib.Logic.Relation
import Mathlib.Order.Bounds.Basic
import Mathlib.Order.WellFounded

/-!
Kahn's algorithm over ordered nodes.

The edges are counted once, and the nodes that wait for nothing are taken out smallest first;
whatever waited for one of them has one edge less. `Greedy` says what such an order is without
its counters: each node is the least of those whose needs have all been placed. The loop keeps
`Inv`, so it places a greedy order, and every node when the graph has no cycle.
-/

namespace Lazuli.General.Kahn

variable {K : Type} [LinearOrder K]

/-! ### Ordered sets -/

/-- Insertion into an ordered set; what is there stays. -/
def insertSorted (k : K) (set : List K) : List K :=
  if k ∈ set then set else set.orderedInsert (· ≤ ·) k

def sortedOf (ks : List K) : List K := ks.foldl (fun set k => insertSorted k set) []

/-- Strictly increasing, as the elements of an ordered set are. -/
abbrev Increasing (set : List K) : Prop := set.Pairwise (· < ·)

section OrderedSets

variable {k x : K} {set ks : List K}

@[simp] theorem mem_insertSorted : x ∈ insertSorted k set ↔ x = k ∨ x ∈ set := by
  unfold insertSorted
  split
  next mem =>
    refine ⟨.inr, ?_⟩
    rintro (rfl | h)
    · exact mem
    · exact h
  · exact List.mem_orderedInsert _

theorem increasing_insertSorted (h : Increasing set) : Increasing (insertSorted k set) := by
  unfold insertSorted
  split
  · exact h
  next fresh =>
    have hsorted : (set.orderedInsert (· ≤ ·) k).Pairwise (· ≤ ·) :=
      List.Pairwise.orderedInsert k set (h.imp le_of_lt)
    have hnodup : (set.orderedInsert (· ≤ ·) k).Nodup := by
      rw [(List.perm_orderedInsert (· ≤ ·) k set).nodup_iff, List.nodup_cons]
      exact ⟨fresh, h.imp ne_of_lt⟩
    exact hsorted.imp₂ (fun _ _ hle hne => lt_of_le_of_ne hle hne) hnodup

theorem foldl_insertSorted (h : Increasing set) :
    Increasing (ks.foldl (fun set k => insertSorted k set) set) ∧
      ∀ x, x ∈ ks.foldl (fun set k => insertSorted k set) set ↔ x ∈ ks ∨ x ∈ set := by
  induction ks generalizing set with
  | nil => simp [h]
  | cons k ks ih =>
      obtain ⟨hsorted, hmem⟩ := ih (increasing_insertSorted (k := k) h)
      refine ⟨hsorted, fun x => ?_⟩
      rw [List.foldl_cons, hmem, mem_insertSorted, List.mem_cons]
      tauto

theorem increasing_sortedOf (ks : List K) : Increasing (sortedOf ks) :=
  (foldl_insertSorted List.Pairwise.nil).1

@[simp] theorem mem_sortedOf : x ∈ sortedOf ks ↔ x ∈ ks := by
  rw [sortedOf, (foldl_insertSorted List.Pairwise.nil).2]
  simp

end OrderedSets

/-! ### Graphs -/

/-- A node and another that it waits for. -/
structure Edge (K : Type) where
  dependent : K
  target : K
  deriving DecidableEq

/-- What a node waits for. -/
def waitsFor (edges : List (Edge K)) (k : K) : Finset K :=
  ((edges.filter fun e => e.dependent = k).map Edge.target).toFinset

theorem mem_waitsFor {edges : List (Edge K)} {k t : K} :
    t ∈ waitsFor edges k ↔ ⟨k, t⟩ ∈ edges := by
  simp only [waitsFor, List.mem_toFinset, List.mem_map, List.mem_filter, decide_eq_true_eq]
  constructor
  · rintro ⟨e, ⟨he, rfl⟩, rfl⟩
    exact he
  · exact fun he => ⟨⟨k, t⟩, ⟨he, rfl⟩, rfl⟩

/-- No node waits for itself, and nobody waits for what is no node. -/
structure Graph (K : Type) where
  nodes : List K
  edges : List (Edge K)
  dependent_mem : ∀ e ∈ edges, e.dependent ∈ nodes
  target_mem : ∀ e ∈ edges, e.target ∈ nodes
  irrefl : ∀ e ∈ edges, e.target ≠ e.dependent

namespace Graph

variable (g : Graph K)

def needs (k : K) : Finset K := waitsFor g.edges k

/-- Not placed yet, while all that it waits for is. -/
structure Ready (placed : List K) (k : K) : Prop where
  node : k ∈ g.nodes
  fresh : k ∉ placed
  met : ∀ t ∈ g.needs k, t ∈ placed

/-- Each node is the least one that is ready when its turn comes. -/
def Greedy (order : List K) : Prop :=
  ∀ before k after, order = before ++ k :: after → IsLeast {x | g.Ready before x} k

def Acyclic : Prop := ∀ k, ¬ Relation.TransGen (fun k t => t ∈ g.needs k) k k

variable {g} {k t : K} {order : List K}

theorem mem_needs : t ∈ g.needs k ↔ ⟨k, t⟩ ∈ g.edges := mem_waitsFor

theorem ne_of_mem_needs (h : t ∈ g.needs k) : t ≠ k := g.irrefl _ (mem_needs.mp h)

theorem Greedy.nil : g.Greedy [] := by
  intro before k after h
  cases before <;> cases h

theorem Greedy.concat (greedy : g.Greedy order) (least : IsLeast {x | g.Ready order x} k) :
    g.Greedy (order ++ [k]) := by
  intro before x after h
  rcases List.eq_nil_or_concat after with rfl | ⟨after, last, rfl⟩
  · obtain ⟨rfl, h⟩ := List.append_inj' h rfl
    obtain rfl : k = x := by simpa using h
    exact least
  · rw [List.concat_eq_append, ← List.cons_append, ← List.append_assoc] at h
    exact greedy before x after (List.append_inj' h rfl).1

/-- What a placed node waits for stands before it. -/
theorem Greedy.needs_before {before after : List K} (greedy : g.Greedy (before ++ k :: after)) :
    ∀ t ∈ g.needs k, t ∈ before :=
  (greedy before k after rfl).1.met

theorem Greedy.needs_placed (greedy : g.Greedy order) (hk : k ∈ order) :
    ∀ t ∈ g.needs k, t ∈ order := by
  obtain ⟨before, after, rfl⟩ := List.append_of_mem hk
  intro t ht
  exact List.mem_append_left _ (greedy.needs_before t ht)

theorem Greedy.nodup (greedy : g.Greedy order) : order.Nodup := by
  rw [List.nodup_iff_pairwise_ne, List.pairwise_iff_forall_sublist]
  intro a b hsub hab
  subst hab
  obtain ⟨r₁, r₂, rfl, h₁, h₂⟩ := List.cons_sublist_iff.mp hsub
  obtain ⟨s, t, rfl⟩ := List.append_of_mem (List.singleton_sublist.mp h₂)
  have fresh := (greedy (r₁ ++ s) a t (by simp)).1.fresh
  exact fresh (List.mem_append_left _ h₁)

theorem Greedy.subset (greedy : g.Greedy order) : order ⊆ g.nodes := by
  intro k hk
  obtain ⟨before, after, rfl⟩ := List.append_of_mem hk
  exact (greedy before k after rfl).1.node

/-- Edges that go down in the order of the nodes have no cycle. -/
theorem Acyclic.of_lt (h : ∀ e ∈ g.edges, e.target < e.dependent) : g.Acyclic := by
  have hdown : ∀ {a b : K}, Relation.TransGen (fun k t => t ∈ g.needs k) a b → b < a := by
    intro a b hab
    induction hab with
    | single hb => exact h _ (mem_needs.mp hb)
    | tail _ hc ih => exact (h _ (mem_needs.mp hc)).trans ih
  exact fun k hk => lt_irrefl k (hdown hk)

/-- Without a cycle some unplaced node is ready. -/
theorem Acyclic.exists_ready (acyclic : g.Acyclic) {placed : List K} (hk : k ∈ g.nodes)
    (fresh : k ∉ placed) : ∃ x, g.Ready placed x := by
  by_contra none
  -- otherwise every unplaced node waits for another one, and there are finitely many
  let rest := g.nodes.toFinset.filter (· ∉ placed)
  let below : rest → rest → Prop := Relation.TransGen fun t k => t.1 ∈ g.needs k.1
  have hlift : ∀ {a b : rest}, below a b →
      Relation.TransGen (fun k t => t ∈ g.needs k) b.1 a.1 := by
    intro a b h
    induction h with
    | single h => exact .single h
    | tail _ h ih => exact .head h ih
  have hirrefl : Std.Irrefl below := ⟨fun a h => acyclic a.1 (hlift h)⟩
  have htrans : IsTrans rest below := ⟨fun _ _ _ => Relation.TransGen.trans⟩
  have wf : WellFounded below := Finite.wellFounded_of_trans_of_irrefl below
  obtain ⟨⟨m, hm⟩, -, least⟩ := wf.has_min Set.univ ⟨⟨k, by simp [rest, hk, fresh]⟩, trivial⟩
  obtain ⟨hnode, hfresh⟩ : m ∈ g.nodes ∧ m ∉ placed := by simpa [rest] using hm
  have hwaits : ∃ t ∈ g.needs m, t ∉ placed := by
    by_contra met
    push Not at met
    exact none ⟨m, hnode, hfresh, met⟩
  obtain ⟨t, ht, htfresh⟩ := hwaits
  have htnode : t ∈ g.nodes := g.target_mem _ (mem_needs.mp ht)
  exact least ⟨t, by simp [rest, htnode, htfresh]⟩ trivial (.single ht)

end Graph

/-! ### Counting the edges -/

/-- The dependents of each node, and on how many targets each node still depends. -/
structure Counts (K : Type) where
  dependents : K → List K
  degree : K → Nat

/-- An edge that is there already is not counted again. -/
def Counts.add (c : Counts K) (e : Edge K) : Counts K :=
  if e.dependent ∈ c.dependents e.target then c
  else
    { dependents := Function.update c.dependents e.target
        (insertSorted e.dependent (c.dependents e.target))
      degree := Function.update c.degree e.dependent (c.degree e.dependent + 1) }

def count (edges : List (Edge K)) : Counts K :=
  edges.foldl Counts.add ⟨fun _ => [], fun _ => 0⟩

/-- The counts are those of the edges so far. -/
structure Counts.Of (edges : List (Edge K)) (c : Counts K) : Prop where
  increasing : ∀ t, Increasing (c.dependents t)
  dependents : ∀ t k, k ∈ c.dependents t ↔ ⟨k, t⟩ ∈ edges
  degree : ∀ k, c.degree k = (waitsFor edges k).card

section Counting

variable {edges : List (Edge K)} {c : Counts K} {e : Edge K}

theorem Counts.Of.add (of : c.Of edges) : (c.add e).Of (edges ++ [e]) := by
  obtain ⟨k, t⟩ := e
  unfold Counts.add
  split
  next known =>
    have hmem : ⟨k, t⟩ ∈ edges := (of.dependents t k).mp known
    have hsame : ∀ e : Edge K, e ∈ edges ++ [⟨k, t⟩] ↔ e ∈ edges := by
      intro e
      simp only [List.mem_append, List.mem_singleton]
      exact ⟨fun h => h.elim id fun he => he ▸ hmem, .inl⟩
    refine ⟨of.increasing, fun t' k' => ?_, fun k' => ?_⟩
    · rw [hsame, of.dependents]
    · rw [of.degree]
      congr 1
      ext t'
      rw [mem_waitsFor, mem_waitsFor, hsame]
  next fresh =>
    have hnew : ⟨k, t⟩ ∉ edges := fun h => fresh ((of.dependents t k).mpr h)
    refine ⟨fun t' => ?_, fun t' k' => ?_, fun k' => ?_⟩ <;> dsimp only
    · by_cases ht : t' = t
      · subst ht
        simpa using increasing_insertSorted (of.increasing t')
      · simpa [Function.update_of_ne ht] using of.increasing t'
    · by_cases ht : t' = t
      · subst ht
        simp [of.dependents, or_comm]
      · simp [of.dependents, ht]
    · by_cases hk : k' = k
      · subst hk
        have hcard : waitsFor (edges ++ [⟨k', t⟩]) k' = insert t (waitsFor edges k') := by
          ext t'
          simp [mem_waitsFor, or_comm]
        rw [Function.update_self, of.degree, hcard, Finset.card_insert_of_notMem]
        rwa [mem_waitsFor]
      · rw [Function.update_of_ne hk, of.degree]
        congr 1
        ext t'
        simp [mem_waitsFor, hk]

theorem foldl_add_of (more : List (Edge K)) (of : c.Of edges) :
    (more.foldl Counts.add c).Of (edges ++ more) := by
  induction more generalizing edges c with
  | nil => simpa using of
  | cons e more ih => simpa using ih (of.add (e := e))

theorem count_of (edges : List (Edge K)) : (count edges).Of edges := by
  have start : (⟨fun _ => [], fun _ => 0⟩ : Counts K).Of [] :=
    ⟨fun _ => List.Pairwise.nil, by simp, fun _ => rfl⟩
  exact foldl_add_of edges start

end Counting

/-! ### The loop -/

structure State (K : Type) where
  ready : List K
  degree : K → Nat
  placed : List K

/-- One edge less for `d`, which becomes ready with its last. -/
def State.release (s : State K) (d : K) : State K :=
  if 0 < s.degree d then
    { s with
      degree := Function.update s.degree d (s.degree d - 1)
      ready := if s.degree d - 1 = 0 then insertSorted d s.ready else s.ready }
  else s

/-- Place the smallest ready node. -/
def State.step (dependents : K → List K) (s : State K) : State K :=
  match s.ready with
  | [] => s
  | k :: rest =>
      (dependents k).foldl State.release { s with ready := rest, placed := s.placed ++ [k] }

def State.run (dependents : K → List K) : Nat → State K → State K
  | 0, s => s
  | n + 1, s => (s.step dependents).run dependents n

def start (nodes : List K) (c : Counts K) : State K where
  ready := nodes.filter fun k => c.degree k = 0
  degree := c.degree
  placed := []

/-- Every node takes one round. -/
def place (nodes : List K) (edges : List (Edge K)) : List K :=
  let c := count edges
  ((start nodes c).run c.dependents nodes.length).placed

section Release

variable {s : State K} {ds : List K}

@[simp] theorem placed_foldl_release (s : State K) (ds : List K) :
    (ds.foldl State.release s).placed = s.placed := by
  induction ds generalizing s with
  | nil => rfl
  | cons d ds ih =>
      rw [List.foldl_cons, ih, State.release]
      split
      · rfl
      · rfl

/-- What the dependents of a placed node lose, one after the other. -/
theorem foldl_release (nodup : ds.Nodup) (positive : ∀ d ∈ ds, 0 < s.degree d)
    (increasing : Increasing s.ready) :
    (∀ x, (ds.foldl State.release s).degree x =
      if x ∈ ds then s.degree x - 1 else s.degree x) ∧
    Increasing (ds.foldl State.release s).ready ∧
    ∀ x, x ∈ (ds.foldl State.release s).ready ↔ x ∈ s.ready ∨ x ∈ ds ∧ s.degree x = 1 := by
  induction ds generalizing s with
  | nil => simp [increasing]
  | cons d ds ih =>
      obtain ⟨hfresh, hnodup⟩ := List.nodup_cons.mp nodup
      have hpos : 0 < s.degree d := positive d List.mem_cons_self
      have hother : ∀ x ∈ ds, x ≠ d := fun x hx hxd => hfresh (hxd ▸ hx)
      have hreleased : s.release d =
          { s with
            degree := Function.update s.degree d (s.degree d - 1)
            ready := if s.degree d - 1 = 0 then insertSorted d s.ready else s.ready } :=
        if_pos hpos
      have hsorted : Increasing (s.release d).ready := by
        rw [hreleased]
        dsimp only
        split
        · exact increasing_insertSorted increasing
        · exact increasing
      have hpos' : ∀ x ∈ ds, 0 < (s.release d).degree x := by
        intro x hx
        rw [hreleased]
        simpa [hother x hx] using positive x (List.mem_cons_of_mem _ hx)
      obtain ⟨hdegree, hready, hmem⟩ := ih hnodup hpos' hsorted
      rw [List.foldl_cons]
      refine ⟨fun x => ?_, hready, fun x => ?_⟩
      · rw [hdegree, hreleased]
        by_cases hxd : x = d
        · subst hxd
          simp [hfresh]
        · simp [hxd]
      · rw [hmem, hreleased]
        by_cases hxd : x = d
        · subst hxd
          have hone : s.degree x - 1 = 0 ↔ s.degree x = 1 := by omega
          by_cases hlast : s.degree x = 1
          · simp [hlast]
          · simp [hone, hlast, hfresh]
        · by_cases hlast : s.degree d - 1 = 0
          · simp [hlast, hxd]
          · simp [hlast, hxd]

end Release

/-- What is placed is a greedy order, the counters are those of the edges to unplaced nodes,
and the ready nodes are known, smallest first. -/
structure Inv (g : Graph K) (s : State K) : Prop where
  greedy : g.Greedy s.placed
  degree : ∀ k, s.degree k = {t ∈ g.needs k | t ∉ s.placed}.card
  increasing : Increasing s.ready
  ready : ∀ k, k ∈ s.ready ↔ g.Ready s.placed k

section Loop

variable {g : Graph K} {s : State K} {c : Counts K} {k : K}

theorem Inv.start (of : c.Of g.edges) (increasing : Increasing g.nodes) :
    Inv g (start g.nodes c) where
  greedy := .nil
  degree := by
    intro k
    simp [Kahn.start, of.degree, Graph.needs]
  increasing := List.Pairwise.filter _ increasing
  ready := by
    intro k
    have hzero : c.degree k = 0 ↔ g.needs k = ∅ := by
      rw [of.degree, Finset.card_eq_zero, Graph.needs]
    simp only [Kahn.start, List.mem_filter, decide_eq_true_eq, hzero,
      Finset.eq_empty_iff_forall_notMem]
    exact ⟨fun ⟨hk, hmet⟩ => ⟨hk, List.not_mem_nil, fun t ht => absurd ht (hmet t)⟩,
      fun h => ⟨h.node, fun t ht => List.not_mem_nil (h.met t ht)⟩⟩

/-- The smallest of the ready nodes is the least one. -/
theorem Inv.least (inv : Inv g s) {rest : List K} (hready : s.ready = k :: rest) :
    IsLeast {x | g.Ready s.placed x} k := by
  have hsorted := inv.increasing
  rw [hready, Increasing, List.pairwise_cons] at hsorted
  refine ⟨(inv.ready k).mp (hready ▸ List.mem_cons_self), fun x hx => ?_⟩
  have hmem := (inv.ready x).mpr hx
  rw [hready, List.mem_cons] at hmem
  rcases hmem with rfl | hmem
  · exact le_rfl
  · exact (hsorted.1 x hmem).le

/-- The edges to unplaced nodes, after `k` has been placed too. -/
theorem unmet_concat (placed : List K) (needs : Finset K) :
    {t ∈ needs | t ∉ placed ++ [k]} = {t ∈ needs | t ∉ placed}.erase k := by
  ext t
  simp only [Finset.mem_filter, Finset.mem_erase, List.mem_append, List.mem_singleton]
  tauto

theorem Inv.step (of : c.Of g.edges) (inv : Inv g s) : Inv g (s.step c.dependents) := by
  unfold State.step
  split
  · exact inv
  next k rest hready =>
    have hleast := inv.least hready
    obtain ⟨hnode, hfresh, hmet⟩ := hleast.1
    have hwaits (x : K) : x ∈ c.dependents k ↔ k ∈ g.needs x := by
      rw [of.dependents, Graph.mem_needs]
    -- a dependent of `k` waits for `k` at least
    have hunmet (x : K) (hx : k ∈ g.needs x) : k ∈ {t ∈ g.needs x | t ∉ s.placed} :=
      Finset.mem_filter.mpr ⟨hx, hfresh⟩
    have hsorted := inv.increasing
    rw [hready, Increasing, List.pairwise_cons] at hsorted
    obtain ⟨hdegree, hincreasing, hmem⟩ := foldl_release
      (s := { s with ready := rest, placed := s.placed ++ [k] })
      ((of.increasing k).imp ne_of_lt)
      (fun d hd => by
        rw [inv.degree]
        exact Finset.card_pos.mpr ⟨k, hunmet d ((hwaits d).mp hd)⟩)
      hsorted.2
    refine ⟨?_, fun x => ?_, hincreasing, fun x => ?_⟩
    · rw [placed_foldl_release]
      exact inv.greedy.concat hleast
    · rw [hdegree, placed_foldl_release, unmet_concat, inv.degree]
      by_cases hx : k ∈ g.needs x
      · rw [if_pos ((hwaits x).mpr hx), Finset.card_erase_of_mem (hunmet x hx)]
      · rw [if_neg (mt (hwaits x).mp hx), Finset.erase_eq_of_notMem]
        exact fun h => hx (Finset.mem_filter.mp h).1
    · rw [hmem, placed_foldl_release, hwaits, inv.degree]
      constructor
      · rintro (hrest | ⟨hx, hone⟩)
        · obtain ⟨xnode, xfresh, xmet⟩ := (inv.ready x).mp (hready ▸ List.mem_cons_of_mem _ hrest)
          have hne : x ≠ k := (hsorted.1 x hrest).ne'
          exact ⟨xnode, by simp [xfresh, hne], fun t ht => List.mem_append_left _ (xmet t ht)⟩
        · have hxfresh : x ∉ s.placed := fun h => hfresh (inv.greedy.needs_placed h k hx)
          refine ⟨g.dependent_mem _ (Graph.mem_needs.mp hx), ?_, fun t ht => ?_⟩
          · simp [hxfresh, (Graph.ne_of_mem_needs hx).symm]
          · by_contra htfresh
            rw [List.mem_append, List.mem_singleton, not_or] at htfresh
            -- `k` would not be the last one that `x` waits for
            obtain ⟨a, ha⟩ := Finset.card_eq_one.mp hone
            have hka : k = a := Finset.mem_singleton.mp (ha ▸ hunmet x hx)
            have hta : t = a :=
              Finset.mem_singleton.mp (ha ▸ Finset.mem_filter.mpr ⟨ht, htfresh.1⟩)
            exact htfresh.2 (hta.trans hka.symm)
      · rintro ⟨xnode, xfresh, xmet⟩
        rw [List.mem_append, List.mem_singleton, not_or] at xfresh
        by_cases hx : k ∈ g.needs x
        · refine .inr ⟨hx, Finset.card_eq_one.mpr ⟨k, ?_⟩⟩
          refine Finset.eq_singleton_iff_unique_mem.mpr ⟨hunmet x hx, fun t ht => ?_⟩
          obtain ⟨ht, htfresh⟩ := Finset.mem_filter.mp ht
          rcases List.mem_append.mp (xmet t ht) with h | h
          · exact absurd h htfresh
          · exact List.mem_singleton.mp h
        · have hxready : x ∈ s.ready := by
            refine (inv.ready x).mpr ⟨xnode, xfresh.1, fun t ht => ?_⟩
            rcases List.mem_append.mp (xmet t ht) with h | h
            · exact h
            · exact absurd (List.mem_singleton.mp h ▸ ht) hx
          rw [hready, List.mem_cons] at hxready
          exact .inl (hxready.resolve_left xfresh.2)

theorem Inv.run (of : c.Of g.edges) (inv : Inv g s) (n : Nat) :
    Inv g (s.run c.dependents n) := by
  induction n generalizing s with
  | zero => exact inv
  | succ n ih => exact ih (inv.step of)

/-- A round places a node as long as one is ready. -/
theorem run_ready (dependents : K → List K) (n : Nat) (s : State K) :
    (s.run dependents n).ready = [] ∨
      (s.run dependents n).placed.length = s.placed.length + n := by
  induction n generalizing s with
  | zero => exact .inr rfl
  | succ n ih =>
      cases hready : s.ready with
      | nil =>
          have hstep : s.step dependents = s := by rw [State.step, hready]
          have hrun : ∀ m, s.run dependents m = s := by
            intro m
            induction m with
            | zero => rfl
            | succ m ih => rw [State.run, hstep, ih]
          exact .inl (by rw [hrun, hready])
      | cons k rest =>
          refine (ih (s.step dependents)).imp_right fun h => ?_
          rw [State.run, h, State.step, hready]
          simp [Nat.add_assoc, Nat.add_comm 1 n]

/-- When all nodes are placed none is ready. -/
theorem Inv.ready_eq_nil (inv : Inv g s) (full : g.nodes.length ≤ s.placed.length) :
    s.ready = [] := by
  have hperm : s.placed.Perm g.nodes :=
    (inv.greedy.nodup.subperm inv.greedy.subset).perm_of_length_le full
  refine List.eq_nil_iff_forall_not_mem.mpr fun k hk => ?_
  have hready := (inv.ready k).mp hk
  exact hready.fresh (hperm.mem_iff.mpr hready.node)

/-- At the end the order is greedy, and no node is ready any more. -/
theorem place_spec (increasing : Increasing g.nodes) :
    g.Greedy (place g.nodes g.edges) ∧ ∀ k, ¬ g.Ready (place g.nodes g.edges) k := by
  have of := count_of g.edges
  have inv := (Inv.start of increasing).run of g.nodes.length
  have hnil : ((start g.nodes (count g.edges)).run (count g.edges).dependents
      g.nodes.length).ready = [] := by
    rcases run_ready (count g.edges).dependents g.nodes.length
        (start g.nodes (count g.edges)) with h | h
    · exact h
    · exact inv.ready_eq_nil (by simp [h])
  refine ⟨inv.greedy, fun k hk => ?_⟩
  have hmem := (inv.ready k).mpr hk
  rw [hnil] at hmem
  exact List.not_mem_nil hmem

end Loop

/-! ### The whole order -/

/-- What cannot be placed for a cycle. -/
def unplaced (nodes : List K) (edges : List (Edge K)) : List K :=
  nodes.filter fun k => k ∉ place nodes edges

def order (nodes : List K) (edges : List (Edge K)) : List K :=
  place nodes edges ++ unplaced nodes edges

section Order

variable {g : Graph K}

theorem order_perm (increasing : Increasing g.nodes) : (order g.nodes g.edges).Perm g.nodes := by
  obtain ⟨greedy, -⟩ := place_spec increasing
  have hnodes : g.nodes.Nodup := increasing.imp ne_of_lt
  refine (List.perm_ext_iff_of_nodup ?_ hnodes).mpr fun k => ?_
  · refine List.nodup_append.mpr ⟨greedy.nodup, hnodes.filter _, ?_⟩
    rintro a ha b hb rfl
    exact absurd ha (by simpa using (List.mem_filter.mp hb).2)
  · simp only [order, unplaced, List.mem_append, List.mem_filter, decide_eq_true_eq]
    refine ⟨fun h => h.elim (greedy.subset ·) (·.1), fun hk => ?_⟩
    by_cases hplaced : k ∈ place g.nodes g.edges
    · exact .inl hplaced
    · exact .inr ⟨hk, hplaced⟩

/-- Without a cycle every node is placed. -/
theorem order_eq_place (increasing : Increasing g.nodes) (acyclic : g.Acyclic) :
    order g.nodes g.edges = place g.nodes g.edges := by
  obtain ⟨-, stuck⟩ := place_spec increasing
  have hrest : unplaced g.nodes g.edges = [] := by
    rw [unplaced, List.filter_eq_nil_iff]
    intro k hk hfresh
    obtain ⟨x, hx⟩ := acyclic.exists_ready hk (of_decide_eq_true hfresh)
    exact stuck x hx
  rw [order, hrest, List.append_nil]

/-- Two greedy orders of all nodes are the same: each choice is a least one. -/
theorem Graph.Greedy.unique {xs ys : List K} (hxs : g.Greedy xs) (hys : g.Greedy ys)
    (hlen : xs.length = ys.length) : xs = ys := by
  have hstep : ∀ (xs ys before : List K), g.Greedy (before ++ xs) → g.Greedy (before ++ ys) →
      xs.length = ys.length → xs = ys := by
    intro xs
    induction xs with
    | nil =>
        intro ys before _ _ hlen
        exact (List.length_eq_zero_iff.mp hlen.symm).symm
    | cons x xs ih =>
        intro ys before hxs hys hlen
        cases ys with
        | nil => cases hlen
        | cons y ys =>
            obtain rfl : x = y := (hxs before x xs rfl).unique (hys before y ys rfl)
            rw [List.append_cons] at hxs hys
            rw [ih ys _ hxs hys (Nat.succ.inj hlen)]
  exact hstep xs ys [] hxs hys hlen

theorem order_greedy (increasing : Increasing g.nodes) (acyclic : g.Acyclic) :
    g.Greedy (order g.nodes g.edges) := by
  rw [order_eq_place increasing acyclic]
  exact (place_spec increasing).1

end Order

end Lazuli.General.Kahn
