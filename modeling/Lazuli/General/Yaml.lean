import Mathlib.Data.List.Basic

/-!
Block documents: nested mappings, written entry by entry.

A mapping is the list of its entries in the order in which they are written, so one key can stand
in it twice. `Node.Distinct` says that this happens nowhere, `Node.Refers` which references a
document holds. `text` is what is written.
-/

namespace Lazuli.General.Yaml

/-- `flow` is a text on a line of its own under its key; an item of `seq` is a mapping. -/
inductive Node where
  | scalar (text : String)
  | flow (text : String)
  | map (entries : List (String × Node))
  | seq (items : List (List (String × Node)))

abbrev Block := List (String × Node)

def keys (block : Block) : List String := block.map Prod.fst

/-! ### Text -/

/-- The mark of an item, in front of its first line. -/
def bullet (depth : Nat) : List (Nat × String) → List (Nat × String)
  | [] => []
  | (_, text) :: rest => (depth, "- " ++ text) :: rest

mutual

/-- The lines of an entry, each with its depth. -/
def Node.lines (depth : Nat) (key : String) : Node → List (Nat × String)
  | .scalar text => [(depth, key ++ ": " ++ text)]
  | .flow text => [(depth, key ++ ":"), (depth + 1, text)]
  | .map entries => (depth, key ++ ":") :: lines (depth + 1) entries
  | .seq items => (depth, key ++ ":") :: itemLines (depth + 1) items

def lines (depth : Nat) : List (String × Node) → List (Nat × String)
  | [] => []
  | (key, node) :: rest => node.lines depth key ++ lines depth rest

def itemLines (depth : Nat) : List (List (String × Node)) → List (Nat × String)
  | [] => []
  | item :: rest => bullet depth (lines (depth + 1) item) ++ itemLines depth rest

end

/-- Two blanks for each step. -/
def text (block : Block) : String :=
  String.join ((lines 0 block).map fun l =>
    String.join (List.replicate l.1 "  ") ++ l.2 ++ "\n")

/-! ### Keys -/

/-- No mapping has one key twice. -/
inductive Node.Distinct : Node → Prop
  | scalar (text : String) : Distinct (.scalar text)
  | flow (text : String) : Distinct (.flow text)
  | map {entries : Block} : (keys entries).Nodup → (∀ e ∈ entries, Distinct e.2) →
      Distinct (.map entries)
  | seq {items : List Block} : (∀ item ∈ items, Distinct (.map item)) → Distinct (.seq items)

namespace Node.Distinct

variable {block block' : Block} {key : String} {node : Node}

theorem map_iff : Distinct (.map block) ↔ (keys block).Nodup ∧ ∀ e ∈ block, Distinct e.2 := by
  constructor
  · intro distinct
    cases distinct with
    | map nodup all => exact ⟨nodup, all⟩
  · exact fun h => .map h.1 h.2

theorem nil : Distinct (.map []) := .map List.nodup_nil fun _ mem => absurd mem List.not_mem_nil

/-- One more entry, with a key of its own. -/
theorem cons_iff : Distinct (.map ((key, node) :: block)) ↔
    key ∉ keys block ∧ node.Distinct ∧ Distinct (.map block) := by
  rw [map_iff, map_iff, keys, List.map_cons, List.nodup_cons, List.forall_mem_cons]
  constructor
  · rintro ⟨⟨fresh, nodup⟩, here, all⟩
    exact ⟨fresh, here, nodup, all⟩
  · rintro ⟨fresh, here, nodup, all⟩
    exact ⟨⟨fresh, nodup⟩, here, all⟩

theorem single_iff : Distinct (.map [(key, node)]) ↔ node.Distinct := by
  rw [cons_iff]
  exact ⟨fun h => h.2.1, fun h => ⟨List.not_mem_nil, h, nil⟩⟩

/-- Two parts that share no key. -/
theorem append (h : Distinct (.map block)) (h' : Distinct (.map block'))
    (apart : ∀ k ∈ keys block, k ∉ keys block') : Distinct (.map (block ++ block')) := by
  rw [map_iff] at h h' ⊢
  refine ⟨?_, List.forall_mem_append.mpr ⟨h.2, h'.2⟩⟩
  rw [keys, List.map_append]
  refine List.nodup_append.mpr ⟨h.1, h'.1, fun a ha b hb same => ?_⟩
  exact apart a ha (same ▸ hb)

end Node.Distinct

/-! ### References -/

/-- The document holds a `$ref` with this text. -/
inductive Node.Refers : Node → String → Prop
  | here {entries : Block} {text : String} : ("$ref", .scalar text) ∈ entries →
      Refers (.map entries) text
  | under {entries : Block} {e : String × Node} {text : String} : e ∈ entries → Refers e.2 text →
      Refers (.map entries) text
  | item {items : List Block} {entries : Block} {text : String} : entries ∈ items →
      Refers (.map entries) text → Refers (.seq items) text

namespace Node.Refers

variable {block block' : Block} {key : String} {node : Node} {text : String}

theorem map_iff : Refers (.map block) text ↔
    ("$ref", .scalar text) ∈ block ∨ ∃ e ∈ block, Refers e.2 text := by
  constructor
  · intro refers
    cases refers with
    | here mem => exact .inl mem
    | under mem later => exact .inr ⟨_, mem, later⟩
  · rintro (mem | ⟨e, mem, later⟩)
    · exact .here mem
    · exact .under mem later

theorem append_iff : Refers (.map (block ++ block')) text ↔
    Refers (.map block) text ∨ Refers (.map block') text := by
  simp only [map_iff, List.mem_append]
  constructor
  · rintro ((mem | mem) | ⟨e, mem | mem, later⟩)
    · exact .inl (.inl mem)
    · exact .inr (.inl mem)
    · exact .inl (.inr ⟨e, mem, later⟩)
    · exact .inr (.inr ⟨e, mem, later⟩)
  · rintro ((mem | ⟨e, mem, later⟩) | (mem | ⟨e, mem, later⟩))
    · exact .inl (.inl mem)
    · exact .inr ⟨e, .inl mem, later⟩
    · exact .inl (.inr mem)
    · exact .inr ⟨e, .inr mem, later⟩

theorem cons_iff : Refers (.map ((key, node) :: block)) text ↔
    ("$ref", .scalar text) = (key, node) ∨ node.Refers text ∨ Refers (.map block) text := by
  simp only [map_iff, List.mem_cons, exists_eq_or_imp]
  constructor
  · rintro ((same | mem) | here | later)
    · exact .inl same
    · exact .inr (.inr (.inl mem))
    · exact .inr (.inl here)
    · exact .inr (.inr (.inr later))
  · rintro (same | here | mem | later)
    · exact .inl (.inl same)
    · exact .inr (.inl here)
    · exact .inl (.inr mem)
    · exact .inr (.inr later)

theorem not_nil : ¬Refers (.map []) text := by
  rw [map_iff]
  rintro (mem | ⟨e, mem, -⟩) <;> exact absurd mem List.not_mem_nil

theorem not_scalar {s : String} : ¬Refers (.scalar s) text := by
  intro refers
  cases refers

theorem not_flow {s : String} : ¬Refers (.flow s) text := by
  intro refers
  cases refers

/-- What stands under another key is no reference itself. -/
theorem other_iff (other : key ≠ "$ref") : Refers (.map ((key, node) :: block)) text ↔
    node.Refers text ∨ Refers (.map block) text := by
  refine cons_iff.trans (or_iff_right fun same => ?_)
  exact absurd (congrArg Prod.fst same).symm other

theorem text_iff {s : String} (other : key ≠ "$ref") :
    Refers (.map ((key, .scalar s) :: block)) text ↔ Refers (.map block) text :=
  (other_iff other).trans (or_iff_right not_scalar)

/-- The one entry of a mapping. -/
theorem inside_iff : Refers (.map [(key, .map block)]) text ↔ Refers (.map block) text := by
  rw [cons_iff]
  constructor
  · rintro (same | here | later)
    · cases congrArg Prod.snd same
    · exact here
    · exact absurd later not_nil
  · exact fun here => .inr (.inl here)

/-- Among mappings no entry is a reference itself. -/
theorem maps_iff (maps : ∀ e ∈ block, ∃ entries, e.2 = .map entries) :
    Refers (.map block) text ↔ ∃ e ∈ block, Refers e.2 text := by
  refine map_iff.trans (or_iff_right fun mem => ?_)
  obtain ⟨entries, same⟩ := maps _ mem
  cases same

end Node.Refers

/-! ### Parts of a mapping -/

/-- Keys that differ, none of them that of a reference. -/
def proper (ks : List String) : Bool := decide ks.Nodup && decide ("$ref" ∉ ks)

/-- A part with keys among `ks`, in their order; what stands below is distinct, and refers to
nothing but what is allowed. -/
structure Within (ks : List String) (allowed : String → Prop) (block : Block) : Prop where
  sublist : (keys block).Sublist ks
  distinct : ∀ e ∈ block, e.2.Distinct
  refs : ∀ e ∈ block, ∀ text, e.2.Refers text → allowed text

namespace Within

variable {ks ks' : List String} {allowed : String → Prop} {block block' : Block} {key : String}
  {node : Node}

theorem nil : Within ks allowed [] where
  sublist := List.nil_sublist ks
  distinct _ mem := absurd mem List.not_mem_nil
  refs _ mem := absurd mem List.not_mem_nil

theorem skip (h : Within ks allowed block) : Within (key :: ks) allowed block where
  sublist := h.sublist.cons key
  distinct := h.distinct
  refs := h.refs

theorem cons (h : Within ks allowed block) (distinct : node.Distinct)
    (refs : ∀ text, node.Refers text → allowed text) :
    Within (key :: ks) allowed ((key, node) :: block) where
  sublist := h.sublist.cons_cons key
  distinct := List.forall_mem_cons.mpr ⟨distinct, h.distinct⟩
  refs := List.forall_mem_cons.mpr ⟨refs, h.refs⟩

/-- One more text. -/
theorem text {text : String} (h : Within ks allowed block) :
    Within (key :: ks) allowed ((key, .scalar text) :: block) :=
  h.cons (.scalar text) fun _ refers => absurd refers Node.Refers.not_scalar

theorem append (h : Within ks allowed block) (h' : Within ks' allowed block') :
    Within (ks ++ ks') allowed (block ++ block') where
  sublist := by
    rw [keys, List.map_append]
    exact h.sublist.append h'.sublist
  distinct := List.forall_mem_append.mpr ⟨h.distinct, h'.distinct⟩
  refs := List.forall_mem_append.mpr ⟨h.refs, h'.refs⟩

theorem ite {p : Prop} [Decidable p] (h : Within ks allowed block) :
    Within ks allowed (if p then [] else block) := by
  split
  · exact nil
  · exact h

/-- A whole mapping. -/
theorem whole (h : Within ks allowed block) (proper : proper ks = true) :
    (Node.map block).Distinct ∧ ∀ text, (Node.map block).Refers text → allowed text := by
  obtain ⟨nodup, plain⟩ := Bool.and_eq_true_iff.mp proper
  have nodup := of_decide_eq_true nodup
  have plain := of_decide_eq_true plain
  refine ⟨.map (nodup.sublist h.sublist) h.distinct, fun text refers => ?_⟩
  rcases Node.Refers.map_iff.mp refers with mem | ⟨e, mem, later⟩
  · have listed : "$ref" ∈ keys block := List.mem_map.mpr ⟨_, mem, rfl⟩
    exact absurd (h.sublist.subset listed) plain
  · exact h.refs e mem text later

end Within

end Lazuli.General.Yaml
