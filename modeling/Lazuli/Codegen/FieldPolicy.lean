import Mathlib.Data.List.Nodup
import Lazuli.Codegen.PolicyCorrect
import Lazuli.Codegen.Schema
import Lazuli.General.Lookup
import Lazuli.General.Text

/-!
Read policies of fields (`crates/lazuli_codegen_go/src/emitter/resource/field_policy.rs`).

The `fields` blocks of a feature list atoms that govern the reads of a field. The emitter keeps
the entries whose atoms the runtime can all evaluate and writes them into one map from columns to
policies, on the value of the resource. Go does not compile a map literal that has a key twice.

An emitted policy grants exactly when the caller satisfies one of the atoms (`granted_of_lists`).
-/

namespace Lazuli.Ir

/-- `none` inherits the policy of the feature. -/
structure FieldPolicy where
  field : String
  read : Option (List String)

structure FieldPolicies where
  resource : QualifiedName
  fields : List FieldPolicy

end Lazuli.Ir

namespace Lazuli.Codegen

open Lazuli.General (Infix.Phrase mapM_eq_some_iff find?_of_unique)
open Lazuli.Runtime
open Lazuli.Ir (FieldPolicy FieldPolicies leafMatches)

/-! ### Gates -/

structure FieldReadGate where
  column : String
  atoms : List (String × String)
  display : String
  deriving DecidableEq

/-- Is this one of the atoms that the runtime evaluates? -/
def closedAtom (ns nm : String) : Bool :=
  match ns with
  | "actor" => nm ∈ ["system", "user", "anonymous"]
  | "role" => true
  | "scope" => nm ∈ ["public", "authenticated", "same_org"]
  | _ => false

/-- `@<ns>.<name>`, with nothing in it that makes it more than one atom. -/
def runtimeEvaluableAtom (atom : String) : Option (String × String) := do
  let stripped ← (General.Text.trim atom.toList).dropPrefix? ['@']
  if '|' ∈ stripped ∨ '(' ∈ stripped ∨ ' ' ∈ stripped then none
  else
    match stripped.dropWhile (· ≠ '.') with
    | [] => none
    | _ :: nm =>
        let ns := String.ofList (stripped.takeWhile (· ≠ '.'))
        if nm = [] ∨ '.' ∈ nm then none
        else if closedAtom ns (String.ofList nm) then some (ns, String.ofList nm)
        else none

/-- An entry that lists nothing, or anything the runtime does not know, is left out. -/
def readGate (fp : FieldPolicy) : Option FieldReadGate := do
  let read ← fp.read
  if read = [] then none
  else
    let atoms ← read.mapM runtimeEvaluableAtom
    some { column := fp.field, atoms, display := " | ".intercalate read }

/-- The blocks that name the resource, whatever feature they write before it. -/
def collectFieldReadGates (blocks : List FieldPolicies) (resource : String) : List FieldReadGate :=
  (blocks.filter fun block => block.resource.name = resource).flatMap fun block =>
    block.fields.filterMap readGate

def renderAtoms (atoms : List (String × String)) : List Runtime.PolicyAtom :=
  orGroup (atoms.map fun (ns, name) => { ns, name })

def FieldReadGate.policy (gate : FieldReadGate) : Policy :=
  { name := gate.display, atoms := renderAtoms gate.atoms }

/-- The map literal; `none` does not compile. -/
def fieldReadPolicies (blocks : List FieldPolicies) (resource : String) :
    Option (String → Option Policy) :=
  let gates := collectFieldReadGates blocks resource
  if (gates.map FieldReadGate.column).Nodup then
    some fun col => (gates.find? fun gate => gate.column = col).map FieldReadGate.policy
  else none

/-! ### What a block says -/

/-- An entry for the column whose atoms can all be evaluated. -/
inductive Lists (blocks : List FieldPolicies) (resource : String) :
    String → List String → Prop where
  | entry {block : FieldPolicies} {fp : FieldPolicy} {atoms : List String} :
      block ∈ blocks → block.resource.name = resource → fp ∈ block.fields →
      fp.read = some atoms → (∀ atom ∈ atoms, (runtimeEvaluableAtom atom).isSome) →
      Lists blocks resource fp.field atoms

/-- The caller satisfies one of the atoms. -/
def Satisfies (hooks : Rbac) (ctx : Ctx) (atoms : List String) : Prop :=
  ∃ atom ∈ atoms, ∃ pair, runtimeEvaluableAtom atom = some pair ∧
    leafMatches hooks ctx pair.1 pair.2 = true

section Atoms

variable {hooks : Rbac} {ctx : Ctx} {atom : String} {pair : String × String}

theorem closedAtom_of_evaluable (h : runtimeEvaluableAtom atom = some pair) :
    closedAtom pair.1 pair.2 = true := by
  unfold runtimeEvaluableAtom at h
  obtain ⟨stripped, -, h⟩ := Option.bind_eq_some_iff.mp h
  split at h
  · cases h
  · split at h
    · cases h
    · dsimp only at h
      split at h
      · cases h
      · split at h
        next closed =>
          cases h
          exact closed
        · cases h

theorem ns_ne_of_closed {ns nm : String} (h : closedAtom ns nm = true) : ns ≠ "predicate" := by
  rintro rfl
  cases h

/-- The caller satisfies one of the atoms that are emitted. -/
theorem satisfies_iff (hooks : Rbac) (ctx : Ctx) (read : List String) :
    Satisfies hooks ctx read ↔
      ∃ pair ∈ read.filterMap runtimeEvaluableAtom,
        leafMatches hooks ctx pair.1 pair.2 = true := by
  constructor
  · rintro ⟨atom, hatom, pair, hpair, hleaf⟩
    exact ⟨pair, List.mem_filterMap.mpr ⟨atom, hatom, hpair⟩, hleaf⟩
  · rintro ⟨pair, hpair, hleaf⟩
    obtain ⟨atom, hatom, hpair⟩ := List.mem_filterMap.mp hpair
    exact ⟨atom, hatom, pair, hpair, hleaf⟩

end Atoms

/-! ### What a gate does -/

section Gates

variable {hooks : Rbac} {ctx : Ctx} {blocks : List FieldPolicies} {resource col : String}
  {gate : FieldReadGate} {fp : FieldPolicy}

theorem readGate_eq_some : readGate fp = some gate ↔ ∃ read, fp.read = some read ∧ read ≠ [] ∧
    (∀ atom ∈ read, (runtimeEvaluableAtom atom).isSome) ∧
    gate = ⟨fp.field, read.filterMap runtimeEvaluableAtom, " | ".intercalate read⟩ := by
  simp only [readGate, Option.bind_eq_bind, Option.bind_eq_some_iff]
  constructor
  · rintro ⟨read, hread, h⟩
    split at h
    · cases h
    next ne =>
      obtain ⟨atoms, hatoms, h⟩ := Option.bind_eq_some_iff.mp h
      obtain ⟨evaluable, rfl⟩ := mapM_eq_some_iff.mp hatoms
      exact ⟨read, hread, ne, evaluable, (Option.some.inj h).symm⟩
  · rintro ⟨read, hread, ne, evaluable, rfl⟩
    refine ⟨read, hread, ?_⟩
    rw [if_neg ne, mapM_eq_some_iff.mpr ⟨evaluable, rfl⟩]
    rfl

theorem mem_collectFieldReadGates : gate ∈ collectFieldReadGates blocks resource ↔
    ∃ read, Lists blocks resource gate.column read ∧ read ≠ [] ∧
      gate = ⟨gate.column, read.filterMap runtimeEvaluableAtom, " | ".intercalate read⟩ := by
  constructor
  · intro h
    obtain ⟨block, hblock, hgate⟩ := List.mem_flatMap.mp h
    obtain ⟨mem, hname⟩ := List.mem_filter.mp hblock
    obtain ⟨fp, hfp, hgate⟩ := List.mem_filterMap.mp hgate
    obtain ⟨read, hread, ne, evaluable, rfl⟩ := readGate_eq_some.mp hgate
    exact ⟨read, .entry mem (of_decide_eq_true hname) hfp hread evaluable, ne, rfl⟩
  · rintro ⟨read, listed, ne, hgate⟩
    obtain ⟨column, atoms, display⟩ := gate
    cases listed with
    | @entry block fp read hblock hname hfp hread evaluable =>
        apply List.mem_flatMap.mpr
        refine ⟨block, List.mem_filter.mpr ⟨hblock, decide_eq_true hname⟩, ?_⟩
        apply List.mem_filterMap.mpr
        exact ⟨fp, hfp, readGate_eq_some.mpr ⟨read, hread, ne, evaluable, hgate⟩⟩

/-- The policy of a gate is a disjunction of its atoms. -/
theorem granted_gate (ne : gate.atoms ≠ [])
    (closed : ∀ pair ∈ gate.atoms, closedAtom pair.1 pair.2 = true) :
    Granted hooks ctx none gate.policy ↔
      ∃ pair ∈ gate.atoms, leafMatches hooks ctx pair.1 pair.2 = true := by
  have leaves : ∀ a ∈ gate.atoms.map fun (ns, name) => ({ ns, name } : Runtime.PolicyAtom),
      a.ns ≠ "predicate" := by
    intro a ha
    obtain ⟨pair, hpair, rfl⟩ := List.mem_map.mp ha
    exact ns_ne_of_closed (closed pair hpair)
  have phrase : Infix.Phrase (lexicon hooks ctx none) .unary gate.policy.atoms _ :=
    phrase_orGroup (mt List.map_eq_nil_iff.mp ne) leaves
  rw [granted_iff_of_phrase phrase.disjunct, List.any_map, List.any_eq_true]
  apply exists_congr
  intro pair
  apply and_congr_right
  intro _
  simp [atomMatchesInput, PolicyAtom.guardHolds, leafMatches]

theorem granted_of_read {read : List String} (listed : Lists blocks resource col read)
    (ne : read ≠ [])
    (hgate : gate = ⟨col, read.filterMap runtimeEvaluableAtom, " | ".intercalate read⟩) :
    Granted hooks ctx none gate.policy ↔ Satisfies hooks ctx read := by
  have evaluable : ∀ atom ∈ read, (runtimeEvaluableAtom atom).isSome := by
    cases listed with
    | entry _ _ _ _ evaluable => exact evaluable
  rw [hgate, satisfies_iff]
  apply granted_gate
  · intro nil
    obtain ⟨atom, rest, rfl⟩ := List.exists_cons_of_ne_nil ne
    obtain ⟨pair, hpair⟩ := Option.isSome_iff_exists.mp (evaluable atom List.mem_cons_self)
    rw [List.filterMap_eq_nil_iff.mp nil atom List.mem_cons_self] at hpair
    cases hpair
  · intro pair hpair
    obtain ⟨atom, -, hatom⟩ := List.mem_filterMap.mp hpair
    exact closedAtom_of_evaluable hatom

/-! ### The emitted map -/

variable {policies : String → Option Policy}

theorem fieldReadPolicies_eq_some (h : fieldReadPolicies blocks resource = some policies) :
    ((collectFieldReadGates blocks resource).map FieldReadGate.column).Nodup ∧
      ∀ col, policies col = ((collectFieldReadGates blocks resource).find? fun gate =>
        gate.column = col).map FieldReadGate.policy := by
  unfold fieldReadPolicies at h
  dsimp only at h
  split at h
  next nodup =>
    cases h
    exact ⟨nodup, fun _ => rfl⟩
  · cases h

variable (hooks ctx) in
/-- The policy of a column comes from an entry that lists atoms, and grants to whom satisfies
one of them. -/
theorem lists_of_policy (h : fieldReadPolicies blocks resource = some policies) {pol : Policy}
    (hpol : policies col = some pol) :
    ∃ read, Lists blocks resource col read ∧ read ≠ [] ∧
      (Granted hooks ctx none pol ↔ Satisfies hooks ctx read) := by
  rw [(fieldReadPolicies_eq_some h).2] at hpol
  obtain ⟨gate, hgate, rfl⟩ := Option.map_eq_some_iff.mp hpol
  obtain rfl : gate.column = col := by simpa using List.find?_some hgate
  obtain ⟨read, listed, ne, heq⟩ :=
    mem_collectFieldReadGates.mp (List.mem_of_find?_eq_some hgate)
  exact ⟨read, listed, ne, granted_of_read listed ne heq⟩

variable (hooks ctx) in
/-- Every entry that lists atoms is the policy of its column. -/
theorem granted_of_lists (h : fieldReadPolicies blocks resource = some policies)
    {read : List String} (listed : Lists blocks resource col read) (ne : read ≠ []) :
    ∃ pol, policies col = some pol ∧
      (Granted hooks ctx none pol ↔ Satisfies hooks ctx read) := by
  obtain ⟨nodup, hpolicies⟩ := fieldReadPolicies_eq_some h
  let gate : FieldReadGate :=
    ⟨col, read.filterMap runtimeEvaluableAtom, " | ".intercalate read⟩
  have mem : gate ∈ collectFieldReadGates blocks resource :=
    mem_collectFieldReadGates.mpr ⟨read, listed, ne, rfl⟩
  have found : (collectFieldReadGates blocks resource).find? (fun gate => gate.column = col) =
      some gate := by
    apply find?_of_unique mem
    · exact decide_eq_true rfl
    · intro other hother same
      exact List.inj_on_of_nodup_map nodup hother mem (of_decide_eq_true same)
  refine ⟨gate.policy, ?_, granted_of_read listed ne rfl⟩
  rw [hpolicies, found]
  rfl

end Gates

end Lazuli.Codegen
