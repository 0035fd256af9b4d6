import Lazuli.General.Lookup
import Lazuli.Runtime.Lifecycle

/-!
Encrypted columns (`runtime/go/lazuli/encrypt_wire.go`).

An effect resolves its sources, sanitizes the values, and encrypts those of the columns that the
resource lists, before it sends the INSERT or the UPDATE. The cipher takes slices of bytes and
pointers to them. Any other value stays what it was: the runtime leaves it to the generator to
bind no such value to an encrypted column.

`sealed_or_refused` says what the statement of an effect writes.
-/

namespace Lazuli.Runtime

/-! ### What is written -/

def Assign.assigned (values : List Value) : Assign → Option (Ident × Value)
  | .bound col k => (arg values k).map fun v => (col, v)
  | .now _ => none

/-- The columns that an UPDATE sets to bound values. -/
def Plan.assigned (p : Plan) : List (Ident × Value) :=
  match p.stmt with
  | .update _ sets _ _ => sets.filterMap (Assign.assigned p.values)
  | _ => []

/-- The columns of an INSERT before encryption, and the context with its tenant. -/
def resolvedInsert (env : Env) (input : Slot) (eff : CreatesEffect) (ctx : Ctx) :
    Except Failure (List (Ident × Value) × Ctx) := do
  let bound ← resolveBinds env.hooks (some ctx) input eff.binds.entries
  let ctx ← pinTenant env eff.resource ctx
  .ok (sanitizeColumnValues env.hooks eff.resource (bound ++ autoColumns env eff ctx), ctx)

/-- The SET side of an update before encryption. -/
def resolvedSets (h : Hooks) (ctx : Option Ctx) (input : Slot) (eff : UpdatesEffect) :
    Except Failure (List (Ident × Value)) := do
  let bound ← resolveBinds h ctx input eff.binds.entries
  .ok (sanitizeColumnValues h eff.resource bound)

/-- An INSERT with these columns, and what comes before and after it. -/
def sendInsert (env : Env) (c : Command) (faults : Faults) (eff : CreatesEffect) (ctx : Ctx)
    (cols : List (Ident × Value)) : Tx (Output × Ctx) := do
  let ctx ← Tx.lift (pinTenant env eff.resource ctx)
  let admitted ← Tx.lift (ownerAdmits env eff ctx cols)
  if admitted then do
    let row ← Tx.statement faults (Db.insert env (tableOf eff.resource.name) cols)
    let out ← Tx.lift (wrapError (c.scan row))
    pure (out, ctx)
  else do
    Tx.control faults
    Tx.lift (fail notOwner)

/-- An UPDATE, and the row that it gives back. -/
def sendUpdate (env : Env) (c : Command) (faults : Faults) (ctx : Ctx) (p : Plan) :
    Tx (Output × Ctx) := do
  let rows ← runPlan env faults p
  let out ← Tx.lift (scanFirst c noUpdateRow rows)
  pure (out, ctx)

def Command.withEffect (c : Command) (effect : Effect) : Command := { c with effect := some effect }

/-! ### Sealed values -/

/-- What is bound for a value. Bytes of a listed column are encrypted, with the encryptor of the
column's scope; all else is bound as it is. -/
structure Sealed (h : Hooks) (ctx : Option Ctx) (res : Resource)
    (resolved bound : Ident × Value) : Prop where
  col : bound.1 = resolved.1
  bytes : ∀ scope plaintext, res.encryptedColumns resolved.1.text = some scope →
    bindingBytes resolved.2 = some plaintext → plaintext ≠ [] →
      ∃ encrypt ciphertext, h.cipher ctx scope = .ok encrypt ∧
        encrypt plaintext = .ok ciphertext ∧ bound.2 = .bytes ciphertext
  other : res.encryptedColumns resolved.1.text = none ∨ bindingBytes resolved.2 = none ∨
    bindingBytes resolved.2 = some [] → bound.2 = resolved.2

section Sealed

variable {h : Hooks} {ctx : Option Ctx} {res : Resource}

theorem sealed_of_encrypt {col : Ident} {v v' : Value}
    (ok : encryptColumnValue h ctx res col v = .ok v') : Sealed h ctx res (col, v) (col, v') := by
  unfold encryptColumnValue at ok
  cases hscope : res.encryptedColumns col.text with
  | none =>
      rw [hscope] at ok
      cases ok
      exact ⟨rfl, fun _ _ listed => (nomatch hscope.symm.trans listed), fun _ => rfl⟩
  | some scope =>
      cases hbytes : bindingBytes v with
      | none =>
          rw [hscope, hbytes] at ok
          cases ok
          exact ⟨rfl, fun _ _ _ bytes => (nomatch hbytes.symm.trans bytes), fun _ => rfl⟩
      | some plaintext =>
          rw [hscope, hbytes] at ok
          dsimp only at ok
          by_cases empty : plaintext = []
          · rw [if_pos empty] at ok
            cases ok
            refine ⟨rfl, fun _ p _ bytes nonempty => ?_, fun _ => rfl⟩
            cases hbytes.symm.trans bytes
            exact absurd empty nonempty
          · rw [if_neg empty] at ok
            obtain ⟨encrypt, hcipher, ok⟩ := bind_eq_ok.mp ok
            obtain ⟨ciphertext, hencrypt, ok⟩ := bind_eq_ok.mp ok
            cases ok
            refine ⟨rfl, fun s p listed bytes _ => ?_, fun plain => ?_⟩
            · cases hscope.symm.trans listed
              cases hbytes.symm.trans bytes
              exact ⟨encrypt, ciphertext, hcipher, hencrypt, rfl⟩
            · rcases plain with unlisted | foreign | none
              · cases hscope.symm.trans unlisted
              · cases hbytes.symm.trans foreign
              · cases hbytes.symm.trans none
                exact absurd rfl empty

theorem sealed_of_encryptAll {resolved bound : List (Ident × Value)}
    (ok : encryptColumnValues h ctx res resolved = .ok bound) :
    resolved.Forall₂ (Sealed h ctx res) bound := by
  induction resolved generalizing bound with
  | nil =>
      cases ok
      exact .nil
  | cons r resolved ih =>
      obtain ⟨v, here, ok⟩ := bind_eq_ok.mp ok
      obtain ⟨rest, later, ok⟩ := bind_eq_ok.mp ok
      cases ok
      exact .cons (sealed_of_encrypt here) (ih later)

end Sealed

/-! ### What an UPDATE sets -/

/-- The placeholders of the SET side are those of its values, behind `before`. -/
theorem assigned_zipIdx (bound : List (Ident × Value)) (before after : List Value) :
    ((bound.zipIdx (before.length + 1)).map fun b => Assign.bound b.1.1 b.2).filterMap
      (Assign.assigned (before ++ bound.map Prod.snd ++ after)) = bound := by
  induction bound generalizing before with
  | nil => rfl
  | cons b bound ih =>
      have here : Assign.assigned (before ++ (b :: bound).map Prod.snd ++ after)
          (.bound b.1 (before.length + 1)) = some b := by
        show ((before ++ (b :: bound).map Prod.snd ++ after)[before.length]?).map _ = some b
        simp
      have later := ih (before ++ [b.2])
      rw [List.length_append, List.length_singleton, List.append_assoc before] at later
      exact (List.filterMap_cons_some here).trans (congrArg (b :: ·) later)

theorem assigned_of_extends {h : Hooks} {ctx : Option Ctx} {input : Slot} {eff : UpdatesEffect}
    {bound : List (Ident × Value)} {found : Collected}
    (ok : scopedWhere h ctx input eff.resource eff.wheres (bound.map Prod.snd) = .ok found) :
    (assigns bound ++ touchUpdatedAt eff).filterMap (Assign.assigned found.2) = bound := by
  obtain ⟨scope, -, ok⟩ := bind_eq_ok.mp ok
  obtain ⟨conds, values, rfl⟩ := addWhere_extends h ctx input ok
  have touch : (touchUpdatedAt eff).filterMap
      (Assign.assigned (bound.map Prod.snd ++ scope.2 ++ values)) = [] := by
    unfold touchUpdatedAt
    split <;> rfl
  have sets := assigned_zipIdx bound [] (scope.2 ++ values)
  rw [List.nil_append, List.length_nil, ← List.append_assoc] at sets
  rw [List.filterMap_append, touch, List.append_nil]
  exact sets

theorem update_assigned {h : Hooks} {ctx : Option Ctx} {input : Slot} {eff : UpdatesEffect}
    {p : Plan} (ok : applyUpdates h ctx input eff = .ok p) :
    ∃ bound, boundColumns h ctx input eff = .ok bound ∧ p.assigned = bound := by
  obtain ⟨bound, found, hbound, ⟨empty, -, rfl⟩ | ⟨hfound, rfl⟩⟩ := applyUpdates_cases ok
  · refine ⟨bound, hbound, ?_⟩
    have none := (List.append_eq_nil_iff.mp empty).1
    rw [assigns, List.map_eq_nil_iff, List.zipIdx_eq_nil_iff] at none
    exact none.symm
  · exact ⟨bound, hbound, assigned_of_extends hfound⟩

/-! ### Effects -/

section Effects

variable {env : Env} {input : Slot} {ctx : Ctx}

theorem insert_sealed {eff : CreatesEffect} {cols : List (Ident × Value)}
    (ok : insertColumns env input eff ctx = .ok cols) :
    ∃ resolved pinned, resolvedInsert env input eff ctx = .ok (resolved, pinned) ∧
      resolved.Forall₂ (Sealed env.hooks (some pinned) eff.resource) cols := by
  obtain ⟨bound, hbound, ok⟩ := bind_eq_ok.mp ok
  obtain ⟨pinned, hpinned, ok⟩ := bind_eq_ok.mp ok
  refine ⟨sanitizeColumnValues env.hooks eff.resource (bound ++ autoColumns env eff pinned), pinned,
    ?_, sealed_of_encryptAll (mapError_eq_ok.mp ok)⟩
  exact bind_eq_ok.mpr ⟨bound, hbound, bind_eq_ok.mpr ⟨pinned, hpinned, rfl⟩⟩

theorem update_sealed {eff : UpdatesEffect} {p : Plan}
    (ok : applyUpdates env.hooks (some ctx) input eff = .ok p) :
    ∃ resolved, resolvedSets env.hooks (some ctx) input eff = .ok resolved ∧
      resolved.Forall₂ (Sealed env.hooks (some ctx) eff.resource) p.assigned := by
  obtain ⟨cols, hcols, assigned⟩ := update_assigned ok
  obtain ⟨bound, hbound, encrypted⟩ := bind_eq_ok.mp hcols
  refine ⟨_, bind_eq_ok.mpr ⟨bound, hbound, rfl⟩, ?_⟩
  rw [assigned]
  exact sealed_of_encryptAll (mapError_eq_ok.mp encrypted)

variable (env input ctx) in
/-- An effect fails before its statement, or sends one that writes sealed values. -/
theorem sealed_or_refused (c : Command) :
    (∀ eff : CreatesEffect,
      (∃ e, ∀ faults s,
        applyEffect env (c.withEffect (.creates eff)) input faults ctx s = .error ⟨e, false⟩) ∨
      ∃ resolved pinned cols, resolvedInsert env input eff ctx = .ok (resolved, pinned) ∧
        resolved.Forall₂ (Sealed env.hooks (some pinned) eff.resource) cols ∧
        ∀ faults, applyEffect env (c.withEffect (.creates eff)) input faults ctx =
          sendInsert env (c.withEffect (.creates eff)) faults eff ctx cols) ∧
    ∀ eff : UpdatesEffect,
      (∃ e, ∀ faults s,
        applyEffect env (c.withEffect (.updates eff)) input faults ctx s = .error ⟨e, false⟩) ∨
      ∃ resolved p, resolvedSets env.hooks (some ctx) input eff = .ok resolved ∧
        resolved.Forall₂ (Sealed env.hooks (some ctx) eff.resource) p.assigned ∧
        ∀ faults, applyEffect env (c.withEffect (.updates eff)) input faults ctx =
          sendUpdate env (c.withEffect (.updates eff)) faults ctx p := by
  refine ⟨fun eff => ?_, fun eff => ?_⟩
  · cases hcols : insertColumns env input eff ctx with
    | error e =>
        refine .inl ⟨e, fun faults s => ?_⟩
        show applyCreates _ _ _ _ _ _ _ = _
        unfold applyCreates
        rw [hcols]
        rfl
    | ok cols =>
        obtain ⟨resolved, pinned, hresolved, sealed⟩ := insert_sealed hcols
        refine .inr ⟨resolved, pinned, cols, hresolved, sealed, fun faults => ?_⟩
        show applyCreates _ _ _ _ _ _ = _
        unfold applyCreates
        rw [hcols]
        rfl
  · cases hp : applyUpdates env.hooks (some ctx) input eff with
    | error e =>
        refine .inl ⟨e, fun faults s => ?_⟩
        show (do let p ← Tx.lift (applyUpdates _ _ _ _); _) _ = _
        rw [hp]
        rfl
    | ok p =>
        obtain ⟨resolved, hresolved, sealed⟩ := update_sealed hp
        refine .inr ⟨resolved, p, hresolved, sealed, fun faults => ?_⟩
        show (do let p ← Tx.lift (applyUpdates _ _ _ _); _) = _
        rw [hp]
        rfl

end Effects

/-! ### A credential -/

/-- NULL, or an empty text or slice. -/
def Value.isBlank : Value → Bool
  | .nil | .string "" | .bytes [] => true
  | _ => false

/-- Every value of a listed column is a ciphertext. -/
def AllEncrypted (h : Hooks) (ctx : Option Ctx) (res : Resource) (cols : List (Ident × Value)) :
    Prop :=
  ∀ b ∈ cols, ∀ scope, res.encryptedColumns b.1.text = some scope → b.2.isBlank = false →
    ∃ encrypt plaintext ciphertext, h.cipher ctx scope = .ok encrypt ∧
      encrypt plaintext = .ok ciphertext ∧ b.2 = .bytes ciphertext

def colAccessToken : Ident := ⟨"access_token", by decide⟩

/-- `creates Credential`, with a text of the input in an encrypted column. -/
def createCredential : CreatesEffect where
  resource :=
    { name := ⟨"Credential", by decide⟩
      encryptedColumns := fun col => if col = "access_token" then some "@key.tenant" else none }
  binds := .single colAccessToken (.input "access_token")
  ownerCheck := none

def credentialInput : Slot :=
  .direct (.struct (.cons "AccessToken" "access_token" (.direct (.string "sk_live_1")) .nil))

/-- The text is inserted as it came. -/
theorem token_in_plaintext :
    ∃ cols, insertColumns plainEnv credentialInput createCredential member = .ok cols ∧
      ¬AllEncrypted plainEnv.hooks (some member) createCredential.resource cols := by
  refine ⟨[(colAccessToken, .string "sk_live_1")], rfl, fun encrypted => ?_⟩
  obtain ⟨_, _, _, -, -, same⟩ := encrypted _ List.mem_cons_self "@key.tenant" rfl rfl
  cases same

end Lazuli.Runtime
