import Lazuli.Referential.DeleteCall

/-!
The order of what a call does.

Its queries come one after the other and all before its statement, and it sends no statement
after a commit that succeeded. Both are said of the function of the wrapper first, and then of
the program in which its operations are carried out.
-/

namespace Lazuli.Referential

open Lazuli.Codegen Lazuli.General Lazuli.Ir Lazuli.Runtime

/-! ### What a call has still to do -/

/-- The queries that are still to be made; `none` when the removal has been committed. -/
abbrev Todo := Option (List (RestrictOnDelete × Slot))

/-- The queries come in their order, and before the effect. -/
def wrapperDiscipline : Program.Discipline (WrapperOp.Res Failure Output) Todo where
  Allows todo op :=
    match op with
    | .check (.probe guard id) => ∃ rest, todo = some ((guard, id) :: rest)
    | .effect _ => todo = some []
    | _ => True
  learn todo op r :=
    match op, r with
    | .check (.probe _ _), .ok _ => todo.map List.tail
    | .effect _, .ok _ => none
    | _, _ => todo

/-- The operations of the call `i`. -/
def callDiscipline (i : Nat) (tenantID : Int) : Program.Discipline Op.Res Todo where
  Allows todo op :=
    match op with
    | .probe guard tenant id => tenant = tenantID ∧ ∃ rest, todo = some ((guard, id) :: rest)
    | .send call _ => call = i ∧ todo = some []
    | .started call | .finished call | .commit call | .rollback call => call = i
    | _ => True
  learn todo op r :=
    match op, r with
    | .probe _ _ _, .ok _ => todo.map List.tail
    | .commit _, .ok _ => none
    | _, _ => todo

section Wrapper

theorem validateSlots_obeys (input : Slot) (slots : List SemanticValidatorSlot) (todo : Todo) :
    (validateSlots (E := Failure) (O := Output) input slots).Obeys wrapperDiscipline
      (fun todo' _ => todo' = todo) todo := by
  induction slots with
  | nil => rfl
  | cons slot slots ih =>
      unfold validateSlots
      split
      · exact ih
      · refine ⟨trivial, ?_⟩
        intro r
        cases r with
        | ok u => exact ih
        | error err => exact Program.Obeys.bind ih fun _ _ same => same

theorem andThen_obeys {α β : Type} {p : Handler Failure Output α}
    {next : α → Handler Failure Output β} {todo todo' : Todo}
    (h : p.Obeys wrapperDiscipline (fun k r => r.toBool = true → k = todo') todo)
    (after : ∀ a, (next a).Obeys wrapperDiscipline (fun _ _ => True) todo') :
    (p.andThen next).Obeys wrapperDiscipline (fun _ _ => True) todo := by
  apply h.bind
  intro k r same
  cases r with
  | error err => trivial
  | ok a =>
      rw [same rfl]
      exact after a

theorem semanticValidatePrelude_obeys (slots : List SemanticValidatorSlot) (input : Slot)
    (todo : Todo) :
    (semanticValidatePrelude (E := Failure) (O := Output) slots input).Obeys wrapperDiscipline
      (fun k r => r.toBool = true → k = todo) todo := by
  apply (validateSlots_obeys input slots todo).bind
  intro k bad same
  split
  · exact fun _ => same
  · exact nofun

theorem requireAll_obeys {checks : List Check} (quiet : ∀ c ∈ checks, ∀ guard id, c ≠ .probe guard id)
    (todo : Todo) :
    (requireAll (E := Failure) (O := Output) checks).Obeys wrapperDiscipline
      (fun k r => r.toBool = true → k = todo) todo := by
  induction checks with
  | nil => exact fun _ => rfl
  | cons c checks ih =>
      have rest := ih fun d hd => quiet d (List.mem_cons_of_mem _ hd)
      have here := quiet c List.mem_cons_self
      cases c with
      | probe guard id => exact absurd rfl (here guard id)
      | validate call value | feature name | quota limit =>
          refine ⟨trivial, ?_⟩
          intro r
          cases r with
          | error err => exact nofun
          | ok u => exact rest

theorem requireProbes_obeys (probes : List (RestrictOnDelete × Slot)) :
    (requireAll (E := Failure) (O := Output) (probes.map fun p => .probe p.1 p.2)).Obeys
      wrapperDiscipline (fun k r => r.toBool = true → k = some []) (some probes) := by
  induction probes with
  | nil => exact fun _ => rfl
  | cons p probes ih =>
      refine ⟨⟨probes, rfl⟩, ?_⟩
      intro r
      cases r with
      | error err => exact nofun
      | ok u => exact ih

theorem incrQuotas_obeys {α : Type} (a : α) (quotas : List String) (todo : Todo) :
    (incrQuotas (E := Failure) (O := Output) a quotas).Obeys wrapperDiscipline (fun _ _ => True)
      todo := by
  induction quotas with
  | nil => trivial
  | cons q quotas ih => exact ⟨trivial, fun _ => ih⟩

theorem handleAndCount_obeys (input : Slot) (quotas : List String) :
    (handleAndCount (E := Failure) (O := Output) input quotas).Obeys wrapperDiscipline
      (fun _ _ => True) (some []) := by
  unfold handleAndCount
  apply Program.Obeys.bind (R := fun _ _ => True)
  · refine ⟨trivial, ?_⟩
    intro r
    cases r with
    | error err => trivial
    | ok u => exact ⟨rfl, fun _ => trivial⟩
  · intro todo r _
    cases r with
    | error err => trivial
    | ok out => exact incrQuotas_obeys _ quotas todo

theorem wrapper_obeys (c : Call) :
    (commandHandlerWrapper c.feature c.command c.input).Obeys wrapperDiscipline (fun _ _ => True)
      (some c.probes) := by
  unfold commandHandlerWrapper
  apply andThen_obeys (semanticValidatePrelude_obeys _ _ _)
  rintro ⟨⟩
  apply andThen_obeys (requireAll_obeys ?_ _)
  · rintro ⟨⟩
    apply andThen_obeys
    · have checks : (wiredGuards c.feature c.command).map
            (fun g => Check.probe g.1 (structField c.input g.2)) =
          c.probes.map fun p => Check.probe p.1 p.2 := by
        simp [Call.probes]
      rw [checks]
      exact requireProbes_obeys c.probes
    · rintro ⟨⟩
      exact handleAndCount_obeys _ _
  · intro check hcheck guard id
    rcases List.mem_append.mp hcheck with hcheck | hcheck
    · obtain ⟨name, -, rfl⟩ := List.mem_map.mp hcheck
      exact nofun
    · obtain ⟨limit, -, rfl⟩ := List.mem_map.mp hcheck
      exact nofun

end Wrapper

section Transaction

variable (hooks : Hooks) (c : Call) (i : Nat) (tenantID : Int)

/-- Committed if and only if successful. -/
def Ends {α ε : Type} (todo : Todo) (r : Except ε α) : Prop :=
  todo = if r.toBool then none else some []

theorem abort_obeys (e : TxError) :
    (abort i e).Obeys (callDiscipline i tenantID) Ends (some []) := ⟨rfl, fun _ => rfl⟩

theorem runTxAttempt_obeys :
    (runTxAttempt hooks c i).Obeys (callDiscipline i tenantID) Ends (some []) := by
  refine ⟨rfl, ?_⟩
  rintro (e | ⟨⟨⟩⟩)
  · exact abort_obeys i tenantID e
  · beta_reduce
    dsimp only
    split
    · exact abort_obeys i tenantID _
    next plan _ =>
      refine ⟨⟨rfl, rfl⟩, ?_⟩
      rintro (e | rows)
      · exact abort_obeys i tenantID e
      · beta_reduce
        dsimp only
        split
        · exact abort_obeys i tenantID _
        next out _ =>
          refine ⟨rfl, ?_⟩
          rintro (e | ⟨⟨⟩⟩)
          · exact abort_obeys i tenantID e
          · refine ⟨rfl, ?_⟩
            rintro (e | ⟨⟨⟩⟩) <;> exact rfl

theorem withTx_obeys (left : Nat) :
    (withTx hooks c i left).Obeys (callDiscipline i tenantID) Ends (some []) := by
  induction left with
  | zero => rfl
  | succ left ih =>
      apply (runTxAttempt_obeys hooks c i tenantID).bind
      intro todo r ends
      cases r with
      | ok out => exact ends
      | error e =>
          obtain rfl : todo = some [] := ends
          dsimp only
          split
          · rfl
          · refine ⟨trivial, ?_⟩
            rintro (e | ⟨⟨⟩⟩)
            · rfl
            · exact ih

theorem carryOut_obeys (todo : Todo) (op : WrapperOp) (allows : wrapperDiscipline.Allows todo op) :
    (carryOut hooks c i op).Obeys (callDiscipline i (TenantOrgID (some c.ctx)))
      (fun todo' r => todo' = wrapperDiscipline.learn todo op r) todo := by
  cases op with
  | check check =>
      cases check with
      | probe guard id =>
          refine ⟨⟨rfl, allows⟩, ?_⟩
          rintro (e | u) <;> rfl
      | validate call value | feature name | quota limit => exact ⟨trivial, fun _ => rfl⟩
  | checks input | incrQuota limit => exact ⟨trivial, fun _ => rfl⟩
  | effect input =>
      obtain rfl : todo = some [] := allows
      apply (withTx_obeys hooks c i _ maxAttempts).mono
      rintro todo (e | out) ends <;> exact ends

theorem program_obeys :
    (c.program hooks i).Obeys (callDiscipline i (TenantOrgID (some c.ctx))) (fun _ _ => True)
      (some c.probes) :=
  Program.Obeys.expand (carryOut_obeys hooks c i) (wrapper_obeys c)

end Transaction

section Knowledge

variable {α : Type} {p : Program Op.Res α} {i : Nat} {tenantID : Int} {todo : Todo}
  {Q : Todo → α → Prop}

/-- A query that is still ahead is still to be made. -/
theorem todo_of_mayCall_probe {guard : RestrictOnDelete} {id : Slot}
    (h : p.Obeys (callDiscipline i tenantID) Q todo) (may : p.MayCall (.probe guard tenantID id)) :
    ∃ ahead, todo = some ahead ∧ (guard, id) ∈ ahead := by
  apply h.allows_of_mayCall
    (P := fun todo => ∃ ahead, todo = some ahead ∧ (guard, id) ∈ ahead) ?_ ?_ may
  · rintro todo ⟨-, rest, rfl⟩
    exact ⟨_, rfl, List.mem_cons_self⟩
  · intro todo op r found
    cases op with
    | probe g t x =>
        cases r with
        | error e => exact found
        | ok u =>
            obtain ⟨ahead, eq, here⟩ := found
            obtain ⟨before, rfl, rfl⟩ := Option.map_eq_some_iff.mp eq
            exact ⟨before, rfl, List.mem_of_mem_tail here⟩
    | commit call =>
        cases r with
        | error e => exact found
        | ok u =>
            obtain ⟨ahead, none', -⟩ := found
            cases none'
    | ask | sleep | started | send | finished | rollback => exact found

end Knowledge

end Lazuli.Referential
