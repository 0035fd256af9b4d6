import Mathlib.Data.List.Nodup
import Lazuli.Codegen.Wrapper
import Lazuli.General.Lookup

/-!
The preconditions of a command on the way to its effect.

`commandHandlerWrapper` meets them (`wrapper_keeps`), as far as its guards are wired. But what
is registered, and served by both routes of a command, is the command itself: a request that
gets as far as its `Handle` keeps them only when there are none (`served_keeps_iff`).
-/

namespace Lazuli.Codegen

open Ir Lazuli.General Lazuli.Runtime

/-! ### What is declared -/

inductive Precondition where
  | semantic (call text : String)
  | behind (feature : String)
  | quota (limit : String)
  | guard (clause : RestrictOnDelete)

section Declared

variable (feature : Feature) (command : Ir.Command)

/-- A semantic check applies to a text that is there. -/
def semanticPreconditions (input : Slot) : List Precondition :=
  (semanticValidatorSlots command).filterMap fun slot =>
    (slot.value input).map (.semantic slot.call)

def gatePreconditions : List Precondition :=
  (partitionGates command.gates).1.map .behind ++ (partitionGates command.gates).2.map .quota

def preconditions (input : Slot) : List Precondition :=
  semanticPreconditions command input ++ gatePreconditions command ++
    (declaredGuards feature command).map .guard

end Declared

section Kept

variable {E O : Type}

abbrev Trace (E O : Type) := List (Program.Answered (WrapperOp.Res E O))

/-- The check was made and did not fail. -/
def Passed (trace : Trace E O) (c : Check) : Prop :=
  ⟨.check c, (.ok () : Except E Unit)⟩ ∈ trace

def Precondition.Met (trace : Trace E O) : Precondition → Prop
  | .semantic call text => Passed trace (.validate call text)
  | .behind feature => Passed trace (.feature feature)
  | .quota limit => Passed trace (.quota limit)
  | .guard clause => ∃ id, Passed trace (.probe clause id)

def increments (limit : String) (trace : Trace E O) : Nat :=
  trace.countP fun e =>
    match e.op with
    | .incrQuota l => l = limit
    | _ => false

/-- In every run the effect comes after all that is declared for its input, and a success
counts each quota once, a failure none. -/
structure Keeps (feature : Feature) (command : Ir.Command) (p : Handler E O O) : Prop where
  before : ∀ trace res, p.Runs trace res → ∀ pre input r post,
    trace = pre ++ ⟨.effect input, r⟩ :: post →
      ∀ c ∈ preconditions feature command input, c.Met pre
  counted : ∀ trace res, p.Runs trace res → ∀ limit ∈ (partitionGates command.gates).2,
    increments limit trace = if res.toBool then 1 else 0

/-! ### Parts of a run -/

/-- Only checks. -/
def ChecksOnly (trace : Trace E O) : Prop := ∀ e ∈ trace, ∃ c, e.op = .check c

theorem ChecksOnly.append {first second : Trace E O} (h : ChecksOnly first) (h' : ChecksOnly second) :
    ChecksOnly (first ++ second) := by
  intro e he
  rcases List.mem_append.mp he with he | he
  · exact h e he
  · exact h' e he

theorem ChecksOnly.increments {trace : Trace E O} (h : ChecksOnly trace) (limit : String) :
    increments limit trace = 0 := by
  rw [Lazuli.Codegen.increments, List.countP_eq_zero]
  intro e he
  obtain ⟨c, hc⟩ := h e he
  rw [hc]
  exact Bool.false_ne_true

/-- Behind checks alone the effect is one of what comes after them. -/
theorem ChecksOnly.effect_after {quiet rest pre post : Trace E O} {input : Slot}
    {r : Except E O} (h : ChecksOnly quiet)
    (eq : quiet ++ rest = pre ++ ⟨.effect input, r⟩ :: post) :
    ∃ between, pre = quiet ++ between ∧ rest = between ++ ⟨.effect input, r⟩ :: post := by
  rcases List.append_eq_append_iff.mp eq with ⟨between, hpre, hrest⟩ | ⟨tail, hquiet, hpost⟩
  · exact ⟨between, hpre, hrest⟩
  · cases tail with
    | nil => exact ⟨[], by simpa using hquiet.symm, by simpa using hpost.symm⟩
    | cons e tail =>
        have here : e ∈ quiet := by
          rw [hquiet]
          simp
        obtain ⟨c, hc⟩ := h e here
        have effect : e = ⟨.effect input, r⟩ := (List.cons.inj hpost).1.symm
        rw [effect] at hc
        cases hc

theorem Passed.mono {trace trace' : Trace E O} {c : Check} (h : Passed trace c)
    (sub : trace ⊆ trace') : Passed trace' c := sub h

theorem Precondition.Met.mono {trace trace' : Trace E O} {c : Precondition} (h : c.Met trace)
    (sub : trace ⊆ trace') : c.Met trace' := by
  cases c with
  | semantic call text => exact Passed.mono h sub
  | behind feature => exact Passed.mono h sub
  | quota limit => exact Passed.mono h sub
  | guard clause =>
      obtain ⟨id, passed⟩ := h
      exact ⟨id, passed.mono sub⟩

/-! ### Runs of the parts -/

theorem Handler.andThen_runs {α β : Type} {p : Handler E O α} {next : α → Handler E O β}
    {trace : Trace E O} {res : Except (Refusal E) β} (h : (p.andThen next).Runs trace res) :
    (∃ err, p.Runs trace (.error err) ∧ res = .error err) ∨
      ∃ first a second, trace = first ++ second ∧ p.Runs first (.ok a) ∧
        (next a).Runs second res := by
  obtain ⟨first, a, second, rfl, before, after⟩ := Program.runs_bind.mp h
  cases a with
  | error err =>
      obtain ⟨rfl, rfl⟩ := Program.runs_done.mp after
      refine .inl ⟨err, ?_, rfl⟩
      rw [List.append_nil]
      exact before
  | ok a => exact .inr ⟨first, a, second, rfl, before, after⟩

theorem validateSlots_runs {input : Slot} {slots bad : List SemanticValidatorSlot}
    {trace : Trace E O} (h : (validateSlots input slots).Runs trace bad) :
    ChecksOnly trace ∧ (bad = [] → ∀ slot ∈ slots, ∀ text, slot.value input = some text →
      Passed trace (.validate slot.call text)) := by
  induction slots generalizing trace bad with
  | nil =>
      obtain ⟨rfl, -⟩ := Program.runs_done.mp h
      exact ⟨nofun, nofun⟩
  | cons slot slots ih =>
      unfold validateSlots at h
      split at h
      next absent =>
        obtain ⟨quiet, passed⟩ := ih h
        refine ⟨quiet, ?_⟩
        intro hbad s hs text htext
        rcases List.mem_cons.mp hs with rfl | hs
        · rw [absent] at htext
          cases htext
        · exact passed hbad s hs text htext
      next value hvalue =>
        obtain ⟨r, later, rfl, run⟩ := Program.runs_call.mp h
        cases r with
        | ok u =>
            obtain ⟨quiet, passed⟩ := ih run
            refine ⟨?_, ?_⟩
            · intro e he
              rcases List.mem_cons.mp he with rfl | he
              · exact ⟨_, rfl⟩
              · exact quiet e he
            · intro hbad s hs text htext
              rcases List.mem_cons.mp hs with rfl | hs
              · rw [hvalue] at htext
                cases htext
                exact List.mem_cons_self
              · exact (passed hbad s hs text htext).mono (List.subset_cons_self _ _)
        | error err =>
            obtain ⟨first, bad', second, rfl, before, after⟩ := Program.runs_bind.mp run
            obtain ⟨rfl, rfl⟩ := Program.runs_done.mp after
            refine ⟨?_, nofun⟩
            intro e he
            rw [List.append_nil] at he
            rcases List.mem_cons.mp he with rfl | he
            · exact ⟨_, rfl⟩
            · exact (ih before).1 e he

theorem semanticValidatePrelude_runs {input : Slot} {slots : List SemanticValidatorSlot}
    {trace : Trace E O} {res : Except (Refusal E) Unit}
    (h : (semanticValidatePrelude slots input).Runs trace res) :
    ChecksOnly trace ∧ (res = .ok () → ∀ slot ∈ slots, ∀ text, slot.value input = some text →
      Passed trace (.validate slot.call text)) := by
  obtain ⟨first, bad, second, rfl, before, after⟩ := Program.runs_bind.mp h
  obtain ⟨quiet, passed⟩ := validateSlots_runs before
  split at after
  next none' =>
    obtain ⟨rfl, rfl⟩ := Program.runs_done.mp after
    rw [List.append_nil]
    exact ⟨quiet, fun _ => passed none'⟩
  · obtain ⟨rfl, rfl⟩ := Program.runs_done.mp after
    rw [List.append_nil]
    exact ⟨quiet, nofun⟩

theorem requireAll_runs {checks : List Check} {trace : Trace E O} {res : Except (Refusal E) Unit}
    (h : (requireAll checks).Runs trace res) :
    ChecksOnly trace ∧ (res = .ok () → ∀ c ∈ checks, Passed trace c) := by
  induction checks generalizing trace with
  | nil =>
      obtain ⟨rfl, -⟩ := Program.runs_done.mp h
      exact ⟨nofun, nofun⟩
  | cons c checks ih =>
      obtain ⟨r, later, rfl, run⟩ := Program.runs_call.mp h
      cases r with
      | error err =>
          obtain ⟨rfl, rfl⟩ := Program.runs_done.mp run
          refine ⟨?_, nofun⟩
          intro e he
          obtain rfl := List.mem_singleton.mp he
          exact ⟨c, rfl⟩
      | ok u =>
          obtain ⟨quiet, passed⟩ := ih run
          refine ⟨?_, ?_⟩
          · intro e he
            rcases List.mem_cons.mp he with rfl | he
            · exact ⟨c, rfl⟩
            · exact quiet e he
          · intro hres d hd
            rcases List.mem_cons.mp hd with rfl | hd
            · exact List.mem_cons_self
            · exact (passed hres d hd).mono (List.subset_cons_self _ _)

/-- The command itself: refused, or its effect. -/
theorem commandHandle_runs {input : Slot} {trace : Trace E O} {res : Except (Refusal E) O}
    (h : (commandHandle input).Runs trace res) :
    (∃ err, trace = [⟨.checks input, .error err⟩] ∧ res = .error (.failed err)) ∨
      ∃ r, trace = [⟨.checks input, .ok ()⟩, ⟨.effect input, r⟩] ∧ res = r.mapError .failed := by
  obtain ⟨r, later, rfl, run⟩ := Program.runs_call.mp h
  cases r with
  | error err =>
      obtain ⟨rfl, rfl⟩ := Program.runs_done.mp run
      exact .inl ⟨err, rfl, rfl⟩
  | ok u =>
      obtain ⟨r, last, rfl, done⟩ := Program.runs_call.mp run
      obtain ⟨rfl, rfl⟩ := Program.runs_done.mp done
      exact .inr ⟨r, rfl, rfl⟩

/-- Of the command itself: it checks nothing that was declared, and counts nothing. -/
theorem commandHandle_quiet {input : Slot} {trace : Trace E O} {res : Except (Refusal E) O}
    (h : (commandHandle input).Runs trace res) :
    (∀ c, ¬ Passed trace c) ∧ (∀ limit, increments limit trace = 0) ∧
      ∀ input' r, ⟨.effect input', r⟩ ∈ trace → input' = input := by
  rcases commandHandle_runs h with ⟨err, rfl, -⟩ | ⟨r, rfl, -⟩
  · refine ⟨?_, fun _ => rfl, ?_⟩
    · intro c hc
      cases List.mem_singleton.mp hc
    · intro input' r hr
      cases List.mem_singleton.mp hr
  · refine ⟨?_, fun _ => rfl, ?_⟩
    · intro c hc
      simp [Passed] at hc
    · intro input' r' hr
      rcases List.mem_cons.mp hr with hr | hr
      · cases hr
      · cases List.mem_singleton.mp hr
        rfl

theorem incrQuotas_runs {α : Type} {a b : α} {quotas : List String} {trace : Trace E O}
    (h : (incrQuotas a quotas).Runs trace b) :
    b = a ∧ (∀ limit, increments limit trace = quotas.count limit) ∧
      ∀ e ∈ trace, ∃ limit, e.op = .incrQuota limit := by
  induction quotas generalizing trace with
  | nil =>
      obtain ⟨rfl, rfl⟩ := Program.runs_done.mp h
      exact ⟨rfl, fun _ => rfl, nofun⟩
  | cons q quotas ih =>
      obtain ⟨r, later, rfl, run⟩ := Program.runs_call.mp h
      obtain ⟨rfl, counts, only⟩ := ih run
      refine ⟨rfl, ?_, ?_⟩
      · intro limit
        rw [increments, List.countP_cons, List.count_cons, ← counts limit, increments]
        simp [beq_iff_eq]
      · intro e he
        rcases List.mem_cons.mp he with rfl | he
        · exact ⟨q, rfl⟩
        · exact only e he

theorem handleAndCount_runs {input : Slot} {quotas : List String} {trace : Trace E O}
    {res : Except (Refusal E) O} (h : (handleAndCount input quotas).Runs trace res) :
    (∀ limit, increments limit trace = if res.toBool then quotas.count limit else 0) ∧
      ∀ input' r, ⟨.effect input', r⟩ ∈ trace → input' = input := by
  obtain ⟨first, a, second, rfl, before, after⟩ := Program.runs_bind.mp h
  obtain ⟨-, uncounted, only⟩ := commandHandle_quiet before
  cases a with
  | error err =>
      obtain ⟨rfl, rfl⟩ := Program.runs_done.mp after
      rw [List.append_nil]
      exact ⟨uncounted, only⟩
  | ok out =>
      obtain ⟨rfl, counts, increments'⟩ := incrQuotas_runs after
      constructor
      · intro limit
        rw [increments, List.countP_append]
        exact (congrArg₂ (· + ·) (uncounted limit) (counts limit)).trans (Nat.zero_add _)
      · intro input' r hr
        rcases List.mem_append.mp hr with hr | hr
        · exact only input' r hr
        · obtain ⟨limit, hop⟩ := increments' _ hr
          cases hop

/-! ### The wrapper -/

variable {feature : Feature} {command : Ir.Command}

theorem semanticPreconditions_met {input : Slot} {trace : Trace E O}
    (passed : ∀ slot ∈ semanticValidatorSlots command, ∀ text, slot.value input = some text →
      Passed trace (.validate slot.call text)) :
    ∀ c ∈ semanticPreconditions command input, c.Met trace := by
  intro c hc
  obtain ⟨slot, hslot, hvalue⟩ := List.mem_filterMap.mp hc
  obtain ⟨text, htext, rfl⟩ := Option.map_eq_some_iff.mp hvalue
  exact passed slot hslot text htext

theorem gatePreconditions_met {trace : Trace E O}
    (passed : ∀ c ∈ (partitionGates command.gates).1.map Check.feature ++
      (partitionGates command.gates).2.map Check.quota, Passed trace c) :
    ∀ c ∈ gatePreconditions command, c.Met trace := by
  intro c hc
  rcases List.mem_append.mp hc with hc | hc
  · obtain ⟨name, hname, rfl⟩ := List.mem_map.mp hc
    exact passed _ (List.mem_append_left _ (List.mem_map_of_mem hname))
  · obtain ⟨limit, hlimit, rfl⟩ := List.mem_map.mp hc
    exact passed _ (List.mem_append_right _ (List.mem_map_of_mem hlimit))

/-- Every declared guard is probed. -/
def Wired (feature : Feature) (command : Ir.Command) : Prop :=
  declaredGuards feature command = [] ∨ ∃ key, resolveWhereKeys command = [key]

theorem guardPreconditions_met (wired : Wired feature command) {input : Slot} {trace : Trace E O}
    (passed : ∀ c ∈ (wiredGuards feature command).map fun g =>
      Check.probe g.1 (structField input g.2), Passed trace c) :
    ∀ c ∈ (declaredGuards feature command).map Precondition.guard, c.Met trace := by
  intro c hc
  obtain ⟨clause, hclause, rfl⟩ := List.mem_map.mp hc
  rcases wired with none' | ⟨key, hkey⟩
  · rw [none'] at hclause
    cases hclause
  · have hwired : (clause, key.inputField) ∈ wiredGuards feature command := by
      unfold wiredGuards
      rw [hkey]
      exact List.mem_map_of_mem hclause
    exact ⟨_, passed _ (List.mem_map_of_mem hwired)⟩

theorem Keeps.of_quiet {p : Handler E O O} (run : ∀ trace res, p.Runs trace res →
      (ChecksOnly trace ∧ res.toBool = false) ∨
      ∃ quiet rest input, trace = quiet ++ rest ∧ ChecksOnly quiet ∧
        (∀ c ∈ preconditions feature command input, c.Met quiet) ∧
        (∀ input' r, ⟨.effect input', r⟩ ∈ rest → input' = input) ∧
        ∀ limit ∈ (partitionGates command.gates).2,
          increments limit rest = if res.toBool then 1 else 0) :
    Keeps feature command p := by
  constructor
  · intro trace res h pre input r post eq
    rcases run trace res h with ⟨quiet, -⟩ | ⟨quiet, rest, input', rfl, hquiet, met, only, -⟩
    · have here : (⟨.effect input, r⟩ : Program.Answered (WrapperOp.Res E O)) ∈ trace := by
        rw [eq]
        simp
      obtain ⟨c, hc⟩ := quiet _ here
      cases hc
    · obtain ⟨between, rfl, hrest⟩ := hquiet.effect_after eq
      have here : (⟨.effect input, r⟩ : Program.Answered (WrapperOp.Res E O)) ∈ rest := by
        rw [hrest]
        simp
      obtain rfl := only input r here
      intro c hc
      exact (met c hc).mono (List.subset_append_left _ _)
  · intro trace res h limit hlimit
    rcases run trace res h with ⟨quiet, failed⟩ | ⟨quiet, rest, input, rfl, hquiet, -, -, counts⟩
    · rw [quiet.increments, failed]
      rfl
    · rw [increments, List.countP_append]
      exact (congrArg₂ (· + ·) (hquiet.increments limit) (counts limit hlimit)).trans
        (Nat.zero_add _)

/-- On every run of the wrapper, whatever its checks and its effect answer. -/
theorem wrapper_keeps (wired : Wired feature command)
    (once : (partitionGates command.gates).2.Nodup) (input : Slot) :
    Keeps feature command (commandHandlerWrapper (E := E) (O := O) feature command input) := by
  apply Keeps.of_quiet
  intro trace res h
  rcases Handler.andThen_runs h with ⟨err, failed, rfl⟩ | ⟨first, _, later, rfl, scalars, h⟩
  · exact .inl ⟨(semanticValidatePrelude_runs failed).1, rfl⟩
  obtain ⟨quiet₁, passed₁⟩ := semanticValidatePrelude_runs scalars
  rcases Handler.andThen_runs h with ⟨err, failed, rfl⟩ | ⟨second, _, later, rfl, gates, h⟩
  · exact .inl ⟨quiet₁.append (requireAll_runs failed).1, rfl⟩
  obtain ⟨quiet₂, passed₂⟩ := requireAll_runs gates
  rcases Handler.andThen_runs h with ⟨err, failed, rfl⟩ | ⟨third, _, later, rfl, guards, h⟩
  · exact .inl ⟨quiet₁.append (quiet₂.append (requireAll_runs failed).1), rfl⟩
  obtain ⟨quiet₃, passed₃⟩ := requireAll_runs guards
  obtain ⟨counts, only⟩ := handleAndCount_runs h
  refine .inr ⟨first ++ (second ++ third), later, input, by simp,
    quiet₁.append (quiet₂.append quiet₃), ?_, only, ?_⟩
  · intro c hc
    rcases List.mem_append.mp hc with hc | hc
    · rcases List.mem_append.mp hc with hc | hc
      · apply (semanticPreconditions_met (passed₁ rfl) c hc).mono
        simp
      · apply (gatePreconditions_met (passed₂ rfl) c hc).mono
        intro e he
        simp [he]
    · apply (guardPreconditions_met wired (passed₃ rfl) c hc).mono
      intro e he
      simp [he]
  · intro limit hlimit
    rw [counts limit, List.count_eq_one_of_mem once hlimit]

end Kept

/-! ### What is served -/

/-- The input that a request brings to `Handle`. -/
def requestInput (c : TypedCommand) (req : Request) : Except Error Slot := do
  let raw ← readRequestBody req.body
  match sessionExpiredError req with
  | some err => .error err
  | none => c.decodeInput raw

theorem Registry.registerAll_eq {reg reg' : Registry} {cs : List TypedCommand}
    (h : reg.registerAll cs = some reg')
    (once : (reg.commands.map fun c => c.command.name).Nodup) :
    reg'.commands = reg.commands ++ cs ∧ (reg'.commands.map fun c => c.command.name).Nodup := by
  induction cs generalizing reg with
  | nil =>
      cases h
      exact ⟨(List.append_nil _).symm, once⟩
  | cons c cs ih =>
      obtain ⟨next, hnext, h⟩ := Option.bind_eq_some_iff.mp h
      unfold Registry.register at hnext
      split at hnext
      · cases hnext
      next fresh =>
        cases hnext
        have nodup : ((reg.commands ++ [c]).map fun c => c.command.name).Nodup := by
          rw [List.map_append, List.nodup_append']
          refine ⟨once, List.nodup_singleton _, ?_⟩
          intro name hname hc
          obtain rfl := List.mem_singleton.mp hc
          obtain ⟨d, hd, same⟩ := List.mem_map.mp hname
          exact fresh (List.any_eq_true.mpr ⟨d, hd, decide_eq_true same⟩)
        obtain ⟨all, nodup'⟩ := ih h nodup
        refine ⟨?_, nodup'⟩
        rw [all, List.append_assoc]
        rfl

section Served

variable {m : Module} {vars : Feature → Ir.Command → TypedCommand} {queries : List String}
  {reg : Registry} {table : List (String × Endpoint)}

theorem registered_lookup (built : registered m vars queries = some reg) {c : TypedCommand}
    (mem : c ∈ reg.commands) : reg.lookupCommandHandler c.command.name = some c := by
  obtain ⟨-, once⟩ := Registry.registerAll_eq built List.nodup_nil
  apply find?_of_unique mem (decide_eq_true rfl)
  intro d hd same
  exact List.inj_on_of_nodup_map once hd mem (of_decide_eq_true same)

theorem registered_mem (built : registered m vars queries = some reg) {feature : Feature}
    (hf : feature ∈ m.features) {command : Ir.Command} (hc : command ∈ feature.commands) :
    vars feature command ∈ reg.commands := by
  obtain ⟨all, -⟩ := Registry.registerAll_eq built List.nodup_nil
  rw [all]
  simp only [List.nil_append, List.mem_flatMap]
  exact ⟨feature, hf, List.mem_map_of_mem hc⟩

/-- Both routes of a command lead to its own `Handle`. -/
theorem serve_command {E O : Type} (built : registered m vars queries = some reg)
    (mounted : mux reg = some table) {c : TypedCommand} (mem : c ∈ reg.commands) {req : Request}
    (route : req.path ∈ commandRoutes c) :
    serve (E := E) (O := O) reg table req = some
      (match requestInput c req with
        | .error err => .done (.error (.error err))
        | .ok input => commandHandle input) := by
  unfold mux at mounted
  split at mounted
  next once =>
    obtain rfl := Option.some.inj mounted
    have entry : (req.path, Endpoint.command c.command.name) ∈ reg.routes := by
      apply List.mem_append_left
      rw [List.mem_flatMap]
      exact ⟨c, mem, List.mem_map_of_mem route⟩
    have found : (reg.routes.find? fun e => e.1 = req.path) =
        some (req.path, .command c.command.name) := by
      apply find?_of_unique entry (decide_eq_true rfl)
      intro e he same
      exact List.inj_on_of_nodup_map once he entry (of_decide_eq_true same)
    simp only [serve, found, handleCommandRequest, registered_lookup built mem, requestInput]
    cases readRequestBody req.body with
    | error err => rfl
    | ok raw =>
        dsimp only
        cases sessionExpiredError req <;> rfl
  · cases mounted

end Served

theorem gatePreconditions_nil {command : Ir.Command} (h : gatePreconditions command = []) :
    (partitionGates command.gates).2 = [] :=
  List.map_eq_nil_iff.mp (List.append_eq_nil_iff.mp h).2

/-- The command itself keeps its preconditions when there are none, and only then. -/
theorem commandHandle_keeps_iff {feature : Feature} {command : Ir.Command} {input : Slot} :
    Keeps feature command (commandHandle input : Handler Failure Output Output) ↔
      preconditions feature command input = [] := by
  constructor
  · intro keeps
    rw [List.eq_nil_iff_forall_not_mem]
    intro c hc
    let ran : Except Failure Output := .error .panic
    have run : (commandHandle input : Handler Failure Output Output).Runs
        [⟨.checks input, .ok ()⟩, ⟨.effect input, ran⟩] (ran.mapError .failed) :=
      .call (.call (.done _))
    have met := keeps.before _ _ run [⟨.checks input, .ok ()⟩] input ran [] rfl c hc
    cases c <;> simp [Precondition.Met, Passed] at met
  · intro none'
    obtain ⟨front, -⟩ := List.append_eq_nil_iff.mp none'
    obtain ⟨-, gates⟩ := List.append_eq_nil_iff.mp front
    constructor
    · intro trace res run pre input' r post eq
      have here : (⟨.effect input', r⟩ : Program.Answered (WrapperOp.Res Failure Output)) ∈
          trace := by
        rw [eq]
        simp
      obtain rfl := (commandHandle_quiet run).2.2 input' r here
      rw [none']
      exact nofun
    · rw [gatePreconditions_nil gates]
      exact fun _ _ _ => nofun

/-- A request that a command serves keeps its preconditions exactly when it brings no input to
`Handle` for which something is declared. -/
theorem served_keeps_iff (m : Module) (vars : Feature → Ir.Command → TypedCommand)
    (queries : List String) (reg : Registry) (table : List (String × Endpoint))
    (built : registered m vars queries = some reg) (mounted : mux reg = some table)
    (feature : Feature) (hf : feature ∈ m.features) (command : Ir.Command)
    (hc : command ∈ feature.commands) (req : Request)
    (route : req.path ∈ commandRoutes (vars feature command)) :
    ∃ p : Handler Failure Output Output, serve reg table req = some p ∧
      (Keeps feature command p ↔ ∀ input, requestInput (vars feature command) req = .ok input →
        preconditions feature command input = []) := by
  refine ⟨_, serve_command built mounted (registered_mem built hf hc) route, ?_⟩
  cases requestInput (vars feature command) req with
  | ok input =>
      rw [commandHandle_keeps_iff]
      constructor
      · rintro none' input' ⟨⟩
        exact none'
      · exact fun none' => none' input rfl
  | error err =>
      refine ⟨nofun, fun _ => ⟨?_, ?_⟩⟩
      · intro trace res run pre input r post eq
        obtain ⟨rfl, -⟩ := Program.runs_done.mp run
        simp at eq
      · intro trace res run limit _
        obtain ⟨rfl, rfl⟩ := Program.runs_done.mp run
        rfl

/-! ### A gated command -/

def createInvoice : Ir.Command :=
  { name := "create_invoice", effect := .returns, triggers := [], span := none
    gates := [.behind "invoicing", .quota "invoices"] }

def invoicing : Feature := { name := "billing", commands := [createInvoice] }

theorem wrapper_keeps_invoices :
    Keeps invoicing createInvoice (commandHandlerWrapper (E := Failure) (O := Output) invoicing
      createInvoice (.direct (.struct .nil))) :=
  wrapper_keeps (.inl rfl) (by decide) _

/-- Any `Command` value of that name. -/
def invoiceVar : TypedCommand where
  command :=
    { name := "billing.create_invoice"
      checks := fun _ _ => .ok ()
      effect := some (.returns ⟨some fun _ _ => .ok fun _ => .nil⟩)
      transitions := []
      lifecycleColumn := none
      emits := []
      emitsTrace := []
      audit := none
      invalidates := []
      outputType := .other
      zero := fun _ => .nil
      scan := fun _ => .ok fun _ => .nil }
  externalCalls := []
  decode := fun _ => .ok (.direct (.struct .nil))
  zeroInput := .direct (.struct .nil)

def invoices : Registry := ⟨[invoiceVar], []⟩

def invoiceRequest : Request :=
  { path := "POST /api/v1/c/billing.create_invoice"
    body := .absent
    ctx := ⟨ActorUser, some ⟨1, 1, []⟩, some ⟨1⟩, none⟩
    sessionExpiredAt := none }

theorem served_keeps_iff_expired :
    ∃ p : Handler Failure Output Output,
      serve invoices invoices.routes { invoiceRequest with body := .tooLarge } = some p ∧
        Keeps invoicing createInvoice p := by
  obtain ⟨p, served, keeps⟩ := served_keeps_iff ⟨[invoicing]⟩ (fun _ _ => invoiceVar) [] invoices
    invoices.routes rfl (if_pos (by decide)) invoicing (by simp) createInvoice (by simp [invoicing])
    { invoiceRequest with body := .tooLarge } (by decide)
  exact ⟨p, served, keeps.mpr nofun⟩

theorem gates_bypassed :
    ¬ ∀ (m : Module) (vars : Feature → Ir.Command → TypedCommand) (queries : List String)
      (reg : Registry) (table : List (String × Endpoint)),
      registered m vars queries = some reg → mux reg = some table →
      ∀ feature ∈ m.features, ∀ command ∈ feature.commands, ∀ req : Request,
      req.path ∈ commandRoutes (vars feature command) →
      ∀ p : Handler Failure Output Output, serve reg table req = some p →
        Keeps feature command p := by
  intro claim
  have served : serve (E := Failure) (O := Output) invoices invoices.routes invoiceRequest =
      some (commandHandle (.direct (.struct .nil))) := rfl
  have keeps := claim ⟨[invoicing]⟩ (fun _ _ => invoiceVar) [] invoices invoices.routes rfl
    (if_pos (by decide)) invoicing (by simp) createInvoice (by simp [invoicing]) invoiceRequest
    (by decide) _ served
  have none' := commandHandle_keeps_iff.mp keeps
  cases none'

end Lazuli.Codegen
