import Lazuli.Codegen.Readings

/-!
When the identifiers of a feature's package are pairwise distinct.

Two identifiers are the same exactly when their words fuse to the same words, and a type or
function never meets a variable. `Apart` goes through the kinds of declarations that can meet:
two commands, one of which has a word in its resource that the other has behind its verb, a
query `list_customers` beside `list`, a record called like an input struct, and so on.
-/

namespace Lazuli.Codegen

open Ir Lazuli.Runtime Lazuli.General.CamelCase

/-- No two types or functions are read the same. -/
structure ApartExported (f : FeatureDecl) : Prop where
  types : ((typeNames f).map fun t => fuse (nameWords t)).Nodup
  inputs : ((f.commands.filter hasInputStruct).map fun c => fuse (inputReading c)).Nodup
  args : (f.queries.map fun q => fuse (argsReading f q)).Nodup
  handlers : (f.commands.map fun c => fuse (nameWords c.name)).Nodup
  type_input : ∀ t ∈ typeNames f, ∀ c ∈ f.commands.filter hasInputStruct,
    fuse (nameWords t) ≠ fuse (inputReading c) ++ [word "input"]
  type_args : ∀ t ∈ typeNames f, ∀ q ∈ f.queries,
    fuse (nameWords t) ≠ fuse (argsReading f q) ++ [word "args"]
  type_handler : ∀ t ∈ typeNames f, ∀ c ∈ f.commands,
    fuse (nameWords t) ≠ word "handle" :: fuse (nameWords c.name)
  input_handler : ∀ c ∈ f.commands.filter hasInputStruct, ∀ d ∈ f.commands,
    fuse (inputReading c) ++ [word "input"] ≠ word "handle" :: fuse (nameWords d.name)
  args_handler : ∀ q ∈ f.queries, ∀ c ∈ f.commands,
    fuse (argsReading f q) ++ [word "args"] ≠ word "handle" :: fuse (nameWords c.name)

/-- No two variables are read the same. -/
structure ApartVariables (f : FeatureDecl) : Prop where
  resources : (f.resources.map fun r => fuse (leadingWords r.name)).Nodup
  commands : (f.commands.map fun c => fuse (commandReading c)).Nodup
  queries : (f.queries.map fun q => fuse (queryVarReading f q)).Nodup
  resource_command : ∀ r ∈ f.resources, ∀ c ∈ f.commands,
    fuse (leadingWords r.name) ++ [word "resource"] ≠ fuse (commandReading c)
  resource_query : ∀ r ∈ f.resources, ∀ q ∈ f.queries,
    fuse (leadingWords r.name) ++ [word "resource"] ≠ fuse (queryVarReading f q)
  command_query : ∀ c ∈ f.commands, ∀ q ∈ f.queries,
    fuse (commandReading c) ≠ fuse (queryVarReading f q)

/-! ### What an identifier is heard as -/

/-- The identifier is a type or function, and `heard` are its words after fusing. -/
def ExportedAs (ident : String) (heard : List Word) : Prop :=
  ∃ ws, Exported ident ws ∧ fuse ws = heard

def UnexportedAs (ident : String) (heard : List Word) : Prop :=
  ∃ ws, Unexported ident ws ∧ fuse ws = heard

section Heard

variable {s t : String} {a b : List Word} {ws : List Word} {v : Word}

theorem ExportedAs.eq_iff (hs : ExportedAs s a) (ht : ExportedAs t b) : s = t ↔ a = b := by
  obtain ⟨ws, hs, rfl⟩ := hs
  obtain ⟨vs, ht, rfl⟩ := ht
  exact hs.eq_iff ht

theorem UnexportedAs.eq_iff (hs : UnexportedAs s a) (ht : UnexportedAs t b) : s = t ↔ a = b := by
  obtain ⟨ws, hs, rfl⟩ := hs
  obtain ⟨vs, ht, rfl⟩ := ht
  exact hs.eq_iff ht

theorem ExportedAs.ne_unexported (hs : ExportedAs s a) (ht : UnexportedAs t b) : s ≠ t := by
  obtain ⟨ws, hs, -⟩ := hs
  obtain ⟨vs, ht, -⟩ := ht
  exact hs.ne_unexported ht

theorem fuse_append_word (h : opens v = true) : fuse (ws ++ [v]) = fuse ws ++ [v] := by
  refine fuse_append_of_opens (by simpa using h) fun w hw => ?_
  obtain rfl := List.mem_singleton.mp hw
  rintro rfl
  cases h

end Heard

section Lists

variable {α β γ δ : Type} {l : List α} {m : List β}

theorem nodup_map_iff {g : α → γ} {k : α → δ} (h : ∀ a ∈ l, ∀ b ∈ l, g a = g b ↔ k a = k b) :
    (l.map g).Nodup ↔ (l.map k).Nodup := by
  rw [List.Nodup, List.Nodup, List.pairwise_map, List.pairwise_map]
  exact List.Pairwise.iff_of_mem fun ha hb => not_congr (h _ ha _ hb)

variable {g : α → String} {k : β → String} {x : α → List Word} {y : β → List Word}

theorem ExportedAs.nodup_iff (h : ∀ a ∈ l, ExportedAs (g a) (x a)) :
    (l.map g).Nodup ↔ (l.map x).Nodup :=
  nodup_map_iff fun a ha b hb => (h a ha).eq_iff (h b hb)

theorem UnexportedAs.nodup_iff (h : ∀ a ∈ l, UnexportedAs (g a) (x a)) :
    (l.map g).Nodup ↔ (l.map x).Nodup :=
  nodup_map_iff fun a ha b hb => (h a ha).eq_iff (h b hb)

theorem ExportedAs.disjoint_iff (h : ∀ a ∈ l, ExportedAs (g a) (x a))
    (h' : ∀ b ∈ m, ExportedAs (k b) (y b)) :
    (∀ a ∈ l, ∀ b ∈ m, g a ≠ k b) ↔ ∀ a ∈ l, ∀ b ∈ m, x a ≠ y b :=
  forall₂_congr fun a ha => forall₂_congr fun b hb => not_congr ((h a ha).eq_iff (h' b hb))

theorem UnexportedAs.disjoint_iff (h : ∀ a ∈ l, UnexportedAs (g a) (x a))
    (h' : ∀ b ∈ m, UnexportedAs (k b) (y b)) :
    (∀ a ∈ l, ∀ b ∈ m, g a ≠ k b) ↔ ∀ a ∈ l, ∀ b ∈ m, x a ≠ y b :=
  forall₂_congr fun a ha => forall₂_congr fun b hb => not_congr ((h a ha).eq_iff (h' b hb))

/-- A fixed word behind all of them makes no difference. -/
theorem nodup_append_word (x : α → List Word) (v : Word) :
    (l.map fun a => x a ++ [v]).Nodup ↔ (l.map x).Nodup :=
  nodup_map_iff fun _ _ _ _ => List.append_left_inj [v]

theorem nodup_cons_word (x : α → List Word) (v : Word) :
    (l.map fun a => v :: x a).Nodup ↔ (l.map x).Nodup :=
  nodup_map_iff fun _ _ _ _ => List.cons_inj_right v

end Lists

/-! ### The kinds of declarations -/

section Kinds

variable {f : FeatureDecl} (h : Named f)

include h

theorem types_heard : ∀ t ∈ typeNames f, ExportedAs (pascalCase t) (fuse (nameWords t)) :=
  fun t ht => ⟨_, exported_pascalCase (h.types t ht), rfl⟩

theorem inputs_heard : ∀ c ∈ f.commands.filter hasInputStruct,
    ExportedAs (commandInputStructName c.name (effectResourcePascal c))
      (fuse (inputReading c) ++ [word "input"]) := by
  intro c hc
  have mem := List.mem_of_mem_filter hc
  exact ⟨_, exported_input (h.commands c mem) (h.effects c mem), fuse_append_word rfl⟩

theorem args_heard : ∀ q ∈ f.queries,
    ExportedAs (queryArgsStructName f q) (fuse (argsReading f q) ++ [word "args"]) :=
  fun _ hq => ⟨_, exported_args h hq, fuse_append_word rfl⟩

theorem handlers_heard : ∀ c ∈ f.commands,
    ExportedAs (commandHandlerFuncName c.name) (word "handle" :: fuse (nameWords c.name)) := by
  intro c hc
  have words := speakable_nameWords (h.commands c hc)
  exact ⟨_, exported_handler (h.commands c hc),
    fuse_cons_of_opens words.first fun w hw => (words.spoken w hw).1⟩

theorem resources_heard : ∀ r ∈ f.resources,
    UnexportedAs (resourceVarName r) (fuse (leadingWords r.name) ++ [word "resource"]) := by
  intro r hr
  have mem : r.name ∈ typeNames f :=
    List.mem_append_left _ (List.mem_append_left _ (List.mem_map_of_mem hr))
  exact ⟨_, unexported_resource (h.types r.name mem), fuse_append_word rfl⟩

theorem commands_heard : ∀ c ∈ f.commands,
    UnexportedAs (commandVarName c.name (effectResourcePascal c)) (fuse (commandReading c)) :=
  fun c hc => ⟨_, unexported_command (h.commands c hc) (h.effects c hc), rfl⟩

theorem queries_heard : ∀ q ∈ f.queries,
    UnexportedAs (queryVarName f q) (fuse (queryVarReading f q)) :=
  fun _ hq => ⟨_, unexported_query h hq, rfl⟩

theorem exported_of_mem : ∀ s ∈ exportedIdentifiers f, ∃ heard, ExportedAs s heard := by
  intro s hs
  simp only [exportedIdentifiers, List.mem_append, List.mem_map] at hs
  rcases hs with ((⟨t, ht, rfl⟩ | ⟨c, hc, rfl⟩) | ⟨q, hq, rfl⟩) | ⟨c, hc, rfl⟩
  · exact ⟨_, types_heard h t ht⟩
  · exact ⟨_, inputs_heard h c hc⟩
  · exact ⟨_, args_heard h q hq⟩
  · exact ⟨_, handlers_heard h c hc⟩

theorem unexported_of_mem : ∀ s ∈ variableIdentifiers f, ∃ heard, UnexportedAs s heard := by
  intro s hs
  simp only [variableIdentifiers, List.mem_append, List.mem_map] at hs
  rcases hs with (⟨r, hr, rfl⟩ | ⟨c, hc, rfl⟩) | ⟨q, hq, rfl⟩
  · exact ⟨_, resources_heard h r hr⟩
  · exact ⟨_, commands_heard h c hc⟩
  · exact ⟨_, queries_heard h q hq⟩

/-- An input struct is not called like an argument struct: their last words differ. -/
theorem input_ne_args : ∀ c ∈ f.commands.filter hasInputStruct, ∀ q ∈ f.queries,
    commandInputStructName c.name (effectResourcePascal c) ≠ queryArgsStructName f q := by
  intro c hc q hq same
  have heard := ((inputs_heard h c hc).eq_iff (args_heard h q hq)).mp same
  have last := (List.append_inj' heard rfl).2
  cases last

theorem exportedIdentifiers_nodup_iff : (exportedIdentifiers f).Nodup ↔ ApartExported f := by
  have types := types_heard h
  have inputs := inputs_heard h
  have args := args_heard h
  have handlers := handlers_heard h
  simp only [exportedIdentifiers, List.nodup_append, List.forall_mem_append, List.forall_mem_map]
  rw [ExportedAs.nodup_iff types, ExportedAs.nodup_iff inputs, nodup_append_word,
    ExportedAs.nodup_iff args, nodup_append_word, ExportedAs.nodup_iff handlers, nodup_cons_word,
    ExportedAs.disjoint_iff types inputs, ExportedAs.disjoint_iff types args,
    ExportedAs.disjoint_iff types handlers, ExportedAs.disjoint_iff inputs handlers,
    ExportedAs.disjoint_iff args handlers]
  constructor
  · rintro ⟨⟨⟨types, inputs, type_input⟩, args, type_args, -⟩, handlers,
      ⟨type_handler, input_handler⟩, args_handler⟩
    exact { types, inputs, args, handlers, type_input, type_args, type_handler, input_handler,
            args_handler }
  · intro apart
    exact ⟨⟨⟨apart.types, apart.inputs, apart.type_input⟩, apart.args, apart.type_args,
      input_ne_args h⟩, apart.handlers, ⟨apart.type_handler, apart.input_handler⟩,
      apart.args_handler⟩

theorem variableIdentifiers_nodup_iff : (variableIdentifiers f).Nodup ↔ ApartVariables f := by
  have resources := resources_heard h
  have commands := commands_heard h
  have queries := queries_heard h
  simp only [variableIdentifiers, List.nodup_append, List.forall_mem_append, List.forall_mem_map]
  rw [UnexportedAs.nodup_iff resources, nodup_append_word, UnexportedAs.nodup_iff commands,
    UnexportedAs.nodup_iff queries, UnexportedAs.disjoint_iff resources commands,
    UnexportedAs.disjoint_iff resources queries, UnexportedAs.disjoint_iff commands queries]
  constructor
  · rintro ⟨⟨resources, commands, resource_command⟩, queries, resource_query, command_query⟩
    exact { resources, commands, queries, resource_command, resource_query, command_query }
  · intro apart
    exact ⟨⟨apart.resources, apart.commands, apart.resource_command⟩, apart.queries,
      apart.resource_query, apart.command_query⟩

/-- The identifiers of a package are pairwise distinct exactly when no two types or functions,
and no two variables, are read the same. -/
theorem identifiers_distinct_iff :
    (identifiers f).Nodup ↔ ApartExported f ∧ ApartVariables f := by
  have disjoint : ∀ s ∈ exportedIdentifiers f, ∀ t ∈ variableIdentifiers f, s ≠ t := by
    intro s hs t ht
    obtain ⟨a, hs⟩ := exported_of_mem h s hs
    obtain ⟨b, ht⟩ := unexported_of_mem h t ht
    exact hs.ne_unexported ht
  rw [identifiers, List.nodup_append, exportedIdentifiers_nodup_iff h,
    variableIdentifiers_nodup_iff h]
  exact ⟨fun ⟨exported, vars, _⟩ => ⟨exported, vars⟩,
    fun ⟨exported, vars⟩ => ⟨exported, vars, disjoint⟩⟩

end Kinds

/-! ### A resource behind the verb -/

def localName (name : String) : QualifiedName := ⟨none, name⟩

/-- A command that updates a resource, with one input field. -/
def updating (name resource field : String) : CommandDecl :=
  { name
    effect := .updates ⟨localName resource, [], []⟩
    triggers := []
    span := none
    input := .typed [⟨field, .builtin .text, true, false⟩] }

/-- `update_email` on `Customer`, with a list of customers. -/
def customerFeature : FeatureDecl :=
  { name := "customer"
    resources := [{ name := "Customer" }]
    enums := [{ name := "CustomerStage" }]
    commands := [updating "update_email" "Customer" "email"]
    queries := [⟨.list, "list"⟩, ⟨.lookup, "by_email"⟩] }

theorem customerFeature_named : Named customerFeature where
  types := by decide
  commands := by decide
  effects := by decide
  queries := by decide

theorem identifiers_distinct_iff_customer :
    (identifiers customerFeature).Nodup ∧
      ApartExported customerFeature ∧ ApartVariables customerFeature := by
  have distinct : (identifiers customerFeature).Nodup := by decide +kernel
  exact ⟨distinct, (identifiers_distinct_iff customerFeature_named).mp distinct⟩

/-- `update` on `CustomerEmail` beside it. -/
def customerEmailFeature : FeatureDecl :=
  { name := "customer"
    resources := [{ name := "Customer" }, { name := "CustomerEmail" }]
    commands := [updating "update_email" "Customer" "email",
      updating "update" "CustomerEmail" "address"] }

theorem customerEmailFeature_named : Named customerEmailFeature where
  types := by decide
  commands := by decide
  effects := by decide
  queries := by decide

/-- All names of the feature are distinct, and both commands declare
`UpdateCustomerEmailInput` and `updateCustomerEmail`. -/
theorem spliced_names_meet :
    Named customerEmailFeature ∧ (typeNames customerEmailFeature).Nodup ∧
      (customerEmailFeature.commands.map (·.name)).Nodup ∧
      (customerEmailFeature.queries.map (·.name)).Nodup ∧
      ¬ (identifiers customerEmailFeature).Nodup :=
  ⟨customerEmailFeature_named, by decide, by decide, by decide, by decide +kernel⟩

end Lazuli.Codegen
