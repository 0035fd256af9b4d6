import Lazuli.OpenApi.Operations

/-!
What the document of a module says, beside what the server serves
(`crates/lazuli_openapi/src`, `Mux` in `runtime/go/lazuli/http.go`).

A document describes its server when no mapping has a key twice, every reference names a schema or
a response of the document, and every operation has the method, the path and the status of a route.
The routes of commands have one form, and the document writes another; `describes_iff` says what
else can go wrong.
-/

namespace Lazuli.OpenApi

open General Yaml

/-! ### The server -/

structure Endpoint where
  method : HttpMethod
  path : String
  status : Nat

/-- The routes of a command. Those that only read have a second one, and `pureRead` is whether
this one does. -/
def muxCommand (pureRead : Bool) (feature : String) (cmd : Command) : List Endpoint :=
  let name := feature ++ "." ++ cmd.name
  ⟨.post, "/api/v1/c/" ++ name, 200⟩ ::
    if pureRead then [⟨.post, "/api/v1/q/" ++ name, 200⟩] else []

def muxApi (api : Api) : Endpoint := ⟨api.method, api.path, 200⟩

/-! ### The document -/

def statusKey (status : Nat) : String := "'" ++ toString status ++ "'"

/-- The responses of a success. -/
def successes (responses : Block) : List String :=
  (keys responses).filter fun key => key.toList.take 2 = ['\'', '2']

/-- The entry is an operation at this endpoint. -/
def DocumentedAs (entry : String × Node) (e : Endpoint) : Prop :=
  ∃ operation responses,
    entry = (quoteKey e.path, .map [(httpMethodName e.method, .map operation)]) ∧
    ("responses", .map responses) ∈ operation ∧ successes responses = [statusKey e.status]

/-- A reference to something that the document defines. -/
def Defined (m : Module) (text : String) : Prop :=
  (∃ name ∈ keys (schemasBlock m), text = schemaRef name) ∨
    ∃ name ∈ keys responsesBlock, text = "'#/components/responses/" ++ name ++ "'"

structure Describes (pureRead : String → Command → Bool) (m : Module) (opts : EmitOptions) :
    Prop where
  distinct : (Node.map (document m opts)).Distinct
  defined : ∀ text, (Node.map (document m opts)).Refers text → Defined m text
  commands : ∀ f ∈ m.features, ∀ c ∈ f.commands,
    ∃ e ∈ muxCommand (pureRead f.name c) f.name c, DocumentedAs (emitCommand f.name c) e
  apis : ∀ f ∈ m.features, ∀ a ∈ f.apis, ∀ entry ∈ emitApi opts.strictTypedOnly f.name a,
    DocumentedAs entry (muxApi a)

/-! ### What the module must be like -/

/-- Apis differ in method or path, the commands of a feature in name. -/
structure Separate (m : Module) : Prop where
  apis : ((m.features.flatMap Feature.apis).map fun a => (a.method, a.path)).Nodup
  commands : ∀ f ∈ m.features, (f.commands.map Command.name).Nodup

/-- The paths of a feature, of whatever it declares but commands. -/
def featureRoutes (strict : Bool) (f : Feature) : List String :=
  (if strict then [] else f.apis.map Api.path) ++
    (f.agents.flatMap fun agent => (agent.exposeHttp.map HttpExposure.path).toList) ++
    f.webhooks.map Webhook.route

def routesOf (m : Module) (opts : EmitOptions) : List String :=
  m.features.flatMap (featureRoutes opts.strictTypedOnly)

def featureNames (f : Feature) : List String :=
  f.resources.map Resource.name ++ f.records.map Record.name ++ f.enums.map (·.name)

def namesOf (m : Module) : List String := m.features.flatMap featureNames

/-- The fields of each resource and each record. -/
def featureFields (f : Feature) : List (List Field) :=
  f.resources.map Resource.fields ++ f.records.map Record.fields

/-- The types that the operations and schemas of a feature show, those of commands left out. -/
def featureTypes (strict : Bool) (f : Feature) : List TypeRef :=
  (if strict then [] else f.apis.map Api.output) ++
    (f.webhooks.flatMap fun webhook => webhook.returns.toList) ++
    (featureFields f).flatMap fun fields => fields.map Field.typeRef

/-- There is no command; paths, names and fields differ; and types name what is declared. -/
structure Describable (m : Module) (opts : EmitOptions) : Prop where
  noCommand : ∀ f ∈ m.features, f.commands = []
  routes : (routesOf m opts).Nodup
  names : (namesOf m).Nodup
  fields : ∀ f ∈ m.features, ∀ fields ∈ featureFields f, (fields.map Field.name).Nodup
  types : ∀ f ∈ m.features, ∀ type ∈ featureTypes opts.strictTypedOnly f, ∀ name,
    type.named = some name → name ∈ namesOf m

/-! ### Keys -/

theorem wrapped_inj {before behind k k' : String}
    (same : before ++ k ++ behind = before ++ k' ++ behind) : k = k' := by
  have text := congrArg String.toList same
  simp only [String.toList_append] at text
  exact String.toList_injective (List.append_cancel_left (List.append_cancel_right text))

theorem quoteKey_inj {k k' : String} (same : quoteKey k = quoteKey k') : k = k' := by
  have quoted {k k' : String} (marked : ' ' ∈ k.toList ∨ ':' ∈ k.toList)
      (bare : ¬(' ' ∈ k'.toList ∨ ':' ∈ k'.toList)) : "\"" ++ k ++ "\"" ≠ k' := by
    rintro rfl
    refine bare (marked.imp (fun mem => ?_) fun mem => ?_) <;> simp [mem]
  unfold quoteKey at same
  split at same
  next marked =>
    split at same
    · exact wrapped_inj same
    next bare => exact absurd same (quoted marked bare)
  next bare =>
    split at same
    next marked => exact absurd same.symm (quoted marked bare)
    · exact same

theorem schemaRef_inj {name name' : String} (same : schemaRef name = schemaRef name') :
    name = name' := wrapped_inj same

/-- The path of a command has its slots in braces, which the route does not have. -/
theorem commandPath_ne_route (feature : String) (cmd : Command) (route : String)
    (length : "/api/".length < route.length) (plain : '\x7b' ∉ route.toList) :
    commandPath feature cmd ≠ route ++ (feature ++ "." ++ cmd.name) := by
  intro same
  cases slots : cmd.route with
  | nil =>
      have lengths := congrArg String.length same
      simp only [commandPath, slots, List.map_nil, String.join_nil, String.length_append] at lengths
      have dot : ".".length = 1 := rfl
      have slash : "/".length = 1 := rfl
      have empty : "".length = 0 := rfl
      omega
  | cons slot rest =>
      have counts := congrArg (fun s => s.toList.count '\x7b') same
      simp only [commandPath, slots, List.map_cons, String.join_cons, String.toList_append,
        List.count_append, List.count_eq_zero.mpr plain] at counts
      have brace : "/\x7b".toList.count '\x7b' = 1 := rfl
      have dot : ".".toList.count '\x7b' = 0 := rfl
      omega

theorem not_documentedAs_mux {pureRead : Bool} {feature : String} {cmd : Command} {e : Endpoint}
    (mem : e ∈ muxCommand pureRead feature cmd) : ¬DocumentedAs (emitCommand feature cmd) e := by
  rintro ⟨operation, responses, same, -⟩
  have path := quoteKey_inj (congrArg Prod.fst same)
  rcases List.mem_cons.mp mem with rfl | mem
  · exact commandPath_ne_route feature cmd "/api/v1/c/" (by decide) (by decide) path
  · split at mem
    · rw [List.mem_singleton.mp mem] at path
      exact commandPath_ne_route feature cmd "/api/v1/q/" (by decide) (by decide) path
    · cases mem

/-! ### Paths -/

section Feature

variable {f : Feature} {strict : Bool}

theorem mem_featureTypes {type : TypeRef} : type ∈ featureTypes strict f ↔
    (strict = false ∧ ∃ a ∈ f.apis, a.output = type) ∨ (∃ w ∈ f.webhooks, w.returns = some type) ∨
      ∃ fields ∈ featureFields f, ∃ field ∈ fields, field.typeRef = type := by
  unfold featureTypes
  rw [List.mem_append, List.mem_append, or_assoc]
  refine or_congr ?_ (or_congr ?_ ?_)
  · cases strict <;> simp
  · simp
  · simp only [List.mem_flatMap, List.mem_map]

theorem keys_featurePaths (noCommand : f.commands = []) :
    keys (featurePaths strict f) = (featureRoutes strict f).map quoteKey := by
  have apis : keys (f.apis.flatMap (emitApi strict f.name)) =
      (if strict then [] else f.apis.map Api.path).map quoteKey := by
    cases strict with
    | true => simp [keys, emitApi]
    | false =>
        simp only [keys, emitApi, Bool.false_eq_true, if_false, List.map_flatMap, List.map_map,
          List.map_singleton]
        exact List.flatMap_pure_eq_map _ _
  have agents : keys (f.agents.flatMap fun agent =>
      optional (emitAgentExpose f.name agent.name) agent.exposeHttp) =
      (f.agents.flatMap fun agent =>
        (agent.exposeHttp.map HttpExposure.path).toList).map quoteKey := by
    rw [keys, List.map_flatMap, List.map_flatMap]
    congr 1
    funext agent
    cases agent.exposeHttp <;> rfl
  have webhooks : keys (f.webhooks.map (emitWebhook f.name)) =
      (f.webhooks.map Webhook.route).map quoteKey := by
    rw [keys, List.map_map, List.map_map]
    rfl
  rw [featurePaths, noCommand, List.map_nil, List.nil_append, featureRoutes, List.map_append,
    List.map_append, ← apis, ← agents, ← webhooks, keys, keys, keys, keys, List.map_append,
    List.map_append]

theorem showing_featurePaths (noCommand : f.commands = []) {e : String × Node}
    (mem : e ∈ featurePaths strict f) : Showing (featureTypes strict f) e.2 := by
  rw [featurePaths, noCommand, List.map_nil, List.nil_append, List.mem_append,
    List.mem_append] at mem
  rcases mem with (mem | mem) | mem
  · obtain ⟨a, ha, mem⟩ := List.mem_flatMap.mp mem
    refine (showing_api mem).mono fun type shown => ?_
    cases strict with
    | true => exact absurd mem List.not_mem_nil
    | false =>
        exact mem_featureTypes.mpr (.inl ⟨rfl, a, ha, (List.mem_singleton.mp shown).symm⟩)
  · obtain ⟨agent, -, mem⟩ := List.mem_flatMap.mp mem
    obtain ⟨expose, -, rfl⟩ := List.mem_map.mp mem
    exact (showing_agent f.name agent.name expose).mono (List.nil_subset _)
  · obtain ⟨w, hw, rfl⟩ := List.mem_map.mp mem
    refine (showing_webhook f.name w).mono fun type returns => ?_
    exact mem_featureTypes.mpr (.inr (.inl ⟨w, hw, Option.mem_toList.mp returns⟩))

/-! ### Schemas -/

theorem keys_featureSchemas (f : Feature) : keys (featureSchemas f) = featureNames f := by
  simp only [keys, featureSchemas, featureNames, List.map_append, List.map_map]
  rfl

theorem featureSchemas_distinct (f : Feature) : (∀ e ∈ featureSchemas f, e.2.Distinct) ↔
    ∀ fields ∈ featureFields f, (fields.map Field.name).Nodup := by
  simp only [featureSchemas, featureFields, List.forall_mem_append, List.forall_mem_map]
  constructor
  · rintro ⟨⟨resources, records⟩, -⟩
    exact ⟨fun r hr => (fields_distinct r.fields).mp (resources r hr),
      fun r hr => (fields_distinct r.fields).mp (records r hr)⟩
  · rintro ⟨resources, records⟩
    exact ⟨⟨fun r hr => (fields_distinct r.fields).mpr (resources r hr),
      fun r hr => (fields_distinct r.fields).mpr (records r hr)⟩, fun e _ => (enum_plain e).1⟩

theorem featureSchemas_maps {e : String × Node} (mem : e ∈ featureSchemas f) :
    ∃ entries, e.2 = .map entries := by
  simp only [featureSchemas, List.mem_append, List.mem_map] at mem
  rcases mem with (⟨r, -, rfl⟩ | ⟨r, -, rfl⟩) | ⟨d, -, rfl⟩
  all_goals exact ⟨_, rfl⟩

/-- The references of a schema are those of its fields. -/
theorem featureSchemas_refers {text : String} : (∃ e ∈ featureSchemas f, e.2.Refers text) ↔
    ∃ fields ∈ featureFields f, ∃ field ∈ fields, ∃ name,
      field.typeRef.named = some name ∧ text = schemaRef name := by
  constructor
  · rintro ⟨e, mem, refers⟩
    simp only [featureSchemas, List.mem_append, List.mem_map] at mem
    rcases mem with (⟨r, hr, rfl⟩ | ⟨r, hr, rfl⟩) | ⟨d, -, rfl⟩
    · exact ⟨r.fields, List.mem_append_left _ (List.mem_map_of_mem hr),
        (fields_refers r.fields text).mp refers⟩
    · exact ⟨r.fields, List.mem_append_right _ (List.mem_map_of_mem hr),
        (fields_refers r.fields text).mp refers⟩
    · exact absurd refers ((enum_plain d).2 text)
  · rintro ⟨fields, mem, named⟩
    rcases List.mem_append.mp mem with mem | mem
    · obtain ⟨r, hr, rfl⟩ := List.mem_map.mp mem
      refine ⟨emitResourceSchema r, ?_, (fields_refers r.fields text).mpr named⟩
      exact List.mem_append_left _ (List.mem_append_left _ (List.mem_map_of_mem hr))
    · obtain ⟨r, hr, rfl⟩ := List.mem_map.mp mem
      refine ⟨emitRecordSchema r, ?_, (fields_refers r.fields text).mpr named⟩
      exact List.mem_append_left _ (List.mem_append_right _ (List.mem_map_of_mem hr))

end Feature

/-! ### The document -/

section Document

variable {m : Module} {opts : EmitOptions} {text : String}

theorem keys_pathsBlock (noCommand : ∀ f ∈ m.features, f.commands = []) :
    keys (pathsBlock m opts) = (routesOf m opts).map quoteKey := by
  rw [pathsBlock, routesOf, keys, List.map_flatMap, List.map_flatMap]
  refine List.flatMap_congr fun f hf => ?_
  exact keys_featurePaths (noCommand f hf)

theorem keys_schemasBlock (m : Module) : keys (schemasBlock m) = namesOf m := by
  rw [schemasBlock, namesOf, keys, List.map_flatMap]
  exact List.flatMap_congr fun f _ => keys_featureSchemas f

theorem schemas_distinct : (Node.map (schemasBlock m)).Distinct ↔ (namesOf m).Nodup ∧
    ∀ f ∈ m.features, ∀ fields ∈ featureFields f, (fields.map Field.name).Nodup := by
  rw [Node.Distinct.map_iff, keys_schemasBlock, schemasBlock, List.forall_mem_flatMap]
  exact and_congr_right' (forall₂_congr fun f _ => featureSchemas_distinct f)

theorem schemas_refers : (Node.map (schemasBlock m)).Refers text ↔
    ∃ f ∈ m.features, ∃ fields ∈ featureFields f, ∃ field ∈ fields, ∃ name,
      field.typeRef.named = some name ∧ text = schemaRef name := by
  rw [Node.Refers.maps_iff]
  · simp only [schemasBlock, List.mem_flatMap, ← featureSchemas_refers]
    constructor
    · rintro ⟨e, ⟨f, hf, mem⟩, refers⟩
      exact ⟨f, hf, e, mem, refers⟩
    · rintro ⟨f, hf, e, mem, refers⟩
      exact ⟨e, ⟨f, hf, mem⟩, refers⟩
  · intro e mem
    obtain ⟨f, -, mem⟩ := List.mem_flatMap.mp mem
    exact featureSchemas_maps mem

theorem schemasNode_distinct :
    (schemasNode m).Distinct ↔ (Node.map (schemasBlock m)).Distinct := by
  unfold schemasNode
  split
  next empty =>
    rw [empty]
    exact iff_of_true (.flow _) .nil
  · exact Iff.rfl

theorem schemasNode_refers :
    (schemasNode m).Refers text ↔ (Node.map (schemasBlock m)).Refers text := by
  unfold schemasNode
  split
  next empty =>
    rw [empty]
    exact iff_of_false Node.Refers.not_flow Node.Refers.not_nil
  · exact Iff.rfl

theorem info_plain :
    (Node.map (infoBlock m opts)).Distinct ∧ ∀ text, ¬(Node.map (infoBlock m opts)).Refers text := by
  have texts : Within ["title", "version", "x-lazuli-generator"] (fun _ => False)
      (infoBlock m opts) := .text (.text (.text .nil))
  exact texts.whole rfl

theorem responses_plain :
    (Node.map responsesBlock).Distinct ∧ ∀ text, ¬(Node.map responsesBlock).Refers text := by
  have properties : Within ["type", "title", "status", "detail", "instance"] (fun _ => False)
      [kv "type" "{ type: string, format: uri }", kv "title" "{ type: string }",
        kv "status" "{ type: integer }", kv "detail" "{ type: string }",
        kv "instance" "{ type: string }"] := .text (.text (.text (.text (.text .nil))))
  have schema : Within ["type", "required", "properties"] (fun _ => False) [kv "type" "object",
      kv "required" "[type, title, status]", ("properties", .map _)] :=
    .text (.text (within_nested _ properties rfl))
  have content : Within ["content"] (fun _ => False) [("content", .map _)] :=
    within_nested ["application/problem+json"]
      (within_nested ["schema"] (within_nested _ schema rfl) rfl) rfl
  have problem : Within ["description", "content"] (fun _ => False) problemResponse :=
    .text content
  have responses : Within ["Problem"] (fun _ => False) responsesBlock :=
    within_nested _ problem rfl
  exact responses.whole rfl

theorem document_distinct : (Node.map (document m opts)).Distinct ↔
    (Node.map (pathsBlock m opts)).Distinct ∧ (Node.map (schemasBlock m)).Distinct := by
  rw [← schemasNode_distinct, document, kv, Node.Distinct.cons_iff,
    Node.Distinct.cons_iff, Node.Distinct.cons_iff, Node.Distinct.single_iff,
    Node.Distinct.cons_iff, Node.Distinct.single_iff]
  constructor
  · rintro ⟨-, -, -, -, -, paths, -, schemas, -⟩
    exact ⟨paths, schemas⟩
  · rintro ⟨paths, schemas⟩
    exact ⟨by simp [keys], .scalar _, by simp [keys], info_plain.1, by simp [keys], paths,
      by simp [keys], schemas, responses_plain.1⟩

theorem document_refers : (Node.map (document m opts)).Refers text ↔
    (Node.map (pathsBlock m opts)).Refers text ∨ (Node.map (schemasBlock m)).Refers text := by
  rw [← schemasNode_refers, document, kv, Node.Refers.text_iff (by decide),
    Node.Refers.other_iff (by decide), Node.Refers.other_iff (by decide), Node.Refers.inside_iff,
    Node.Refers.other_iff (by decide), Node.Refers.inside_iff]
  constructor
  · rintro (info | paths | schemas | responses)
    · exact absurd info (info_plain.2 text)
    · exact .inl paths
    · exact .inr schemas
    · exact absurd responses (responses_plain.2 text)
  · rintro (paths | schemas)
    · exact .inr (.inl paths)
    · exact .inr (.inr (.inl schemas))

theorem showing_pathsBlock (noCommand : ∀ f ∈ m.features, f.commands = []) {e : String × Node}
    (mem : e ∈ pathsBlock m opts) :
    ∃ f ∈ m.features, Showing (featureTypes opts.strictTypedOnly f) e.2 := by
  obtain ⟨f, hf, mem⟩ := List.mem_flatMap.mp mem
  exact ⟨f, hf, showing_featurePaths (noCommand f hf) mem⟩

theorem paths_distinct (noCommand : ∀ f ∈ m.features, f.commands = []) :
    (Node.map (pathsBlock m opts)).Distinct ↔ (routesOf m opts).Nodup := by
  rw [Node.Distinct.map_iff, keys_pathsBlock noCommand,
    List.nodup_map_iff fun _ _ same => quoteKey_inj same]
  refine and_iff_left fun e mem => ?_
  obtain ⟨f, -, showing⟩ := showing_pathsBlock noCommand mem
  exact showing.distinct

theorem paths_refers (noCommand : ∀ f ∈ m.features, f.commands = [])
    (refers : (Node.map (pathsBlock m opts)).Refers text) :
    text = problemRef ∨ ∃ f ∈ m.features, Shows (featureTypes opts.strictTypedOnly f) text := by
  have maps : ∀ e ∈ pathsBlock m opts, ∃ entries, e.2 = .map entries := fun e mem => by
    obtain ⟨f, -, showing⟩ := showing_pathsBlock noCommand mem
    exact showing.map
  obtain ⟨e, mem, later⟩ := (Node.Refers.maps_iff maps).mp refers
  obtain ⟨f, hf, showing⟩ := showing_pathsBlock noCommand mem
  exact .inr ⟨f, hf, showing.refs text later⟩

/-- Every type is shown somewhere. -/
theorem document_shows {f : Feature} {type : TypeRef} {name : String} (hf : f ∈ m.features)
    (mem : type ∈ featureTypes opts.strictTypedOnly f) (named : type.named = some name) :
    (Node.map (document m opts)).Refers (schemaRef name) := by
  have shown := (schema_refers type (schemaRef name)).mpr ⟨name, named, rfl⟩
  have under {e : String × Node} (mem : e ∈ featurePaths opts.strictTypedOnly f)
      (refers : e.2.Refers (schemaRef name)) :
      (Node.map (pathsBlock m opts)).Refers (schemaRef name) :=
    .under (List.mem_flatMap.mpr ⟨f, hf, mem⟩) refers
  refine document_refers.mpr ?_
  rcases mem_featureTypes.mp mem with ⟨strict, a, ha, rfl⟩ | ⟨w, hw, returns⟩ |
    ⟨fields, hfields, field, hfield, rfl⟩
  · refine .inl (under (e := (quoteKey a.path, .map [(httpMethodName a.method, _)])) ?_
      (Node.Refers.inside_iff.mpr (apiOperation_refers f.name a shown)))
    refine List.mem_append_left _ (List.mem_append_left _ (List.mem_append_right _ ?_))
    rw [strict]
    exact List.mem_flatMap.mpr ⟨a, ha, List.mem_singleton.mpr rfl⟩
  · refine .inl (under (e := emitWebhook f.name w) ?_
      (Node.Refers.inside_iff.mpr (webhookOperation_refers f.name w returns shown)))
    exact List.mem_append_right _ (List.mem_map_of_mem hw)
  · exact .inr (schemas_refers.mpr ⟨f, hf, fields, hfields, field, hfield, name, named, rfl⟩)

theorem defined_problemRef (m : Module) : Defined m problemRef :=
  .inr ⟨"Problem", List.mem_singleton.mpr rfl, rfl⟩

theorem schemaRef_ne_responseRef (name name' : String) :
    schemaRef name ≠ "'#/components/responses/" ++ name' ++ "'" := by
  have schemas : "'#/components/schemas/".toList =
      "'#/components/".toList ++ 's' :: "chemas/".toList := by decide
  have responses : "'#/components/responses/".toList =
      "'#/components/".toList ++ 'r' :: "esponses/".toList := by decide
  unfold schemaRef
  intro same
  rw [← String.toList_inj, String.toList_append, String.toList_append,
    String.toList_append, String.toList_append, schemas, responses, List.append_assoc,
    List.append_assoc, List.append_assoc, List.append_assoc] at same
  have parts := List.append_cancel_left same
  rw [List.cons_append, List.cons_append] at parts
  exact absurd (List.cons.inj parts).1 (by decide)

theorem defined_schemaRef_iff {name : String} : Defined m (schemaRef name) ↔ name ∈ namesOf m := by
  unfold Defined
  rw [keys_schemasBlock]
  constructor
  · rintro (⟨name', mem, same⟩ | ⟨name', mem, same⟩)
    · rwa [schemaRef_inj same]
    · exact absurd same (schemaRef_ne_responseRef name name')
  · exact fun mem => .inl ⟨name, mem, rfl⟩

end Document

/-- The operation of an api is the route that serves it. -/
theorem documentedAs_muxApi {strict : Bool} {feature : String} {api : Api}
    {entry : String × Node} (mem : entry ∈ emitApi strict feature api) :
    DocumentedAs entry (muxApi api) := by
  unfold emitApi at mem
  split at mem
  · exact absurd mem List.not_mem_nil
  · have ok : ["'200'", "'4XX'"].filter (fun key => key.toList.take 2 = ['\'', '2']) =
        [statusKey 200] := by decide
    exact ⟨apiOperation feature api, _, List.mem_singleton.mp mem,
      List.mem_append_right _ (List.mem_singleton.mpr rfl), ok⟩

theorem describes_iff (pureRead : String → Command → Bool) (m : Module) (opts : EmitOptions) :
    Describes pureRead m opts ↔ Describable m opts := by
  constructor
  · intro h
    have noCommand : ∀ f ∈ m.features, f.commands = [] := by
      refine fun f hf => List.eq_nil_iff_forall_not_mem.mpr fun c hc => ?_
      obtain ⟨e, mem, documented⟩ := h.commands f hf c hc
      exact not_documentedAs_mux mem documented
    obtain ⟨paths, schemas⟩ := document_distinct.mp h.distinct
    obtain ⟨names, fields⟩ := schemas_distinct.mp schemas
    have types : ∀ f ∈ m.features, ∀ type ∈ featureTypes opts.strictTypedOnly f, ∀ name,
        type.named = some name → name ∈ namesOf m := fun f hf type mem name named =>
      defined_schemaRef_iff.mp (h.defined _ (document_shows hf mem named))
    exact ⟨noCommand, (paths_distinct noCommand).mp paths, names, fields, types⟩
  · intro h
    have defined (f : Feature) (hf : f ∈ m.features) (text : String)
        (shows : Shows (featureTypes opts.strictTypedOnly f) text) : Defined m text := by
      rcases shows with rfl | ⟨type, mem, name, named, rfl⟩
      · exact defined_problemRef m
      · exact defined_schemaRef_iff.mpr (h.types f hf type mem name named)
    refine ⟨?_, fun text refers => ?_, fun f hf c hc => ?_, fun f _ a _ entry mem => ?_⟩
    · exact document_distinct.mpr
        ⟨(paths_distinct h.noCommand).mpr h.routes, schemas_distinct.mpr ⟨h.names, h.fields⟩⟩
    · rcases document_refers.mp refers with paths | schemas
      · rcases paths_refers h.noCommand paths with rfl | ⟨f, hf, shows⟩
        · exact defined_problemRef m
        · exact defined f hf text shows
      · obtain ⟨f, hf, fields, hfields, field, hfield, named⟩ := schemas_refers.mp schemas
        exact defined f hf text (.inr ⟨field.typeRef,
          mem_featureTypes.mpr (.inr (.inr ⟨fields, hfields, field, hfield, rfl⟩)), named⟩)
    · rw [h.noCommand f hf] at hc
      exact absurd hc List.not_mem_nil
    · exact documentedAs_muxApi mem

/-- A command that updates: `PATCH /api/billing/reassign` in the document, and
`POST /api/v1/c/billing.reassign` on the server. -/
def reassignModule : Module :=
  { features := [{ name := "billing", commands := [{ name := "reassign", kind := .update }] }] }

theorem reassign_undescribed :
    Separate reassignModule ∧ ¬Describes (fun _ _ => false) reassignModule {} := by
  refine ⟨⟨List.nodup_nil, fun f hf => ?_⟩, fun h => ?_⟩
  · rw [List.mem_singleton.mp hf]
    exact List.nodup_singleton _
  · obtain ⟨e, mem, documented⟩ :=
      h.commands _ (List.mem_singleton.mpr rfl) _ (List.mem_singleton.mpr rfl)
    exact not_documentedAs_mux mem documented

end Lazuli.OpenApi
