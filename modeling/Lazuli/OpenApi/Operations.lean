import Mathlib.Data.List.Nodup
import Lazuli.OpenApi.Emit

/-!
What the schemas and operations of a document hold: no key twice, and references to the types that
they show.

A schema is a few texts, one reference, or a list of such; an operation has each of its keys at
most once, whatever is left out of it.
-/

namespace Lazuli.OpenApi

open General Yaml
open Ir (CapabilityRef EnumDecl PolicyRef QualifiedName)

/-! ### Schemas -/

/-- The name in a type, if it refers to one. -/
def TypeRef.named : TypeRef → Option String
  | .userDefined name | .enumRef name => some name.name
  | .many inner => inner.named
  | .builtin _ | .capability _ | .unresolved _ => none

theorem within_optional {α : Type} {allowed : String → Prop} {entry : α → String × Node}
    {value : Option α} {key : String} (h : ∀ a, Within [key] allowed [entry a]) :
    Within [key] allowed (optional entry value) := by
  cases value with
  | none => exact .nil
  | some a => exact h a

def schemaKeys : List String := ["type", "format", "x-lazuli-capability", "x-lazuli-unresolved"]

/-- A schema that is no list: texts without a reference, or a reference. -/
def Flat (type : TypeRef) : Prop :=
  Within schemaKeys (fun _ => False) (emitSchemaInline type) ∧ type.named = none ∨
    ∃ name, emitSchemaInline type = [kv "$ref" (schemaRef name)] ∧ type.named = some name

theorem flat_builtin (b : BuiltinType) : Flat (.builtin b) := by
  refine .inl ⟨?_, rfl⟩
  rw [emitSchemaInline]
  cases (builtinToOpenapi b).2 with
  | none => exact .text .nil
  | some format => exact .text (.text .nil)

theorem flat_capability (cap : CapabilityRef) : Flat (.capability cap) := by
  refine .inl ⟨?_, rfl⟩
  cases cap with
  | file => exact .text (.text (.text .nil))
  | pii | hashed | encrypted | e2ee | token => exact .text (.skip (.text .nil))

theorem flat_unresolved (s : String) : Flat (.unresolved s) :=
  .inl ⟨.text (.skip (.skip (.text .nil))), rfl⟩

theorem flat_named (name : QualifiedName) :
    Flat (.userDefined name) ∧ Flat (.enumRef name) :=
  ⟨.inr ⟨name.name, rfl, rfl⟩, .inr ⟨name.name, rfl, rfl⟩⟩

/-- What holds of schemas that are no lists, and of a list with its items, holds of all. -/
theorem schema_induction {motive : TypeRef → Prop} (flat : ∀ type, Flat type → motive type)
    (many : ∀ inner, motive inner → motive (.many inner)) (type : TypeRef) : motive type := by
  induction type with
  | builtin b => exact flat _ (flat_builtin b)
  | userDefined name => exact flat _ (flat_named name).1
  | enumRef name => exact flat _ (flat_named name).2
  | many inner ih => exact many inner ih
  | capability cap => exact flat _ (flat_capability cap)
  | unresolved s => exact flat _ (flat_unresolved s)

theorem schema_distinct (type : TypeRef) : (Node.map (emitSchemaInline type)).Distinct := by
  induction type using schema_induction with
  | flat type flat =>
      rcases flat with ⟨texts, -⟩ | ⟨name, same, -⟩
      · exact (texts.whole rfl).1
      · rw [same]
        exact Node.Distinct.single_iff.mpr (.scalar _)
  | many inner ih =>
      exact Node.Distinct.cons_iff.mpr
        ⟨by simp [keys], .scalar _, Node.Distinct.single_iff.mpr ih⟩

/-- A schema refers to what its type names. -/
theorem schema_refers (type : TypeRef) (text : String) :
    (Node.map (emitSchemaInline type)).Refers text ↔
      ∃ name, type.named = some name ∧ text = schemaRef name := by
  induction type using schema_induction with
  | flat type flat =>
      rcases flat with ⟨texts, unnamed⟩ | ⟨name, same, named⟩
      · refine iff_of_false ((texts.whole rfl).2 text) ?_
        rintro ⟨name, named, -⟩
        cases unnamed.symm.trans named
      · rw [same, Node.Refers.map_iff]
        constructor
        · rintro (mem | ⟨e, mem, later⟩)
          · cases List.mem_singleton.mp mem
            exact ⟨name, named, rfl⟩
          · rw [List.mem_singleton.mp mem] at later
            exact absurd later Node.Refers.not_scalar
        · rintro ⟨name', named', rfl⟩
          cases named.symm.trans named'
          exact .inl (List.mem_singleton.mpr rfl)
  | many inner ih =>
      rw [TypeRef.named, ← ih]
      exact (Node.Refers.text_iff (by decide)).trans Node.Refers.inside_iff

theorem content_iff (type : TypeRef) (text : String) :
    (jsonContent (emitSchemaInline type)).2.Refers text ↔
      ∃ name, type.named = some name ∧ text = schemaRef name :=
  (Node.Refers.inside_iff.trans Node.Refers.inside_iff).trans (schema_refers type text)

theorem content_distinct {schema : Block} (distinct : (Node.map schema).Distinct) :
    (jsonContent schema).2.Distinct :=
  Node.Distinct.single_iff.mpr (Node.Distinct.single_iff.mpr distinct)

theorem nullable_notMem (type : TypeRef) : "nullable" ∉ keys (emitSchemaInline type) := by
  induction type using schema_induction with
  | flat type flat =>
      rcases flat with ⟨texts, -⟩ | ⟨name, same, -⟩
      · intro mem
        exact absurd (texts.sublist.subset mem) (by decide)
      · rw [same]
        simp [keys, kv]
  | many inner _ => simp [keys, emitSchemaInline, kv]

theorem field_distinct (f : Field) : (emitField f).2.Distinct := by
  unfold emitField
  split
  · rw [List.append_nil]
    exact schema_distinct f.typeRef
  · refine (schema_distinct f.typeRef).append (Node.Distinct.single_iff.mpr (.scalar _)) ?_
    intro key mem nullable
    rw [List.mem_singleton.mp nullable] at mem
    exact nullable_notMem f.typeRef mem

theorem field_refers (f : Field) (text : String) :
    (emitField f).2.Refers text ↔ ∃ name, f.typeRef.named = some name ∧ text = schemaRef name := by
  rw [← schema_refers]
  unfold emitField
  split
  · rw [List.append_nil]
  · refine Node.Refers.append_iff.trans (or_iff_left ?_)
    exact fun refers => Node.Refers.not_nil ((Node.Refers.text_iff (by decide)).mp refers)

/-- The schema of a resource or of a record. -/
theorem fields_distinct (fields : List Field) :
    (Node.map [kv "type" "object", ("properties", .map (fields.map emitField))]).Distinct ↔
      (fields.map Field.name).Nodup := by
  have names : keys (fields.map emitField) = fields.map Field.name := by
    rw [keys, List.map_map]
    rfl
  rw [kv, Node.Distinct.cons_iff, Node.Distinct.single_iff, Node.Distinct.map_iff, names]
  constructor
  · exact fun h => h.2.2.1
  · exact fun nodup => ⟨by simp [keys], .scalar _, nodup,
      List.forall_mem_map.mpr fun f _ => field_distinct f⟩

theorem fields_refers (fields : List Field) (text : String) :
    (Node.map [kv "type" "object", ("properties", .map (fields.map emitField))]).Refers text ↔
      ∃ f ∈ fields, ∃ name, f.typeRef.named = some name ∧ text = schemaRef name := by
  refine (Node.Refers.text_iff (by decide)).trans (Node.Refers.inside_iff.trans ?_)
  rw [Node.Refers.maps_iff (List.forall_mem_map.mpr fun f _ => ⟨_, rfl⟩)]
  constructor
  · rintro ⟨e, mem, later⟩
    obtain ⟨f, hf, rfl⟩ := List.mem_map.mp mem
    exact ⟨f, hf, (field_refers f text).mp later⟩
  · rintro ⟨f, hf, named⟩
    exact ⟨_, List.mem_map_of_mem hf, (field_refers f text).mpr named⟩

theorem enum_plain (e : EnumDecl) :
    (emitEnumSchema e).2.Distinct ∧ ∀ text, ¬(emitEnumSchema e).2.Refers text := by
  have texts : Within ["type", "enum"] (fun _ => False)
      [kv "type" "string", kv "enum" (commaList (e.variants.map (·.name)))] := .text (.text .nil)
  exact texts.whole rfl

/-! ### Operations -/

def problemRef : String := "'#/components/responses/Problem'"

/-- What an operation that shows values of these types may refer to. -/
def Shows (types : List TypeRef) (text : String) : Prop :=
  text = problemRef ∨ ∃ type ∈ types, ∃ name, type.named = some name ∧ text = schemaRef name

section Within

variable {allowed : String → Prop} {ks : List String} {key description : String} {block : Block}

variable (ks) in
/-- An entry with a mapping of its own. -/
theorem within_nested (h : Within ks allowed block) (proper : proper ks = true) :
    Within [key] allowed [(key, .map block)] :=
  Within.nil.cons (h.whole proper).1 (h.whole proper).2

variable (key) in
theorem within_response (h : Within ["content"] allowed block) :
    Within [key] allowed [response key description block] :=
  within_nested _ (.text h) rfl

variable (key) in
theorem within_problem {types : List TypeRef} : Within [key] (Shows types) [problem key] := by
  refine Within.nil.cons (Node.Distinct.single_iff.mpr (.scalar _)) fun text refers => ?_
  rcases Node.Refers.cons_iff.mp refers with same | here | later
  · exact .inl (Node.scalar.inj (congrArg Prod.snd same))
  · exact absurd here Node.Refers.not_scalar
  · exact absurd later Node.Refers.not_nil

theorem within_content {types : List TypeRef} {type : TypeRef} (mem : type ∈ types) :
    Within ["content"] (Shows types) [jsonContent (emitSchemaInline type)] :=
  Within.nil.cons (content_distinct (schema_distinct type)) fun text refers =>
    .inr ⟨type, mem, (content_iff type text).mp refers⟩

theorem within_head (id feature kind : String) :
    Within ["operationId", "x-lazuli-feature", "x-lazuli-kind"] allowed
      (operationHead id feature kind) := .text (.text (.text .nil))

def deprecationKeys : List String :=
  ["deprecated", "x-lazuli-deprecated-since", "x-lazuli-deprecated-replacement",
    "x-lazuli-deprecated-sunset"]

theorem within_deprecation (feature : String) (dep : Option Deprecation) :
    Within deprecationKeys allowed (dep.toList.flatMap (emitDeprecation feature)) := by
  cases dep with
  | none => exact .nil
  | some dep =>
      rw [Option.toList_some, List.flatMap_singleton]
      have since : Within ["deprecated", "x-lazuli-deprecated-since"] allowed
          (kv "deprecated" "true" :: optional (kvQuoted "x-lazuli-deprecated-since") dep.since) :=
        .text (within_optional fun _ => .text .nil)
      have replacement : Within ["x-lazuli-deprecated-replacement"] allowed
          (optional (fun rep => kvQuoted "x-lazuli-deprecated-replacement"
            (renderDeprecationReplacement feature rep)) dep.replacement) :=
        within_optional fun _ => .text .nil
      exact (since.append replacement).append (within_optional fun _ => .text .nil)

theorem within_policy (policy : PolicyRef) :
    Within ["x-lazuli-policy"] allowed (emitPolicy policy) := .ite (.text .nil)

end Within

def apiKeys : List String :=
  ["operationId", "x-lazuli-feature", "x-lazuli-kind"] ++ ["x-lazuli-rate-limit"] ++
    deprecationKeys ++ ["x-lazuli-policy"] ++ ["responses"]

theorem within_apiOperation (feature : String) (api : Api) :
    Within apiKeys (Shows [api.output]) (apiOperation feature api) := by
  have ok : Within ["'200'"] (Shows [api.output])
      [response "'200'" "ok" [jsonContent (emitSchemaInline api.output)]] :=
    within_response _ (within_content (List.mem_singleton.mpr rfl))
  have responses : Within ["responses"] (Shows [api.output]) [("responses", _)] :=
    within_nested _ (ok.append (within_problem "'4XX'")) rfl
  have limit : Within ["x-lazuli-rate-limit"] (Shows [api.output])
      (optional (kvQuoted "x-lazuli-rate-limit") api.rateLimit) :=
    within_optional fun _ => .text .nil
  exact ((((within_head _ feature "api").append limit).append
    (within_deprecation feature api.deprecated)).append (within_policy api.policy)).append responses

theorem apiOperation_refers (feature : String) (api : Api) {text : String}
    (shown : (Node.map (emitSchemaInline api.output)).Refers text) :
    (Node.map (apiOperation feature api)).Refers text := by
  have content : (jsonContent (emitSchemaInline api.output)).2.Refers text :=
    Node.Refers.inside_iff.mpr (Node.Refers.inside_iff.mpr shown)
  refine .under (e := ("responses", _)) (List.mem_append_right _ (List.mem_singleton.mpr rfl)) ?_
  refine .under (e := response "'200'" "ok" _) List.mem_cons_self ?_
  exact .under (e := jsonContent _) (.tail _ (.head _)) content

def agentKeys : List String :=
  ["operationId", "x-lazuli-feature", "x-lazuli-kind"] ++ ["responses"]

theorem within_agentOperation (feature agent : String) :
    Within agentKeys (Shows []) (agentOperation feature agent) :=
  (within_head _ feature "agent").append
    (within_nested _ (within_response "'200'" .nil) rfl)

def webhookKeys : List String :=
  ["operationId", "x-lazuli-feature", "x-lazuli-kind"] ++
    ["x-lazuli-webhook", "x-lazuli-handler", "x-lazuli-verify", "x-lazuli-verify-path"] ++
    ["x-lazuli-tenant-from"] ++ ["x-lazuli-idempotency-by"] ++ ["x-lazuli-policy"] ++
    ["x-lazuli-emits"] ++ ["x-lazuli-payload-from"] ++ ["x-lazuli-retry"] ++
    ["x-lazuli-replay"] ++ ["x-lazuli-dlq"] ++ ["requestBody", "responses"]

section Webhook

variable {allowed : String → Prop}

theorem within_webhookVerify (webhook : Webhook) :
    Within ["x-lazuli-verify", "x-lazuli-verify-path"] allowed [emitWebhookVerify webhook] := by
  unfold emitWebhookVerify
  split
  next verify _ =>
    have spec : Within ["scheme", "algorithm", "secret_env", "header"] allowed
        [kv "scheme" (verifySchemeLiteral verify.scheme), kvQuoted "algorithm" verify.algorithm,
          kvQuoted "secret_env" verify.secretEnv, kvQuoted "header" verify.header] :=
      .text (.text (.text (.text .nil)))
    exact (within_nested _ spec rfl).append .nil
  · split
    · exact .text .nil
    · exact .skip (.text .nil)

theorem within_retry (retry : RetryPolicy) :
    Within ["x-lazuli-retry"] allowed [emitRetry retry] :=
  within_nested ["count", "backoff"] (.text (.text .nil)) rfl

theorem within_replay (replay : ReplaySpec) :
    Within ["x-lazuli-replay"] allowed [emitReplay replay] := by
  have mode : Within ["mode", "within"] allowed (kv "mode" (replayModeLiteral replay.mode) ::
      optional (kvQuoted "within") replay.within) := .text (within_optional fun _ => .text .nil)
  have dedupe : Within ["dedupe_by"] allowed
      (optional (fun path => kvQuoted "dedupe_by" path.text) replay.dedupeBy) :=
    within_optional fun _ => .text .nil
  exact within_nested _ (mode.append dedupe) rfl

theorem within_dlq (dlq : DlqSpec) : Within ["x-lazuli-dlq"] allowed [emitDlq dlq] := by
  have nested {key v v' : String} (keys : proper ["kind", key] = true) :
      Within ["x-lazuli-dlq"] allowed
        [("x-lazuli-dlq", .map [kv "kind" v, kvQuoted key v'])] :=
    within_nested _ (.text (.text .nil)) keys
  cases dlq with
  | emit event => exact nested rfl
  | handler path => exact nested rfl
  | drop reason => exact nested rfl

end Webhook

/-- What a webhook answers with. -/
theorem within_returns (returns : Option TypeRef) :
    Within ["content"] (Shows returns.toList)
      (optional (fun type => jsonContent (emitSchemaInline type)) returns) := by
  cases returns with
  | none => exact .nil
  | some type => exact within_content (List.mem_singleton.mpr rfl)

theorem within_requestBody {allowed : String → Prop} :
    Within ["requestBody"] allowed [emitRequestBody [kv "type" "object"]] := by
  have plain : Within ["type"] allowed [kv "type" "object"] := .text .nil
  have content : Within ["content"] allowed [jsonContent [kv "type" "object"]] :=
    within_nested _ (within_nested _ (within_nested _ plain rfl) rfl) rfl
  exact within_nested _ (.text content) rfl

theorem within_webhookOperation (feature : String) (webhook : Webhook) :
    Within webhookKeys (Shows webhook.returns.toList) (webhookOperation feature webhook) := by
  have accepted : Within ["'200'"] (Shows webhook.returns.toList)
      [response "'200'" "accepted" _] := within_response _ (within_returns webhook.returns)
  have responses : Within ["responses"] (Shows webhook.returns.toList) [("responses", _)] :=
    within_nested _ ((accepted.append (within_problem "'4XX'")).append (within_problem "'5XX'")) rfl
  have ends := within_requestBody.append responses
  have named : Within ["x-lazuli-webhook", "x-lazuli-handler", "x-lazuli-verify",
      "x-lazuli-verify-path"] (Shows webhook.returns.toList)
      [kvQuoted "x-lazuli-webhook" webhook.name, kvQuoted "x-lazuli-handler" webhook.handler,
        emitWebhookVerify webhook] := .text (.text (within_webhookVerify webhook))
  have policy : Within ["x-lazuli-policy"] (Shows webhook.returns.toList)
      (webhook.policy.toList.flatMap emitPolicy) := by
    cases webhook.policy with
    | none => exact .nil
    | some policy =>
        rw [Option.toList_some, List.flatMap_singleton]
        exact within_policy policy
  have emits : Within ["x-lazuli-emits"] (Shows webhook.returns.toList)
      (if webhook.emits = [] then [] else [kv "x-lazuli-emits" (quotedList webhook.emits)]) :=
    .ite (.text .nil)
  exact (((((((((((within_head _ feature "webhook").append named).append
    (within_optional fun _ => .text .nil)).append (within_optional fun _ => .text .nil)).append
    policy).append emits).append (within_optional fun _ => .text .nil)).append
    (within_optional within_retry)).append (within_optional within_replay)).append
    (within_optional within_dlq)).append ends)

theorem webhookOperation_refers (feature : String) (webhook : Webhook) {type : TypeRef}
    {text : String} (returns : webhook.returns = some type)
    (shown : (Node.map (emitSchemaInline type)).Refers text) :
    (Node.map (webhookOperation feature webhook)).Refers text := by
  have content : (jsonContent (emitSchemaInline type)).2.Refers text :=
    Node.Refers.inside_iff.mpr (Node.Refers.inside_iff.mpr shown)
  refine .under (e := ("responses", _))
    (List.mem_append_right _ (.tail _ (List.mem_singleton.mpr rfl))) ?_
  refine .under (e := response "'200'" "accepted" _) List.mem_cons_self ?_
  refine .under (e := jsonContent (emitSchemaInline type)) (.tail _ ?_) content
  rw [returns]
  exact List.mem_singleton.mpr rfl

/-! ### Entries of paths -/

/-- An entry of an operation that shows values of these types. -/
structure Showing (types : List TypeRef) (node : Node) : Prop where
  map : ∃ entries, node = .map entries
  distinct : node.Distinct
  refs : ∀ text, node.Refers text → Shows types text

theorem Shows.mono {types types' : List TypeRef} {text : String} (sub : types ⊆ types')
    (h : Shows types text) : Shows types' text :=
  h.imp_right fun ⟨type, mem, named⟩ => ⟨type, sub mem, named⟩

theorem Showing.mono {types types' : List TypeRef} {node : Node} (sub : types ⊆ types')
    (h : Showing types node) : Showing types' node :=
  { h with refs := fun text refers => (h.refs text refers).mono sub }

theorem showing_of_within {types : List TypeRef} {ks : List String} {operation : Block}
    {method : String} (h : Within ks (Shows types) operation) (proper : proper ks = true) :
    Showing types (.map [(method, .map operation)]) where
  map := ⟨_, rfl⟩
  distinct := Node.Distinct.single_iff.mpr (h.whole proper).1
  refs text refers := (h.whole proper).2 text (Node.Refers.inside_iff.mp refers)

theorem showing_api {strict : Bool} {feature : String} {api : Api} {entry : String × Node}
    (mem : entry ∈ emitApi strict feature api) : Showing [api.output] entry.2 := by
  unfold emitApi at mem
  split at mem
  · exact absurd mem List.not_mem_nil
  · rw [List.mem_singleton.mp mem]
    exact showing_of_within (within_apiOperation feature api) rfl

theorem showing_agent (feature agent : String) (expose : HttpExposure) :
    Showing [] (emitAgentExpose feature agent expose).2 :=
  showing_of_within (within_agentOperation feature agent) rfl

theorem showing_webhook (feature : String) (webhook : Webhook) :
    Showing webhook.returns.toList (emitWebhook feature webhook).2 :=
  showing_of_within (within_webhookOperation feature webhook) rfl

end Lazuli.OpenApi
