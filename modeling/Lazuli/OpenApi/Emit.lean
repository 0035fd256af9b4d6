import Lazuli.Codegen.Schema
import Lazuli.General.Yaml

/-!
The OpenAPI document of a module (`crates/lazuli_openapi/src`).

Each emitter writes one entry of a mapping: an operation of a command, an api, an exposed agent or
a webhook under its path, a schema under the name of its declaration. Nothing merges entries that
have one key. `emit` is the text of `document`.
-/

namespace Lazuli.OpenApi

open General Yaml
open Ir (CapabilityRef EnumDecl Path PolicyRef QualifiedName)

/-! ### What is read of a module -/

inductive BuiltinType where
  | id
  | text
  | boolean
  | integer
  | decimal
  | date
  | dateTime
  | json
  | semanticEmail
  | semanticMoney
  | semanticPhone
  | semanticUrl
  | semanticUuid
  | semanticCurrency
  | semanticGeoPoint
  | semanticHexColor
  | semanticPercentage
  | semanticPositiveDecimal
  | semanticNonNegativeInt
  | semanticPluginType (carrier : BuiltinType)
  | capSecret
  | capFile

inductive TypeRef where
  | builtin (type : BuiltinType)
  | userDefined (name : QualifiedName)
  | enumRef (name : QualifiedName)
  | many (inner : TypeRef)
  | capability (cap : CapabilityRef)
  | unresolved (text : String)

structure Field where
  name : String
  typeRef : TypeRef
  required : Bool

structure Resource where
  name : String
  fields : List Field := []

structure Record where
  name : String
  fields : List Field := []

structure RouteSlot where
  name : String
  typeRef : TypeRef

structure TypedSlot where
  name : String
  typeRef : TypeRef
  required : Bool

inductive CommandInput where
  | short (fields : List String)
  | typed (slots : List TypedSlot)
  | empty

inductive CommandKind where
  | create
  | update
  | delete
  | returns
  | reorder

/-- Of an effect the resource that it answers with, or the type. -/
inductive CommandEffect where
  | creates (resource : QualifiedName)
  | updates (resource : QualifiedName)
  | deletes
  | returns (type : TypeRef)
  | reorders
  | none

structure AuditSpec where
  subjects : List String
  emitTo : Option String

inductive ApprovalThen where
  | deny
  | allow
  | escalate

structure ApprovalSpec where
  requiredWhen : Option String
  approver : String
  otherwise : ApprovalThen

inductive DeprecationReplacement where
  | localCommand (name : String)
  | localApi (name : String)
  | qualified (name : QualifiedName)
  | qualifiedApi (name : QualifiedName)
  | url (url : String)

structure Deprecation where
  since : Option String
  replacement : Option DeprecationReplacement
  sunset : Option String

/-- `rateLimit` is the default limit. -/
structure Command where
  name : String
  kind : CommandKind
  route : List RouteSlot := []
  input : CommandInput := .empty
  effect : CommandEffect := .none
  policy : PolicyRef := .none
  emits : List String := []
  rateLimit : Option String := none
  audit : Option AuditSpec := none
  approval : Option ApprovalSpec := none
  deprecated : Option Deprecation := none

inductive HttpMethod where
  | get
  | post
  | put
  | patch
  | delete

structure Api where
  name : String
  method : HttpMethod
  path : String
  policy : PolicyRef := .none
  rateLimit : Option String := none
  output : TypeRef
  deprecated : Option Deprecation := none

structure HttpExposure where
  method : HttpMethod
  path : String

structure Agent where
  name : String
  exposeHttp : Option HttpExposure := none

inductive VerifyScheme where
  | hmac

structure VerifySpec where
  scheme : VerifyScheme
  algorithm : String
  secretEnv : String
  header : String

inductive BackoffStrategy where
  | fixed
  | exponential

structure RetryPolicy where
  count : Nat
  backoff : BackoffStrategy

inductive ReplayMode where
  | allow
  | deny

structure ReplaySpec where
  mode : ReplayMode
  within : Option String
  dedupeBy : Option Path

inductive DlqSpec where
  | emit (event : String)
  | handler (path : String)
  | drop (reason : String)

/-- `verify` and `handler` are paths of files. -/
structure Webhook where
  name : String
  route : String
  verify : String
  structuredVerify : Option VerifySpec := none
  tenantFrom : Option Path := none
  idempotency : Option Path := none
  policy : Option PolicyRef := none
  handler : String
  returns : Option TypeRef := none
  emits : List String := []
  payloadFrom : Option String := none
  replay : Option ReplaySpec := none
  dlq : Option DlqSpec := none
  retry : Option RetryPolicy := none

structure Feature where
  name : String
  resources : List Resource := []
  records : List Record := []
  enums : List EnumDecl := []
  commands : List Command := []
  apis : List Api := []
  agents : List Agent := []
  webhooks : List Webhook := []

structure Module where
  app : Option String := none
  features : List Feature

structure EmitOptions where
  apiVersion : Option String := none
  strictTypedOnly : Bool := false

/-! ### Entries -/

def quoteKey (k : String) : String :=
  if ' ' ∈ k.toList ∨ ':' ∈ k.toList then "\"" ++ k ++ "\"" else k

def quoteValue (v : String) : String :=
  "\"" ++ String.ofList (v.toList.flatMap fun c => if c = '"' then ['\\', '"'] else [c]) ++ "\""

def kv (k v : String) : String × Node := (k, .scalar v)

def kvQuoted (k v : String) : String × Node := kv k (quoteValue v)

/-- An entry that is left out when there is nothing to write. -/
def optional {α : Type} (entry : α → String × Node) (value : Option α) : Block :=
  value.toList.map entry

def commaList (values : List String) : String := "[" ++ ", ".intercalate values ++ "]"

def quotedList (values : List String) : String := commaList (values.map quoteValue)

/-! ### Schemas -/

def builtinToOpenapi : BuiltinType → String × Option String
  | .text => ("string", none)
  | .integer => ("integer", none)
  | .decimal => ("number", none)
  | .boolean => ("boolean", none)
  | .id => ("string", some "uuid")
  | .dateTime => ("string", some "date-time")
  | .date => ("string", some "date")
  | .json => ("object", none)
  | .semanticEmail => ("string", some "email")
  | .semanticPhone => ("string", none)
  | .semanticUrl => ("string", some "uri")
  | .semanticUuid => ("string", some "uuid")
  | .semanticMoney => ("number", none)
  | .semanticCurrency => ("string", none)
  | .semanticHexColor => ("string", none)
  | .semanticPercentage => ("number", none)
  | .semanticPositiveDecimal => ("number", none)
  | .semanticNonNegativeInt => ("integer", none)
  | .semanticGeoPoint => ("object", none)
  | .semanticPluginType carrier => builtinToOpenapi carrier
  | .capSecret => ("string", none)
  | .capFile => ("string", some "binary")

def capabilityName : CapabilityRef → String
  | .file => "File"
  | .pii => "PII"
  | .hashed => "Hashed"
  | .encrypted => "Encrypted"
  | .e2ee => "E2ee"
  | .token => "Token"

def schemaRef (name : String) : String := "'#/components/schemas/" ++ name ++ "'"

def emitSchemaInline : TypeRef → Block
  | .builtin b =>
      kv "type" (builtinToOpenapi b).1 :: optional (kv "format") (builtinToOpenapi b).2
  | .userDefined name => [kv "$ref" (schemaRef name.name)]
  | .enumRef name => [kv "$ref" (schemaRef name.name)]
  | .many inner => [kv "type" "array", ("items", .map (emitSchemaInline inner))]
  | .capability .file =>
      [kv "type" "string", kv "format" "binary", kv "x-lazuli-capability" "File"]
  | .capability cap => [kv "type" "string", kv "x-lazuli-capability" (capabilityName cap)]
  | .unresolved s => [kv "type" "string", kv "x-lazuli-unresolved" (quoteValue s)]

def emitCommandInputSchema : CommandInput → Block
  | .empty => []
  | .short fields =>
      [kv "type" "object",
        ("properties", .map (fields.map fun f => (f, .map [kv "type" "string"])))]
  | .typed slots =>
      let required := (slots.filter TypedSlot.required).map TypedSlot.name
      kv "type" "object" ::
        (if required = [] then [] else [kv "required" (commaList required)]) ++
        [("properties", .map (slots.map fun s => (s.name, .map (emitSchemaInline s.typeRef))))]

def emitField (f : Field) : String × Node :=
  (f.name, .map (emitSchemaInline f.typeRef ++ if f.required then [] else [kv "nullable" "true"]))

def emitResourceSchema (r : Resource) : String × Node :=
  (r.name, .map [kv "type" "object", ("properties", .map (r.fields.map emitField))])

def emitRecordSchema (r : Record) : String × Node :=
  (r.name, .map [kv "type" "object", ("properties", .map (r.fields.map emitField))])

def emitEnumSchema (e : EnumDecl) : String × Node :=
  (e.name, .map [kv "type" "string", kv "enum" (commaList (e.variants.map (·.name)))])

/-! ### Extensions -/

def approvalThenLiteral : ApprovalThen → String
  | .deny => "deny"
  | .allow => "allow"
  | .escalate => "escalate"

def emitApproval (approval : ApprovalSpec) : String × Node :=
  ("x-lazuli-approval", .map
    [kv "then" (approvalThenLiteral approval.otherwise), kvQuoted "by" approval.approver,
      kvQuoted "reason" (approval.requiredWhen.getD "")])

def verifySchemeLiteral : VerifyScheme → String
  | .hmac => "hmac"

def emitVerify (verify : VerifySpec) : String × Node :=
  ("x-lazuli-verify", .map
    [kv "scheme" (verifySchemeLiteral verify.scheme), kvQuoted "algorithm" verify.algorithm,
      kvQuoted "secret_env" verify.secretEnv, kvQuoted "header" verify.header])

def backoffLiteral : BackoffStrategy → String
  | .fixed => "fixed"
  | .exponential => "exponential"

def emitRetry (retry : RetryPolicy) : String × Node :=
  ("x-lazuli-retry", .map
    [kv "count" (toString retry.count), kv "backoff" (backoffLiteral retry.backoff)])

def replayModeLiteral : ReplayMode → String
  | .allow => "allow"
  | .deny => "deny"

def emitReplay (replay : ReplaySpec) : String × Node :=
  ("x-lazuli-replay", .map
    (kv "mode" (replayModeLiteral replay.mode) :: optional (kvQuoted "within") replay.within ++
      optional (fun path => kvQuoted "dedupe_by" path.text) replay.dedupeBy))

def emitDlq : DlqSpec → String × Node
  | .emit event => ("x-lazuli-dlq", .map [kv "kind" "emit", kvQuoted "event" event])
  | .handler path => ("x-lazuli-dlq", .map [kv "kind" "handler", kvQuoted "path" path])
  | .drop reason => ("x-lazuli-dlq", .map [kv "kind" "drop", kvQuoted "reason" reason])

/-! ### Parts of operations -/

def httpMethodName : HttpMethod → String
  | .get => "get"
  | .post => "post"
  | .put => "put"
  | .patch => "patch"
  | .delete => "delete"

def renderPolicy : PolicyRef → String
  | .none => ""
  | .localRef name => "@policy." ++ name
  | .atom a => a
  | .external feature name => feature ++ ".policy." ++ name
  | .unresolved s => s

def renderDeprecationReplacement (feature : String) : DeprecationReplacement → String
  | .localCommand name => feature ++ ".command." ++ name
  | .localApi name => feature ++ ".api." ++ name
  | .qualified name =>
      match name.feature with
      | some feature => feature ++ ".command." ++ name.name
      | none => "command." ++ name.name
  | .qualifiedApi name =>
      match name.feature with
      | some feature => feature ++ ".api." ++ name.name
      | none => "api." ++ name.name
  | .url u => u

/-- The entries in front of every operation. -/
def operationHead (id feature kind : String) : Block :=
  [kv "operationId" id, kv "x-lazuli-feature" feature, kv "x-lazuli-kind" kind]

def emitDeprecation (feature : String) (dep : Deprecation) : Block :=
  kv "deprecated" "true" :: optional (kvQuoted "x-lazuli-deprecated-since") dep.since ++
    optional (fun rep => kvQuoted "x-lazuli-deprecated-replacement"
      (renderDeprecationReplacement feature rep)) dep.replacement ++
    optional (kvQuoted "x-lazuli-deprecated-sunset") dep.sunset

def emitPolicy (policy : PolicyRef) : Block :=
  if renderPolicy policy = "" then [] else [kvQuoted "x-lazuli-policy" (renderPolicy policy)]

def jsonContent (schema : Block) : String × Node :=
  ("content", .map [("application/json", .map [("schema", .map schema)])])

def problem (status : String) : String × Node :=
  (status, .map [kv "$ref" "'#/components/responses/Problem'"])

def response (status description : String) (content : Block) : String × Node :=
  (status, .map (kv "description" description :: content))

/-! ### Operations -/

def commandPath (feature : String) (cmd : Command) : String :=
  "/api/" ++ feature ++ "/" ++ cmd.name ++
    String.join (cmd.route.map fun slot => "/\x7b" ++ slot.name ++ "\x7d")

def commandMethod (cmd : Command) : String :=
  match cmd.kind with
  | .create => "post"
  | .update => "patch"
  | .delete => "delete"
  | .returns => "post"
  | .reorder => "patch"

def commandResponse : CommandEffect → String × Node
  | .creates resource =>
      response "'201'" "created" [jsonContent [kv "$ref" (schemaRef resource.name)]]
  | .updates resource =>
      response "'200'" "updated" [jsonContent [kv "$ref" (schemaRef resource.name)]]
  | .deletes => response "'204'" "deleted" []
  | .returns type => response "'200'" "ok" [jsonContent (emitSchemaInline type)]
  | .reorders | .none => response "'200'" "ok" []

def emitParameter (slot : RouteSlot) : Block :=
  [kv "name" slot.name, kv "in" "path", kv "required" "true",
    ("schema", .map (emitSchemaInline slot.typeRef))]

def emitRequestBody (schema : Block) : String × Node :=
  ("requestBody", .map [kv "required" "true", jsonContent schema])

def emitAudit (audit : AuditSpec) : Block :=
  kv "x-lazuli-audit" (quotedList audit.subjects) ::
    optional (kvQuoted "x-lazuli-audit-emit-to") audit.emitTo

def commandOperation (feature : String) (cmd : Command) : Block :=
  operationHead (feature ++ "_" ++ cmd.name) feature "command" ++
    optional (kvQuoted "x-lazuli-rate-limit") cmd.rateLimit ++
    (if cmd.emits = [] then [] else [kv "x-lazuli-emits" (commaList cmd.emits)]) ++
    cmd.audit.toList.flatMap emitAudit ++
    optional emitApproval cmd.approval ++
    cmd.deprecated.toList.flatMap (emitDeprecation feature) ++
    emitPolicy cmd.policy ++
    (if cmd.route.isEmpty then [] else [("parameters", .seq (cmd.route.map emitParameter))]) ++
    (match cmd.input with
      | .empty => []
      | input => [emitRequestBody (emitCommandInputSchema input)]) ++
    [("responses", .map [commandResponse cmd.effect, problem "'4XX'", problem "'5XX'"])]

def emitCommand (feature : String) (cmd : Command) : String × Node :=
  (quoteKey (commandPath feature cmd),
    .map [(commandMethod cmd, .map (commandOperation feature cmd))])

def apiOperation (feature : String) (api : Api) : Block :=
  operationHead (feature ++ "_" ++ api.name) feature "api" ++
    optional (kvQuoted "x-lazuli-rate-limit") api.rateLimit ++
    api.deprecated.toList.flatMap (emitDeprecation feature) ++
    emitPolicy api.policy ++
    [("responses", .map [response "'200'" "ok" [jsonContent (emitSchemaInline api.output)],
      problem "'4XX'"])]

/-- Nothing, in strict mode. -/
def emitApi (strict : Bool) (feature : String) (api : Api) : Block :=
  if strict then []
  else [(quoteKey api.path,
    .map [(httpMethodName api.method, .map (apiOperation feature api))])]

def agentOperation (feature agent : String) : Block :=
  operationHead (feature ++ "_" ++ agent) feature "agent" ++
    [("responses", .map [response "'200'" "agent response" []])]

def emitAgentExpose (feature agent : String) (expose : HttpExposure) : String × Node :=
  (quoteKey expose.path,
    .map [(httpMethodName expose.method, .map (agentOperation feature agent))])

def emitWebhookVerify (webhook : Webhook) : String × Node :=
  match webhook.structuredVerify with
  | some verify => emitVerify verify
  | none =>
      if webhook.verify = "" then kvQuoted "x-lazuli-verify" "none"
      else kvQuoted "x-lazuli-verify-path" webhook.verify

def webhookOperation (feature : String) (webhook : Webhook) : Block :=
  operationHead (feature ++ "_" ++ webhook.name ++ "_webhook") feature "webhook" ++
    [kvQuoted "x-lazuli-webhook" webhook.name, kvQuoted "x-lazuli-handler" webhook.handler,
      emitWebhookVerify webhook] ++
    optional (fun path => kvQuoted "x-lazuli-tenant-from" path.text) webhook.tenantFrom ++
    optional (fun path => kvQuoted "x-lazuli-idempotency-by" path.text) webhook.idempotency ++
    webhook.policy.toList.flatMap emitPolicy ++
    (if webhook.emits = [] then [] else [kv "x-lazuli-emits" (quotedList webhook.emits)]) ++
    optional (fun event => kvQuoted "x-lazuli-payload-from" ("webhook_events." ++ event))
      webhook.payloadFrom ++
    optional emitRetry webhook.retry ++
    optional emitReplay webhook.replay ++
    optional emitDlq webhook.dlq ++
    [emitRequestBody [kv "type" "object"],
      ("responses", .map [response "'200'" "accepted"
          (optional (fun type => jsonContent (emitSchemaInline type)) webhook.returns),
        problem "'4XX'", problem "'5XX'"])]

def emitWebhook (feature : String) (webhook : Webhook) : String × Node :=
  (quoteKey webhook.route, .map [("post", .map (webhookOperation feature webhook))])

/-! ### The document -/

def featurePaths (strict : Bool) (f : Feature) : Block :=
  f.commands.map (emitCommand f.name) ++ f.apis.flatMap (emitApi strict f.name) ++
    (f.agents.flatMap fun agent =>
      optional (emitAgentExpose f.name agent.name) agent.exposeHttp) ++
    f.webhooks.map (emitWebhook f.name)

def pathsBlock (m : Module) (opts : EmitOptions) : Block :=
  m.features.flatMap (featurePaths opts.strictTypedOnly)

def featureSchemas (f : Feature) : Block :=
  f.resources.map emitResourceSchema ++ f.records.map emitRecordSchema ++
    f.enums.map emitEnumSchema

def schemasBlock (m : Module) : Block := m.features.flatMap featureSchemas

/-- An empty mapping is written out. -/
def schemasNode (m : Module) : Node :=
  match schemasBlock m with
  | [] => .flow "\x7b\x7d"
  | entries => .map entries

def problemResponse : Block :=
  [kv "description" "RFC 7807 problem-details envelope.",
    ("content", .map [("application/problem+json", .map [("schema", .map
      [kv "type" "object", kv "required" "[type, title, status]",
        ("properties", .map
          [kv "type" "\x7b type: string, format: uri \x7d", kv "title" "\x7b type: string \x7d",
            kv "status" "\x7b type: integer \x7d", kv "detail" "\x7b type: string \x7d",
            kv "instance" "\x7b type: string \x7d"])])])])]

def responsesBlock : Block := [("Problem", .map problemResponse)]

def infoBlock (m : Module) (opts : EmitOptions) : Block :=
  [kv "title" (m.app.getD "lazuli"), kv "version" (opts.apiVersion.getD "0.0.0"),
    kv "x-lazuli-generator" "lazuli_openapi"]

def document (m : Module) (opts : EmitOptions) : Block :=
  [kv "openapi" "3.1.0", ("info", .map (infoBlock m opts)), ("paths", .map (pathsBlock m opts)),
    ("components", .map [("schemas", schemasNode m), ("responses", .map responsesBlock)])]

def emit (m : Module) (opts : EmitOptions) : String := text (document m opts)

end Lazuli.OpenApi
