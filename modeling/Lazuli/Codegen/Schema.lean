import Lazuli.Codegen.Ir

/-!
The declarations of a feature in the intermediate representation (`crates/lazuli_ir/src/nodes`).

Resources, commands and the features they belong to, with what checks and emitters read of them.
-/

namespace Lazuli.Ir

structure SpanRef where
  start : Nat
  stop : Nat
  deriving DecidableEq

/-- A local name has no feature. -/
structure QualifiedName where
  feature : Option String
  name : String
  deriving DecidableEq

/-! ### Lifecycles -/

structure LifecycleTransition where
  name : String
  froms : List String
  toState : String
  deriving DecidableEq

structure Lifecycle where
  discriminatorField : String
  transitions : List LifecycleTransition
  deriving DecidableEq

/-! ### Types -/

/-- Of a plugin type only what validates it. -/
structure PluginType where
  plugin : String
  validator : String
  errorCode : String
  messageKey : String
  deriving DecidableEq

inductive BuiltinType where
  | id
  | text
  | boolean
  | integer
  | decimal
  | date
  | dateTime
  | json
  | semanticEmail
  | semanticMoney
  | semanticPhone
  | semanticUrl
  | semanticUuid
  | semanticCurrency
  | semanticGeoPoint
  | semanticHexColor
  | semanticPercentage
  | semanticPositiveDecimal
  | semanticNonNegativeInt
  | semanticPluginType (type : PluginType)
  | capSecret
  | capFile
  deriving DecidableEq

inductive CapabilityRef where
  | file
  | pii
  | hashed
  | encrypted
  | e2ee
  | token
  deriving DecidableEq

inductive TypeRef where
  | builtin (type : BuiltinType)
  | userDefined (name : QualifiedName)
  | enumRef (name : QualifiedName)
  | many (inner : TypeRef)
  | unresolved (text : String)
  | capability (cap : CapabilityRef)
  deriving DecidableEq

/-! ### Resources -/

inductive Tenancy where
  | org
  | team
  | custom (axis : String)
  | none
  deriving DecidableEq

inductive DefaultValue where
  | string (s : String)
  | integer (n : Int)
  | boolean (b : Bool)
  | enumLiteral (variant : String)
  | nil
  deriving DecidableEq

/-- A logical reference to a resource of another feature. -/
structure CrossFeatureTarget where
  feature : String
  resource : String
  deriving DecidableEq

/-- `currency` is that of the type of an amount, `key` that of an encrypted type. -/
structure Field where
  name : String
  typeRef : TypeRef
  required : Bool
  derivedFrom : Option String := none
  unique : Bool := false
  default : Option DefaultValue := none
  fullText : Bool := false
  crossFeatureTarget : Option CrossFeatureTarget := none
  currency : String := "BRL"
  key : String := "@key.tenant"

structure UniqueConstraint where
  fields : List String
  per : Option String := none
  when : Option EvalPredicate := none
  errorCode : Option String := none

inductive IndexMethod where
  | btree
  | gin
  | gist
  deriving DecidableEq

structure IndexConstraint where
  fields : List String
  method : Option IndexMethod := none
  fullText : Bool := false

inductive Constraint where
  | unique (unique : UniqueConstraint)
  | index (index : IndexConstraint)

structure CompositeKey where
  fields : List String
  primary : Bool

structure PolymorphicRef where
  typeField : String
  idField : String
  targets : List String

structure ManyThrough where
  junction : String
  partner : String
  payload : List Field

structure RestrictOnDelete where
  relation : String
  fk : String
  extraWhere : Option EvalPredicate := none
  tenantScoped : Bool := false
  softDelete : Bool := false
  errorCode : Option String := none

/-- The bundles of commands and queries that a resource may ask for. -/
inductive ConventionRef where
  | crud
  | me
  deriving DecidableEq

/-- What a declaration leaves out is absent, false or empty. -/
structure Resource where
  name : String
  tenancy : Option Tenancy := none
  softDelete : Bool := false
  softDeleteActor : Bool := false
  timestamps : Option Bool := none
  fields : List Field := []
  lifecycle : Option Lifecycle := none
  compositeKey : Option CompositeKey := none
  polymorphicRefs : List PolymorphicRef := []
  manyThrough : List ManyThrough := []
  restrictOnDelete : List RestrictOnDelete := []
  constraints : List Constraint := []
  conventions : List ConventionRef := []

/-! ### Records and enums -/

structure Record where
  name : String

inductive StorageValue where
  | integer (n : Int)
  | string (s : String)
  deriving DecidableEq

structure EnumVariant where
  name : String
  storageValue : Option StorageValue := none

structure EnumDecl where
  name : String
  variants : List EnumVariant := []

/-! ### Commands -/

structure Assignment where
  field : String
  value : Expr

structure CreateEffect where
  resource : QualifiedName
  fromInput : Bool
  assignments : List Assignment

structure UpdateEffect where
  resource : QualifiedName
  assignments : List Assignment
  whereClause : List Assignment

structure DeleteEffect where
  resource : QualifiedName
  whereClause : List Assignment

structure ReorderEffect where
  resource : QualifiedName
  positionField : String

inductive CommandEffect where
  | creates (create : CreateEffect)
  | updates (update : UpdateEffect)
  | deletes (delete : DeleteEffect)
  | returns
  | reorders (reorder : ReorderEffect)
  | none

structure RouteSlot where
  name : String
  typeRef : TypeRef

/-- `validateSkip` leaves the validator of the type out. -/
structure TypedSlot where
  name : String
  typeRef : TypeRef
  required : Bool
  validateSkip : Bool := false

inductive CommandInput where
  | short (fields : List String)
  | typed (slots : List TypedSlot)
  | empty

/-- A feature that the plan of the caller must have, or a limit that it must not have used up. -/
inductive Gate where
  | behind (feature : String)
  | quota (limit : String)
  deriving DecidableEq

/-- The policy that a command names. -/
inductive PolicyRef where
  | localRef (name : String)
  | atom (atom : String)
  | external (feature name : String)
  | unresolved (text : String)
  | none
  deriving DecidableEq

/-- The owner check that the analyzer derives from an owner axis: rows whose `fieldName` points
to a row of `fkTarget` with the user in `throughColumn`. -/
structure OwnerScopeSql where
  fieldName : String
  fkTarget : String
  throughColumn : String
  cteOwnerCheck : Option String := none
  deriving DecidableEq

structure Command where
  name : String
  effect : CommandEffect
  triggers : List String
  span : Option SpanRef
  route : List RouteSlot := []
  input : CommandInput := .empty
  gates : List Gate := []
  policy : PolicyRef := .none
  policyExpr : Option PolicyExpr := none
  ownerScopeSql : Option OwnerScopeSql := none

/-! ### Features -/

structure Defaults where
  tenancy : Option Tenancy := none
  timestamps : Bool := false

/-- The resource of the sessions, and whether their tokens rotate. -/
structure AuthSessions where
  resource : QualifiedName
  rotation : Bool

structure Feature where
  name : String
  defaults : Defaults := {}
  sessions : Option AuthSessions := none
  uses : List String := []
  resources : List Resource := []
  commands : List Command := []
  records : List Record := []
  enums : List EnumDecl := []
  policies : Policies := { categories := [] }

structure Module where
  features : List Feature

/-- The setting of the resource, or else the default of its feature. -/
def effectiveTenancy (feature : Feature) (resource : Resource) : Tenancy :=
  (resource.tenancy.or feature.defaults.tenancy).getD .none

end Lazuli.Ir

/-!
The declarations that a feature's generated package is made of (`crates/lazuli_ir/src/nodes`).

Beside what `Feature` has of them: queries, and of a command what it returns, emits and calls.
-/

namespace Lazuli.Ir

inductive QueryKind where
  | list
  | lookup
  | sql
  deriving DecidableEq

structure Query where
  kind : QueryKind
  name : String

/-- `returnType` is that of a `returns` effect. -/
structure CommandDecl extends Command where
  returnType : TypeRef := .builtin .text

structure FeatureDecl where
  name : String
  resources : List Resource := []
  records : List Record := []
  enums : List EnumDecl := []
  commands : List CommandDecl := []
  queries : List Query := []

end Lazuli.Ir
