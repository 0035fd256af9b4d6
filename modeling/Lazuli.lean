import Lazuli.Runtime.RateLimit.Admission
import Lazuli.Auth.Theft
import Lazuli.Auth.Linear
import Lazuli.Codegen.ConditionalCorrect
import Lazuli.Runtime.CacheHistory
import Lazuli.Auth.PasswordReset
import Lazuli.Analyzer.ClosedPredicate
import Lazuli.Analyzer.QueryFilter
import Lazuli.Codegen.Triggers
import Lazuli.Storage.ServedPhotos
import Lazuli.Codegen.Preconditions
import Lazuli.Referential.LiveReferences
import Lazuli.Masking.Answers
import Lazuli.Poller.Once
import Lazuli.Poller.Attempts
import Lazuli.Webhooks.Delivery
import Lazuli.Events.ExactlyOnce
import Lazuli.Codegen.Identifiers
import Lazuli.Migration.Apply
import Lazuli.Migration.TableNames
import Lazuli.Migration.Regenerated
import Lazuli.Codegen.RowScope
import Lazuli.Billing.Quota
import Lazuli.Migrations.Dispatch
import Lazuli.Auth.EmailVerification
import Lazuli.Codegen.Rbac
import Lazuli.Storage.Upload
import Lazuli.Migration.UniqueNames
import Lazuli.Codegen.ColumnTypes
import Lazuli.Sdk.QueryRows
import Lazuli.Sdk.LifecycleGate
import Lazuli.Analyzer.PlanCatalog
import Lazuli.Sdk.AutoRefresh
import Lazuli.Sdk.WireKeys
import Lazuli.Analyzer.LifecycleCycles
import Lazuli.Analyzer.SynthesisNames
import Lazuli.Runtime.RateLimit.Middleware
import Lazuli.Cli.ModuleLoader
import Lazuli.Analyzer.EventGroups
import Lazuli.Cli.Migrate
import Lazuli.Runtime.LinedUp
import Lazuli.OpenApi.Describes
import Lazuli.Doctor.Waivers
import Lazuli.Poller.Delays
import Lazuli.Jobs.Waits
import Lazuli.Events.Poison
import Lazuli.Auth.Password
import Lazuli.Codegen.EnumStorage
import Lazuli.Migration.AlterRound
import Lazuli.Migration.PartialUnique
import Lazuli.Migration.TableColumns
import Lazuli.Auth.Lookup
import Lazuli.Syntax.PolicyDisplay
import Lazuli.Runtime.UpdateBuilder
import Lazuli.Runtime.Money
import Lazuli.Runtime.KeyTemplates
import Lazuli.Notifications.Throttle
import Lazuli.Syntax.SourceSpans
import Lazuli.Runtime.NestedValidate
import Lazuli.Analyzer.CrudOverlay
import Lazuli.Analyzer.EmitPredicate
import Lazuli.Codegen.RouteTree
import Lazuli.Cli.RecipeMatch
import Lazuli.Syntax.Highlight
import Lazuli.Runtime.Redactor
import Lazuli.Runtime.Locale
import Lazuli.Analyzer.DefaultLiterals
import Lazuli.Analyzer.Suggestions
