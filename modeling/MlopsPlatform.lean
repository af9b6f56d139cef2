import MlopsPlatform.Library.Table
import MlopsPlatform.Library.Transition
import MlopsPlatform.Library.Simulation
import MlopsPlatform.Library.Transaction
import MlopsPlatform.Library.ChangeLog
import MlopsPlatform.Library.Descent
import MlopsPlatform.Library.Like
import MlopsPlatform.Library.Descending
import MlopsPlatform.Library.Paging
import MlopsPlatform.Library.Loading
import MlopsPlatform.Library.Ddl
import MlopsPlatform.Library.Migration
import MlopsPlatform.Core
import MlopsPlatform.Text
import MlopsPlatform.Models
import MlopsPlatform.Services.Lifecycle
import MlopsPlatform.Services.ModelService
import MlopsPlatform.Services.DeploymentService
import MlopsPlatform.Services.Listing
import MlopsPlatform.Services.MetricService
import MlopsPlatform.Worker.Queue
import MlopsPlatform.Worker.Executor
import MlopsPlatform.Widths
import MlopsPlatform.System
import MlopsPlatform.Worker.Runner
import MlopsPlatform.Answers
import MlopsPlatform.Serialization
import MlopsPlatform.Statements
import MlopsPlatform.Atomic
import MlopsPlatform.Registry.Governance
import MlopsPlatform.Registry.ForwardOnly
import MlopsPlatform.Registry.AuditTrail
import MlopsPlatform.Registry.Keys
import MlopsPlatform.Registry.Creation
import MlopsPlatform.Registry.Slugs
import MlopsPlatform.Queue.Exclusivity
import MlopsPlatform.Queue.Finality
import MlopsPlatform.Queue.Fencing
import MlopsPlatform.Queue.Recovery
import MlopsPlatform.Queue.Attempts
import MlopsPlatform.Queue.Fairness
import MlopsPlatform.Queue.Retries
import MlopsPlatform.Queue.Bookkeeping
import MlopsPlatform.Queue.Timeline
import MlopsPlatform.Queue.Locks
import MlopsPlatform.Queue.Processing
import MlopsPlatform.Queue.Draining
import MlopsPlatform.Queue.Latency
import MlopsPlatform.Queue.Completion
import MlopsPlatform.Queue.Restart
import MlopsPlatform.Requests.Outcome
import MlopsPlatform.Requests.Replay
import MlopsPlatform.Requests.Duplicates
import MlopsPlatform.Requests.Refusal
import MlopsPlatform.Requests.Tracing
import MlopsPlatform.Requests.WakeUp
import MlopsPlatform.Api.Security
import MlopsPlatform.Api.Routes
import MlopsPlatform.Api.Calls
import MlopsPlatform.Api.Authorization
import MlopsPlatform.Api.Provenance
import MlopsPlatform.Api.Tokens
import MlopsPlatform.Api.Statuses
import MlopsPlatform.Requests.Search
import MlopsPlatform.Requests.Paging
import MlopsPlatform.Requests.VersionPaths
import MlopsPlatform.Requests.Listings
import MlopsPlatform.Rollback.Eligibility
import MlopsPlatform.Queue.Retirement
import MlopsPlatform.Rollback.CompletionOrder
import MlopsPlatform.Rollback.Chains
import MlopsPlatform.Monitoring.Window
import MlopsPlatform.Monitoring.Agreement
import MlopsPlatform.Monitoring.Defaults
import MlopsPlatform.Seeding.SeedSample
import MlopsPlatform.Seeding.Registering
import MlopsPlatform.Seeding.Dataset
import MlopsPlatform.Seeding.Renaming
import MlopsPlatform.Seeding.Coherence
import MlopsPlatform.Seeding.Recording
import MlopsPlatform.Requests.TimelineOrder
import MlopsPlatform.Seeding.Integrity
import MlopsPlatform.Seeding.DemoUsers
import MlopsPlatform.Console.MonitoringDashboard
import MlopsPlatform.Console.ModelDetail
import MlopsPlatform.Console.Selector
import MlopsPlatform.Console.LateResponses
import MlopsPlatform.Console.DeploymentFormDialog
import MlopsPlatform.Console.AuthService
import MlopsPlatform.Console.Offers
import MlopsPlatform.Console.DeploymentList
import MlopsPlatform.Console.ModelList
import MlopsPlatform.Alembic.Versions
import MlopsPlatform.Alembic.Upgrades
