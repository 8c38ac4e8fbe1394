import PureplayIngest.Webhooks.RowLimits
import PureplayIngest.Webhooks.IdempotencyKeys
import PureplayIngest.Identity.ListCoherence
import PureplayIngest.Ingestion.DuplicateLinks
import PureplayIngest.Ingestion.Retries
import PureplayIngest.Ingestion.NearDuplicates
import PureplayIngest.Ingestion.UpsertTransactions
import PureplayIngest.Webhooks.ProswingSchema
import PureplayIngest.Webhooks.SwingmetricSchema
import PureplayIngest.Shots.TenantIsolation
import PureplayIngest.Shots.Pagination
import PureplayIngest.Ingestion.EventAgreement
import PureplayIngest.Webhooks.BatchEnqueue
import PureplayIngest.Ingestion.Delivery
import PureplayIngest.Identity.LinkOnce
import PureplayIngest.Identity.Backfill
import PureplayIngest.Stats.Agreement
import PureplayIngest.Identity.AuditReplay
import PureplayIngest.Ingestion.AppendOnly
import PureplayIngest.Identity.BackfillMapping
import PureplayIngest.Shared.Auth.ProductionAccess
import PureplayIngest.Ingestion.Confinement
import PureplayIngest.Ingestion.FailureRecords
import PureplayIngest.Shared.Kysely.LineComments
import PureplayIngest.Webhooks.DateRange
import PureplayIngest.Shared.RedactedJson
import PureplayIngest.Ingestion.DuplicateChains
import PureplayIngest.Ingestion.EquivalentShots
import PureplayIngest.Webhooks.AdmittedBatch
import PureplayIngest.Stats.ClubAggregates
import PureplayIngest.Stats.SpinVendors
import PureplayIngest.Stats.Cap
import PureplayIngest.Shots.ShotsController
import PureplayIngest.Shots.Cursors
import PureplayIngest.Ingestion.PoisonEvents
import PureplayIngest.Ingestion.OutcomeCounters
import PureplayIngest.Shared.Kysely.DollarQuotes
import PureplayIngest.Webhooks.LocalTime
import PureplayIngest.Stats.WindowOrder
import PureplayIngest.Stats.Percentiles
import PureplayIngest.Shared.GlobalExceptionFilter
import PureplayIngest.Webhooks.PayloadSchemas
import PureplayIngest.Webhooks.VendorControllers
import PureplayIngest.Webhooks.Answers
import PureplayIngest.Ingestion.Provenance
import PureplayIngest.Ingestion.QueueDepth
import PureplayIngest.Identity.AuditedAttribution
import PureplayIngest.Ingestion.Completion
import PureplayIngest.Migrations.Convergence
import PureplayIngest.Ingestion.SerialUpserts
import PureplayIngest.Identity.AuditIds
import PureplayIngest.Migrations.ClubSeeds
import PureplayIngest.Shots.ServedPages
