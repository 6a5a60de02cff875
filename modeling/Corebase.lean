import Corebase.SqlLex
import Corebase.SqlGuard
import Corebase.ServerScan
import Corebase.GuardClasses
import Corebase.LexAgreement
import Corebase.GuardTokens
import Corebase.Gateway
import Corebase.SqlBrackets
import Corebase.UnqualifiedWrites
import Corebase.Console
import Corebase.ScriptContainment
import Corebase.AlterColumns
import Corebase.Confirm
import Corebase.ReadCommitted
import Corebase.RefreshStore
import Corebase.RefreshLineage
import Corebase.Interleaving
import Corebase.JobRunner
import Corebase.JobFencing
import Corebase.SagaResume
import Corebase.JobAttempts
import Corebase.RefreshGrace
import Corebase.AccountFlows
import Corebase.PasswordChange
import Corebase.Bans
import Corebase.TokenLedger
import Corebase.VerificationLinks
import Corebase.EmailChange
import Corebase.Placement
import Corebase.PlacementSteps
import Corebase.Reservations
import Corebase.PortAllocation
import Corebase.ReservationDrift
import Corebase.Organizations
import Corebase.LastOwner
import Corebase.SecretStore
import Corebase.SecretVersions
import Corebase.ProvisioningJobs
import Corebase.Repairs
import Corebase.LinkMails
import Corebase.Keyset
import Corebase.Pagination
import Corebase.IdleScan
import Corebase.IdlePauses
import Corebase.ProjectRequests
import Corebase.ProjectLifecycle
import Corebase.SigningKeys
import Corebase.KeyRotation
import Corebase.Storage
import Corebase.RefusedWrites
import Corebase.CreateReplays
import Corebase.ProjectCeiling
import Corebase.ReconcilePasses
import Corebase.SagaRules
import Corebase.CredentialRotation
import Corebase.KeyMinting
import Corebase.SagaAttempts
import Corebase.RestoreRuns
import Corebase.BuildRetries
import Corebase.FinalBackups
import Corebase.SagaFacts
import Corebase.StickyDeletion
import Corebase.SessionEnds
import Corebase.SessionStores
import Corebase.Memberships
import Corebase.RoleAuthority
import Corebase.OrgProjects
import Corebase.CapBounds
import Corebase.OrgRemoval
import Corebase.ControlPlane
import Corebase.ControlPlaneStores
import Corebase.EmailTemplates
import Corebase.MailMarkup
import Corebase.ProjectRoutes
import Corebase.JsNumber
import Corebase.Json
import Corebase.JsonText
import Corebase.JsonMeaning
import Corebase.GatewayBodies
import Corebase.DataPlane
import Corebase.KeyRevocation
import Corebase.Entrances
import Corebase.Migrations
import Corebase.StorageSweep
import Corebase.ObjectListing
import Corebase.BackupSchedule
import Corebase.BackupNights
import Corebase.LexSteps
import Corebase.Splitting
import Corebase.ErrorReports
import Corebase.DiskLadder
import Corebase.RestoreVerification
import Corebase.RepoDestroy
import Corebase.SmtpReplies
import Corebase.Rotation
import Corebase.ScanFairness
import Corebase.JsonUnits
import Corebase.AuditEntries
import Corebase.AuthRedirects
import Corebase.Base64Url
import Corebase.DotSegments
import Corebase.JsonRoundTrip
import Corebase.StorageTokens
import Corebase.StorageKeys
import Corebase.RouteTable
import Corebase.StorageUrls
import Corebase.RateLimits
import Corebase.ResumeMachine
import Corebase.TableObjects
import Corebase.Passwords
import Corebase.NodeRanking
import Corebase.PlacementAttempts
import Corebase.CursorPages
import Corebase.LikePattern
import Corebase.ObjectPages
import Corebase.FolderListing
import Corebase.ContentTypes
import Corebase.Attempts
import Corebase.UserUpdates
import Corebase.Contracts
import Corebase.CreateOnly
import Corebase.DockerStream
import Corebase.S3Codecs
import Corebase.InsertionMap
import Corebase.TrafficMeter
import Corebase.LexShape
import Corebase.RowEdits
import Corebase.SchemaPlans
import Corebase.SmtpMessages
import Corebase.SmtpSend
