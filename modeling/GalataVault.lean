import GalataVault.Backend.Accounting
import GalataVault.Backend.AuditLog
import GalataVault.Backend.Quotas
import GalataVault.Backend.Reads
import GalataVault.Backend.Versions
import GalataVault.Backend.Renaming
import GalataVault.Server.Replays
import GalataVault.Server.Attempts
import GalataVault.Server.Refusals
import GalataVault.Proto.History
import GalataVault.Client.Acceptance
import GalataVault.Client.AuditFetch
import GalataVault.Client.Bundles
import GalataVault.Client.Generations
import GalataVault.Client.Signings
import GalataVault.Client.Accusations
import GalataVault.Client.Completeness
import GalataVault.Owner.Discovery
import GalataVault.Owner.Writes
import GalataVault.Server.Freshness
import GalataVault.Proto.Contexts
import GalataVault.Server.Preconditions
import GalataVault.Server.Listing
import GalataVault.Client.Pins
import GalataVault.Client.PageLoops
import GalataVault.Backend.Errors
import GalataVault.Backend.Histories
import GalataVault.Library.Crash
import GalataVault.Owner.Copying
import GalataVault.Backend.Metering
import GalataVault.Owner.Filling
import GalataVault.Owner.LocalState
import GalataVault.Formats.Base62
import GalataVault.Formats.Checked
import GalataVault.Formats.Descriptors
import GalataVault.Formats.Envelopes
import GalataVault.Formats.Urls
import GalataVault.Formats.Children
import GalataVault.Formats.AuditPages
import GalataVault.Client.Verifications
import GalataVault.Formats.SigHeaders
import GalataVault.Formats.Literals
import GalataVault.Server.AuditPaging
import GalataVault.Proto.Time
import GalataVault.Server.JournalFiles
import GalataVault.Mcp.Env
import GalataVault.Owner.Subtrees
import GalataVault.Owner.Known
import GalataVault.Owner.Repairs
import GalataVault.Formats.Paths
import GalataVault.Owner.Environments
import GalataVault.Owner.Additions
import GalataVault.Owner.Removals
import GalataVault.Owner.Trees
import GalataVault.Owner.Interruptions
import GalataVault.Library.Since
import GalataVault.Ui.Web
import GalataVault.Ui.Clip
import GalataVault.Ui.App
import GalataVault.Ui.Moves
import GalataVault.Ui.Sessions
import GalataVault.Library.Comparison
import GalataVault.Formats.Challenges
import GalataVault.Server.Admissions
import GalataVault.Library.Quoting
import GalataVault.Cli.Exports
