import Substrate.Journal.AtMostOnce
import Substrate.Journal.Fidelity
import Substrate.Journal.Paths
import Substrate.Store.Termination
import Substrate.Store.Wakeup
import Substrate.Store.Fencing
import Substrate.Store.Reports
import Substrate.Store.Mail
import Substrate.Store.Cancellation
import Substrate.Store.Conservation
import Substrate.Store.Billing
import Substrate.Store.Accounts
import Substrate.Channels.Isolation
import Substrate.Channels.Erasing
import Substrate.Channels.Sync
import Substrate.Channels.Breaker
import Substrate.Channels.Wakes
import Substrate.Channels.Reading
import Substrate.Context.Reply
import Substrate.Threads.Writers
import Substrate.Sql.Privacy
import Substrate.Files.Forgetting
import Substrate.Files.Limits
import Substrate.Files.Numbers
import Substrate.Files.Contents
import Substrate.Inference.Tokens
import Substrate.Audit.Tampering
import Substrate.Schedule.Firings
import Substrate.Stream.Relay
import Substrate.Identity.Sessions
import Substrate.Tools.Gate
import Substrate.Gdpr.Finishing
import Substrate.Documents.Sameness
import Substrate.Compute.Caching
import Substrate.Vectors.Spaces
import Substrate.Workspace.Heads
import Substrate.Blobs.Quota
import Substrate.Versions.History
import Substrate.Compaction.Soundness
import Substrate.Content.Reading
import Substrate.Content.Parsing
import Substrate.Scoping.Renaming
import Substrate.Prompt.Window
import Substrate.Workspace.Forking
import Substrate.Migrations.Resuming
import Substrate.Topics.Pages
import Substrate.Frontmatter.Ending
import Substrate.Okf.RoundTrip
import Substrate.Split.Sections
import Substrate.Sql.Credentials
import Substrate.Files.Pages
import Substrate.Graph.Neighbors
import Substrate.Documents.Removing
import Substrate.Files.Routes
import Substrate.Compute.Outcomes
import Substrate.Documents.Enriching
import Substrate.Store.Draining
import Substrate.Store.Headcount
import Substrate.Store.Leasing
import Substrate.Store.Records
import Substrate.Store.Sequence
import Substrate.Identity.Jwks
