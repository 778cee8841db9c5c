import Logon.Library.Contract
import Logon.Kernel.Json
import Logon.Runtime.Processes
import Logon.Runtime.Claims
import Logon.Runtime.Parties
import Logon.Lifecycle
import Logon.Approvals
import Logon.Gate
import Logon.Pending
import Logon.Dispatch
import Logon.Loop
import Logon.Idempotency
import Logon.Outbox
import Logon.Progress
import Logon.Twins
import Logon.Canonical
import Logon.Hygiene
import Logon.Reads
import Logon.Mediation
import Logon.Backoff
import Logon.Chains
import Logon.Shutdown
import Logon.Cycle
import Logon.Sweeping
import Logon.Expiry
import Logon.Starting
import Logon.Detail
import Logon.Delivery
import Logon.Serialization
import Logon.Auditing
import Logon.Deadlock
import Logon.Tenants
import Logon.Principals
import Logon.Authorization
import Logon.Routing
import Logon.Responses
import Logon.Histories
import Logon.Recovery
import Logon.Exit
import Logon.Journal
import Logon.Cases
import Logon.Refinement
import Logon.Settlement
import Logon.Courses
import Logon.Books
import Logon.Later
import Logon.Sessions
import Logon.Deadlines
import Logon.Statuses
