import Jarvis.AppApi.Lifecycle
import Jarvis.Audit.Concurrent
import Jarvis.Audit.Locate
import Jarvis.AuditLog.Undelivered
import Jarvis.Dashboard.Passkeys
import Jarvis.Dashboard.Recorder
import Jarvis.Device.Approve
import Jarvis.Device.Fingerprint
import Jarvis.Gateway.BargeIn
import Jarvis.Gateway.Locales
import Jarvis.Gateway.Questions
import Jarvis.Ios.Approvals
import Jarvis.Ios.ErrorInfo
import Jarvis.Ios.LowS
import Jarvis.Knowledge.Copies
import Jarvis.Knowledge.Keys
import Jarvis.Knowledge.Packing
import Jarvis.Knowledge.Retries
import Jarvis.Mcp.Limits
import Jarvis.Mcp.Pending
import Jarvis.Mcp.Reconsent
import Jarvis.Mcp.Results
import Jarvis.Mcp.Sessions
import Jarvis.Orchestrator.Attempts
import Jarvis.Orchestrator.Authority
import Jarvis.Orchestrator.Calls
import Jarvis.Orchestrator.Devices
import Jarvis.Orchestrator.Expiry
import Jarvis.Orchestrator.History
import Jarvis.Orchestrator.Leases
import Jarvis.Orchestrator.LostTasks
import Jarvis.Orchestrator.Memory
import Jarvis.Orchestrator.MemoryJobs
import Jarvis.Orchestrator.Outbox
import Jarvis.Orchestrator.Phone
import Jarvis.Orchestrator.ToolNames
import Jarvis.Orchestrator.Waits
import Jarvis.Vault.Blob
import Jarvis.Vault.Trail
