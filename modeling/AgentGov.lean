import AgentGov.Isolation
import AgentGov.Overdrafts
import AgentGov.Cognitive.Slate
import AgentGov.Cognitive.Loops
import AgentGov.Metering.Streams
import AgentGov.Receipts.Vouching
import AgentGov.Frontier
import AgentGov.Delegation
import AgentGov.ChainViews
import AgentGov.Patience
import AgentGov.Receipts.Domains
import AgentGov.Invoices.Audit
import AgentGov.Actions
import AgentGov.Templates
import AgentGov.Receipts.Index
import AgentGov.Receipts.RowBinding
import AgentGov.Cognitive.Results
import AgentGov.Postgres.Messages
import AgentGov.Postgres.Sessions
import AgentGov.AuditLines
import AgentGov.Receipts.Ed25519
import AgentGov.Metering.Proxy
import AgentGov.Metering.OffLoop
import AgentGov.Metering.Crew
import AgentGov.Metering.Handler
import AgentGov.Metering.Rates
import AgentGov.Receipts.Rotations
import AgentGov.Branches
import AgentGov.FleetBooks
