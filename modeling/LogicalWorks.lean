import LogicalWorks.Lib.Bytes
import LogicalWorks.Lib.Index
import LogicalWorks.Journal.Carry
import LogicalWorks.Journal.Wire
import LogicalWorks.Journal.Replay
import LogicalWorks.Journal.PlainWire
import LogicalWorks.Journal.ReplayAgreement
import LogicalWorks.Journal.Authentication
import LogicalWorks.Lib.Run
import LogicalWorks.Owner.StorageOwner
import LogicalWorks.Journal.FileJournal
import LogicalWorks.Journal.Live
import LogicalWorks.Journal.Appends
import LogicalWorks.Journal.Reopen
import LogicalWorks.Journal.Batch
import LogicalWorks.Journal.Handover
import LogicalWorks.Journal.Resume
import LogicalWorks.Journal.Chain
import LogicalWorks.Journal.CarryOver
import LogicalWorks.Journal.Authority
import LogicalWorks.Journal.LengthPrefix
import LogicalWorks.Lib.Table
import LogicalWorks.Journal.ReadRaw
import LogicalWorks.Owner.Batch
import LogicalWorks.Task.FrameLog
import LogicalWorks.Task.Store.PlainWire
import LogicalWorks.Task.Store.Durable
import LogicalWorks.Task.Store.Live
import LogicalWorks.Task.Store.Tenants
import LogicalWorks.Task.Ledger.Entry
import LogicalWorks.Task.Ledger.Charge
import LogicalWorks.Task.Ledger.PlainWire
import LogicalWorks.Task.Ledger.Controls
import LogicalWorks.Task.Ledger.RunLedger
import LogicalWorks.Task.TornTail
import LogicalWorks.Tenant.Record
import LogicalWorks.Tenant.Replay
import LogicalWorks.Tenant.Snapshot
import LogicalWorks.Tenant.Store
import LogicalWorks.Tenant.Committed
import LogicalWorks.Tenant.Rows
import LogicalWorks.Tenant.Overwrite
import LogicalWorks.Tenant.DamagedLength
import LogicalWorks.Tenant.Answers
import LogicalWorks.Lease.Wire
import LogicalWorks.Lease.Domain
import LogicalWorks.Lease.Honoured
import LogicalWorks.Lib.Call
import LogicalWorks.Ecs.Entry
import LogicalWorks.Ecs.Seam
import LogicalWorks.Lib.Polled
import LogicalWorks.Ecs.Effects
import LogicalWorks.Ecs.Ledger
import LogicalWorks.Ecs.Bot
import LogicalWorks.Ecs.Runs
import LogicalWorks.Ecs.Slots
import LogicalWorks.Ecs.Walk
import LogicalWorks.Ecs.PlainBot
import LogicalWorks.Ecs.Parking
import LogicalWorks.Ecs.DueWork
import LogicalWorks.Ecs.Observation
import LogicalWorks.Ecs.WakeProtocol
import LogicalWorks.Ecs.WakesHeard
import LogicalWorks.Keyed.Receiver
import LogicalWorks.Keyed.OneEffect
import LogicalWorks.Lib.KeyedChain
import LogicalWorks.Token.Caveat
import LogicalWorks.Token.Policy
import LogicalWorks.Token.Narrowing
import LogicalWorks.Token.Carried
import LogicalWorks.Lib.Kahn
import LogicalWorks.Graph.Plan
import LogicalWorks.Graph.Accepted
import LogicalWorks.Graph.Run
import LogicalWorks.Graph.Bookkeeping
import LogicalWorks.Graph.Governed
import LogicalWorks.Proposal.Codec
import LogicalWorks.Proposal.Fields
import LogicalWorks.Proposal.Admission
import LogicalWorks.Lib.Fallible
import LogicalWorks.Session.Value
import LogicalWorks.Session.Scope
import LogicalWorks.Session.Validate
import LogicalWorks.Session.Language
import LogicalWorks.Politeness.Policy
import LogicalWorks.Politeness.Gate
import LogicalWorks.Politeness.Conserved
import LogicalWorks.Lib.Linked
import LogicalWorks.Lib.Ordered
import LogicalWorks.Politeness.OnePredicate
import LogicalWorks.Fair.Round
import LogicalWorks.Fair.Kept
import LogicalWorks.Fair.Decisions
import LogicalWorks.Fair.Isolation
import LogicalWorks.Fair.Shares
import LogicalWorks.Cas.Document
import LogicalWorks.Cas.Store
import LogicalWorks.Cas.Versions
import LogicalWorks.Cas.Unlost
import LogicalWorks.Approval.Decide
import LogicalWorks.Approval.Listing
import LogicalWorks.Approval.Pending
import LogicalWorks.Approval.Complete
import LogicalWorks.Approval.Ceiling
import LogicalWorks.Approval.Counted
import LogicalWorks.Approval.Bounded
import LogicalWorks.Approval.Exchange
import LogicalWorks.Approval.Decided
import LogicalWorks.Approval.Released
import LogicalWorks.Approval.Once
import LogicalWorks.Fence.Broker
import LogicalWorks.Fence.Succession
import LogicalWorks.Fence.Takeover
import LogicalWorks.Fair.Doors
import LogicalWorks.Lib.Latest
import LogicalWorks.Politeness.Wakeful
import LogicalWorks.Politeness.Bystander
import LogicalWorks.Retry.Policy
import LogicalWorks.Retry.Bound
import LogicalWorks.Retry.Serial
import LogicalWorks.Session.Canonical
import LogicalWorks.Session.Vocabulary
import LogicalWorks.Session.Order
import LogicalWorks.Session.Ranking
import LogicalWorks.Session.Runner
import LogicalWorks.Lib.Collapse
import LogicalWorks.Json.Map
import LogicalWorks.Json.FiniteMap
import LogicalWorks.Json.Reader
import LogicalWorks.Json.Agreement
import LogicalWorks.Session.Account
import LogicalWorks.Session.Receipts
import LogicalWorks.Session.Narrowing
import LogicalWorks.Session.Sizes
import LogicalWorks.Lib.Window
import LogicalWorks.Vba.Compress
import LogicalWorks.Vba.Coded
import LogicalWorks.Vba.Decoded
import LogicalWorks.Vba.RoundTrip
import LogicalWorks.Vba.Conforms
import LogicalWorks.Lib.Groups
import LogicalWorks.Leb128.Encode
import LogicalWorks.Leb128.Canonical
import LogicalWorks.Leb128.Widths
import LogicalWorks.Lib.Sextets
import LogicalWorks.Base64.RoundTrip
import LogicalWorks.Base64.Faults
import LogicalWorks.Lib.Machine
import LogicalWorks.Time.Gregorian
import LogicalWorks.Time.Days
import LogicalWorks.Lib.Lexical
import LogicalWorks.Uuid.Model
import LogicalWorks.Uuid.Order
import LogicalWorks.Uuid.Generator
import LogicalWorks.Lib.Decimal
import LogicalWorks.Time.Format
import LogicalWorks.Time.Parse
import LogicalWorks.Time.Profile
import LogicalWorks.Time.RoundTrip
import LogicalWorks.Lib.Framed
import LogicalWorks.Session.Revision
import LogicalWorks.Lib.Edits
import LogicalWorks.Similarity.Distance
import LogicalWorks.Proposal.Repair
import LogicalWorks.Proposal.Checkpoint
import LogicalWorks.Retry.Delay
import LogicalWorks.Draws.Seeded
import LogicalWorks.Graph.Runnable
import LogicalWorks.Graph.Makespan
import LogicalWorks.Graph.Blocked
import LogicalWorks.Lib.Slices
import LogicalWorks.Pattern.Replace
import LogicalWorks.Pattern.Exact
import LogicalWorks.Task.Heads
import LogicalWorks.Journal.Memory
import LogicalWorks.Ecs.Quiet
import LogicalWorks.Legacy.Decimal
import LogicalWorks.Legacy.Fields
import LogicalWorks.Legacy.Exact
import LogicalWorks.Legacy.Identity
import LogicalWorks.Session.Assigned
import LogicalWorks.Session.Soundness
import LogicalWorks.Session.Said
import LogicalWorks.Session.History
