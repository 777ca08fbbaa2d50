import ProxyBroker.Resumption.Basic
import ProxyBroker.Resumption.Run
import ProxyBroker.Resumption.Monitor
import ProxyBroker.Resumption.System
import ProxyBroker.Resumption.Nursery
import ProxyBroker.Resumption.Loop
import ProxyBroker.Resumption.Notify
import ProxyBroker.Resumption.Ongoing
import ProxyBroker.Resumption.Trail
import ProxyBroker.Resumption.Total
import ProxyBroker.Resumption.Duplex
import ProxyBroker.Resumption.Refinement
import ProxyBroker.Bits.Xorshift
import ProxyBroker.Numeric.Binary64
import ProxyBroker.Numeric.Interpolation
import ProxyBroker.Deflate.Fixed
import ProxyBroker.Text.Utf8
import ProxyBroker.Text.Str
import ProxyBroker.Text.Digits
import ProxyBroker.Text.Lines
import ProxyBroker.Text.Base64
import ProxyBroker.Utils
import ProxyBroker.Utils.Theorems.Base64
import ProxyBroker.Keyed.Table
import ProxyBroker.Keyed.Argmin
import ProxyBroker.Keyed.Reconcile
import ProxyBroker.Keyed.Counts
import ProxyBroker.Objects.Types
import ProxyBroker.Objects.IpParse
import ProxyBroker.Objects.Proxy
import ProxyBroker.Objects.Percentile
import ProxyBroker.Objects.Theorems.IpText
import ProxyBroker.Objects.Theorems.Statistics
import ProxyBroker.Objects.Theorems.IpChars
import ProxyBroker.Objects.Theorems.Dotted
import ProxyBroker.Objects.Theorems.Percentile
import ProxyBroker.Json.Basic
import ProxyBroker.Json.RoundTrip
import ProxyBroker.Json.Serde
import ProxyBroker.Json.Decode
import ProxyBroker.Regex.Basic
import ProxyBroker.Regex.Extended
import ProxyBroker.Regex.Search
import ProxyBroker.Resolver
import ProxyBroker.Resolver.Theorems.Lenient
import ProxyBroker.Parse
import ProxyBroker.Parse.ProxyLines
import ProxyBroker.Parse.Theorems.Lines
import ProxyBroker.Parse.Theorems.Octets
import ProxyBroker.Parse.Theorems.Python
import ProxyBroker.Parse.Theorems.Scan
import ProxyBroker.Parse.Theorems.Whole
import ProxyBroker.Effects
import ProxyBroker.Negotiator
import ProxyBroker.Judge
import ProxyBroker.Checker
import ProxyBroker.Checker.Anonymity
import ProxyBroker.Checker.Program
import ProxyBroker.Checker.Response
import ProxyBroker.Checker.Theorems.Accounting
import ProxyBroker.Checker.Theorems.Admission
import ProxyBroker.Checker.Theorems.Anonymity
import ProxyBroker.Checker.Theorems.Confirmation
import ProxyBroker.Checker.Theorems.Response
import ProxyBroker.Checker.Attempt
import ProxyBroker.Checker.Build
import ProxyBroker.Checker.Theorems.Attempt
import ProxyBroker.Checker.Theorems.Baseline
import ProxyBroker.Checker.Theorems.Conduct
import ProxyBroker.Checker.Theorems.Trust
import ProxyBroker.Stats
import ProxyBroker.Stats.Theorems.Order
import ProxyBroker.Pool.State
import ProxyBroker.Pool.Program
import ProxyBroker.Pool.Lease
import ProxyBroker.Pool.Machine
import ProxyBroker.Pool.Waiting
import ProxyBroker.Pool.Theorems.Uses
import ProxyBroker.Pool.Theorems.Lease
import ProxyBroker.Pool.Theorems.Services
import ProxyBroker.Pool.Theorems.State
import ProxyBroker.Pool.Theorems.Accounting
import ProxyBroker.Pool.Theorems.Conservation
import ProxyBroker.Pool.Theorems.Countries
import ProxyBroker.Pool.Theorems.Removal
import ProxyBroker.Pool.Theorems.RoundRobin
import ProxyBroker.Pool.Theorems.Unique
import ProxyBroker.Pool.Theorems.Wakeup
import ProxyBroker.Pool.Theorems.Checkout
import ProxyBroker.Pool.Theorems.Frame
import ProxyBroker.Pool.Theorems.Panic
import ProxyBroker.Pool.Theorems.Pins
import ProxyBroker.Pool.Theorems.Selection
import ProxyBroker.Pool.Theorems.Sessions
import ProxyBroker.Pool.Theorems.Sticky
import ProxyBroker.Pool.Theorems.TryGet
import ProxyBroker.Pool.Theorems.Verify
import ProxyBroker.Pool.Theorems.Total
import ProxyBroker.Pool.Random
import ProxyBroker.Pool.Theorems.Random
import ProxyBroker.Connector
import ProxyBroker.Connector.Theorems.Cancel
import ProxyBroker.Watch
import ProxyBroker.Watch.Reload
import ProxyBroker.Watch.Theorems.Reconcile
import ProxyBroker.Mcp
import ProxyBroker.Mcp.Theorems.GetProxy
import ProxyBroker.Scheduler
import ProxyBroker.Scheduler.Loop
import ProxyBroker.Scheduler.Theorems.Contract
import ProxyBroker.Scheduler.Theorems.Bookkeeping
import ProxyBroker.Scheduler.Theorems.Attendance
import ProxyBroker.Scheduler.Theorems.Forgetting
import ProxyBroker.Scheduler.Theorems.Resurrection
import ProxyBroker.Scheduler.Theorems.Identity
import ProxyBroker.Scheduler.Theorems.Eviction
import ProxyBroker.Scheduler.Theorems.Samples
import ProxyBroker.Scheduler.Theorems.Pace
import ProxyBroker.Server.Head
import ProxyBroker.Server.Request
import ProxyBroker.Server.Relay
import ProxyBroker.Server.HandleClient
import ProxyBroker.Server.Wire
import ProxyBroker.Server.Message
import ProxyBroker.Server.History
import ProxyBroker.Server.Uri
import ProxyBroker.Server.Theorems.Uses
import ProxyBroker.Server.Theorems.Head
import ProxyBroker.Server.Theorems.Commit
import ProxyBroker.Server.Theorems.Access
import ProxyBroker.Server.Theorems.Parse
import ProxyBroker.Server.Theorems.Strip
import ProxyBroker.Server.Theorems.Message
import ProxyBroker.Server.Theorems.Buffer
import ProxyBroker.Server.Theorems.Handshake
import ProxyBroker.Server.Theorems.SocksOnly
import ProxyBroker.Server.Theorems.ConnectHead
import ProxyBroker.Server.Theorems.Credentials
import ProxyBroker.Server.Theorems.Flow
import ProxyBroker.Server.Theorems.Delivery
import ProxyBroker.Server.Theorems.Gates
import ProxyBroker.Server.Theorems.Sanitize
import ProxyBroker.Server.Theorems.Control
import ProxyBroker.Server.Theorems.Eviction
import ProxyBroker.Server.Theorems.Faithful
import ProxyBroker.Server.Theorems.Forwarded
import ProxyBroker.Server.Theorems.History
import ProxyBroker.Server.Theorems.Probe
import ProxyBroker.Server.Theorems.Records
import ProxyBroker.Server.Theorems.Rotations
import ProxyBroker.Server.Theorems.Addresses
import ProxyBroker.Server.Theorems.Authority
import ProxyBroker.Server.Theorems.Decoding
import ProxyBroker.Server.Theorems.HostPort
import ProxyBroker.Server.Theorems.Sender
import ProxyBroker.Server.Theorems.Status
import ProxyBroker.Server.Theorems.Target
import ProxyBroker.Server.AcceptLoop
import ProxyBroker.Server.Theorems.AcceptLoop
import ProxyBroker.Server.Theorems.Chain
import ProxyBroker.Broker.CheckStream
import ProxyBroker.Broker.Gather
import ProxyBroker.Broker.Theorems.Stages
import ProxyBroker.Broker.Theorems.Permits
import ProxyBroker.Broker.Theorems.Ledger
import ProxyBroker.Broker.Theorems.Books
import ProxyBroker.Broker.Theorems.Emission
import ProxyBroker.Broker.Theorems.Accounting
import ProxyBroker.Broker.Theorems.Gather
import ProxyBroker.Broker.Theorems.Progress
import ProxyBroker.Broker.Theorems.Extract
import ProxyBroker.Broker.Theorems.Alike
import ProxyBroker.Persist.Types
import ProxyBroker.Persist.Backends
import ProxyBroker.Persist.Aggregate
import ProxyBroker.Persist.Ndjson
import ProxyBroker.Persist.World
import ProxyBroker.Persist.Theorems.Refinement
import ProxyBroker.Persist.Theorems.Loading
import ProxyBroker.Persist.Theorems.Agreement
import ProxyBroker.Persist.Theorems.Averages
import ProxyBroker.Persist.Theorems.Counters
import ProxyBroker.Persist.Theorems.Ndjson
import ProxyBroker.Serve
import ProxyBroker.Serve.Theorems.Merge
import ProxyBroker.Serve.Theorems.WarmStart
