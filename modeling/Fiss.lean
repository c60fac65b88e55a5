import Fiss.Schemes.Dict
import Fiss.Schemes.OrdSet
import Fiss.Schemes.OrdMap
import Fiss.Schemes.Reach
import Fiss.Schemes.Scc
import Fiss.Schemes.Traverse
import Fiss.Schemes.Runs
import Fiss.Schemes.Cursor
import Fiss.Schemes.Ledger
import Fiss.Schemes.Rounds
import Fiss.Schemes.Frames
import Fiss.Schemes.Index
import Fiss.Schemes.Codec
import Fiss.Schemes.Multi
import Fiss.Olap.Graph
import Fiss.Olap.Server
import Fiss.Olap.Constant
import Fiss.Olap.Threads
import Fiss.Olap.Commit
import Fiss.Olap.Steps
import Fiss.Olap.Waitlist
import Fiss.Olap.OrderGraph
import Fiss.Olap.Ingest
import Fiss.Olap.Depend
import Fiss.Olap.Callers
import Fiss.Olap.Query
import Fiss.Pam.RowAssembly
import Fiss.Pam.Tables
import Fiss.Pam.Rebuild
import Fiss.Pam.UpdateMap
import Fiss.Rcc.DTxn
import Fiss.Rcc.Graph
import Fiss.Rcc.Report
import Fiss.Rcc.Access
import Fiss.Rcc.Pieces
import Fiss.Rcc.Inputs
import Fiss.Rcc.Phases
import Fiss.Rcc.Sched
import Fiss.Rcc.Ancestors
import Fiss.Brq.Coord
import Fiss.Brq.Server
import Fiss.Brq.Orders
import Fiss.Brq.Once
import Fiss.Brq.Conflicts
import Fiss.Brq.Values
import Fiss.Brq.Final
import Fiss.Brq.Phases
import Fiss.Brq.Polls
import Fiss.Brq.Verdict
import Fiss.Brq.Paths
import Fiss.Chronos.Clock
import Fiss.Chronos.Tx
import Fiss.Chronos.Sched
import Fiss.Chronos.Walk
import Fiss.Chronos.Steps
import Fiss.Chronos.Subject
import Fiss.Chronos.Ready
import Fiss.Chronos.Notified
import Fiss.Chronos.Quorum
import Fiss.Chronos.Confluence
import Fiss.Chronos.Decision
import Fiss.Chronos.Values
import Fiss.Slog.Manager
import Fiss.Slog.Raft
import Fiss.Slog.Batch
import Fiss.Slog.Tx
import Fiss.Slog.Sched
import Fiss.Slog.Queue
import Fiss.Slog.Moves
import Fiss.Slog.Order
import Fiss.Slog.Reply
import Fiss.Slog.Settled
import Fiss.Slog.Inputs
import Fiss.Slog.Confluence
import Fiss.Classic.Workspace
import Fiss.Classic.Coord
import Fiss.Classic.Atomic
import Fiss.MultiPaxos.Learner
import Fiss.Tpl.Coverage
import Fiss.Alock.Queue
import Fiss.Alock.WaitDie
import Fiss.Alock.WoundDie
import Fiss.Alock.Safety
import Fiss.OceanVista.Gossip
import Fiss.OceanVista.Watermark
import Fiss.OceanVista.Execution
import Fiss.Tapir.Coord
import Fiss.Tapir.Decision
import Fiss.Memdb.RWLock
import Fiss.Tapir.Exec
import Fiss.Tapir.Exclusion
import Fiss.Tapir.Validation
import Fiss.Occ.Txn
import Fiss.Occ.Exec
import Fiss.Occ.Protection
import Fiss.Occ.Checks
import Fiss.Pam.MapOps
import Fiss.Pam.Dates
import Fiss.Rrr.SparseInt
import Fiss.Rcc.Marshal
import Fiss.Memdb.Merged
import Fiss.Chopper.Dispatch
import Fiss.Chopper.Payment
import Fiss.Rcc.Traverse
import Fiss.Brq.Touched
import Fiss.Pam.Keys
import Fiss.Tpl.Alone
import Fiss.Pam.Accumulators
import Fiss.Pam.Arrival
import Fiss.Pam.Customers
import Fiss.Sharding.Index
