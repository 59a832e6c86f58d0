import Arcux.Client.Routing
import Arcux.Client.Writes
import Arcux.Engine.FailedAppends
import Arcux.Engine.Grouping
import Arcux.Engine.RangeReads
import Arcux.Engine.SnapshotIsolation
import Arcux.Engine.TxnFate
import Arcux.Engine.WalReplay
import Arcux.Pd.Entries
import Arcux.Pd.Growth
import Arcux.Pd.Oracle
import Arcux.Pd.TsoRestart
import Arcux.Raft.Safety.Election
import Arcux.Raft.Safety.LogMatching
import Arcux.Raft.Safety.MembershipChange
import Arcux.Raft.Safety.ReadIndex
import Arcux.Raft.Safety.SingleChange
import Arcux.RaftWal.Atomicity
import Arcux.Region.CommandCodec
import Arcux.Region.PrewriteFrame
import Arcux.Region.Replication
import Arcux.Region.History
import Arcux.Server.ApClock
import Arcux.Server.ApMerge
import Arcux.Server.CrossRefinement
import Arcux.Server.LeaderReads
import Arcux.Server.LeafStream
import Arcux.Server.PdClock
import Arcux.Server.RaftTransport
import Arcux.Server.Reconcile
import Arcux.Server.ReportedVoters
import Arcux.Server.RequestContext
import Arcux.Server.Upreplicate
