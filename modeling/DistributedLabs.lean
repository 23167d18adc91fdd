import DistributedLabs.Runs
import DistributedLabs.TermLedger
import DistributedLabs.TermLedgerSteps
import DistributedLabs.TermLedgerCommit
import DistributedLabs.TermLedgerOverlay
import DistributedLabs.Majority
import DistributedLabs.RaftModel
import DistributedLabs.RaftCluster
import DistributedLabs.RaftShape
import DistributedLabs.RaftHistory
import DistributedLabs.RaftPeerSteps
import DistributedLabs.RaftLogSteps
import DistributedLabs.RaftReplySteps
import DistributedLabs.RaftInvariant
import DistributedLabs.RaftRuns
import DistributedLabs.RaftSafety
import DistributedLabs.RsmModel
import DistributedLabs.RsmCluster
import DistributedLabs.RsmReplies
import DistributedLabs.KvServer
import DistributedLabs.ShardCfg
import DistributedLabs.Controllers
import DistributedLabs.ControllerChain
import DistributedLabs.ControllerSafety
import DistributedLabs.Handoff
import DistributedLabs.ShardServer
import DistributedLabs.Migration
import DistributedLabs.MigrationInvariant
import DistributedLabs.MigrationSafety
import DistributedLabs.MigrationReads
import DistributedLabs.ShardClerk
import DistributedLabs.RsmFold
import DistributedLabs.RaftBounds
import DistributedLabs.RaftCrash
import DistributedLabs.RaftApplyStream
import DistributedLabs.Linearizability
import DistributedLabs.Retries
import DistributedLabs.KvCalls
import DistributedLabs.KvSrv
import DistributedLabs.KvRaft
import DistributedLabs.KvLock
import DistributedLabs.MrCoordinator
import DistributedLabs.MrFencing
import DistributedLabs.Grouping
import DistributedLabs.MrWorker
import DistributedLabs.MrJob
import DistributedLabs.RaftNextIndex
import DistributedLabs.RaftBacktrack
import DistributedLabs.RaftProgress
import DistributedLabs.RaftVouched
import DistributedLabs.RaftMerge
import DistributedLabs.RaftCompaction
import DistributedLabs.CommitRule
import DistributedLabs.ShardIdempotence
import DistributedLabs.KvMachines
import DistributedLabs.LoadBalance
import DistributedLabs.ShardBalance
import DistributedLabs.ShardReconfiguration
import DistributedLabs.RaftProvenance
import DistributedLabs.RaftElection
import DistributedLabs.RaftAvailability
import DistributedLabs.RsmStack
import DistributedLabs.RsmRefinement
import DistributedLabs.RsmCommits
import DistributedLabs.RsmLinearizable
import DistributedLabs.RsmWaiters
import DistributedLabs.KvStack
import DistributedLabs.Locality
import DistributedLabs.Porcupine
import DistributedLabs.Labrpc
import DistributedLabs.Fairness
import DistributedLabs.LabrpcProgress
