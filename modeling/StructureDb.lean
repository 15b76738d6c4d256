import StructureDb.Lib.Decimal
import StructureDb.Lib.Merge
import StructureDb.Lib.Dir
import StructureDb.Lib.Machine
import StructureDb.Spec.Types
import StructureDb.Spec.Lsm
import StructureDb.Spec.Background
import StructureDb.Proofs.Names
import StructureDb.Proofs.Levels
import StructureDb.Proofs.LsmSteps
import StructureDb.Proofs.Contents
import StructureDb.Proofs.Restart
import StructureDb.Proofs.Backing
import StructureDb.Spec.Database
import StructureDb.Spec.World
import StructureDb.Lib.FirstOf
import StructureDb.Proofs.TableRows
import StructureDb.Proofs.DbSteps
import StructureDb.Proofs.Visibility
import StructureDb.Proofs.Locks
import StructureDb.Proofs.Rows
import StructureDb.Proofs.Refinement
import StructureDb.Proofs.Harmless
import StructureDb.Proofs.Isolation
import StructureDb.Proofs.Rollback
import StructureDb.Proofs.Provenance
import StructureDb.Lib.Consecutive
import StructureDb.Proofs.Recovery
import StructureDb.Proofs.DbRecovery
import StructureDb.Spec.Ledger
import StructureDb.Proofs.SequenceNumbers
import StructureDb.Proofs.Reopened
import StructureDb.Spec.Requests
import StructureDb.Proofs.Durability
import StructureDb.Proofs.Complete
import StructureDb.Proofs.Rebuild
import StructureDb.Proofs.Positions
import StructureDb.Proofs.Cleaning
import StructureDb.Proofs.AllOrNothing
import StructureDb.Proofs.Snapshot
import StructureDb.Proofs.SegmentOrder
import StructureDb.Proofs.LogRoundTrip
import StructureDb.Proofs.ConcurrentLog
import StructureDb.Lib.Coroutine
import StructureDb.Spec.Server
import StructureDb.Proofs.Sessions
import StructureDb.Proofs.ServerSteps
import StructureDb.Proofs.RowLocks
import StructureDb.Proofs.SelfWait
import StructureDb.Proofs.VisibleLogged
import StructureDb.Spec.ByteDatabase
import StructureDb.Proofs.LogBytes
import StructureDb.Proofs.ServerRefinement
import StructureDb.Proofs.LeaderLog
import StructureDb.Proofs.Stream
import StructureDb.Proofs.Retention
import StructureDb.Proofs.Mirrored
import StructureDb.Proofs.Shipped
import StructureDb.Lib.Interference
import StructureDb.Spec.Service
import StructureDb.Proofs.Programs
import StructureDb.Proofs.ServiceSteps
import StructureDb.Proofs.Ownership
import StructureDb.Proofs.Autocommit
import StructureDb.Proofs.Maintenance
import StructureDb.Proofs.Versions
import StructureDb.Proofs.Finished
import StructureDb.Proofs.Lookups
import StructureDb.Proofs.CatalogRows
import StructureDb.Proofs.TableNames
import StructureDb.Proofs.CreatedOnce
import StructureDb.Proofs.WalSessions
import StructureDb.Proofs.LongEvents
import StructureDb.Proofs.PageParsing
import StructureDb.Lib.BinarySearch
import StructureDb.Lib.Chunks
import StructureDb.Lib.LruCache
import StructureDb.Spec.TableFile
import StructureDb.Proofs.TableBuild
import StructureDb.Proofs.TableScan
import StructureDb.Proofs.LongRecords
import StructureDb.Proofs.PageReads
import StructureDb.Spec.SharedLsm
import StructureDb.Proofs.PutOrder
import StructureDb.Proofs.SharedCalls
import StructureDb.Proofs.SharedRuns
import StructureDb.Proofs.InsertionOrder
import StructureDb.Proofs.FailedCalls
import StructureDb.Spec.TreeFiles
import StructureDb.Proofs.TableReads
import StructureDb.Proofs.CrashAtomic
import StructureDb.Spec.OpenIterators
import StructureDb.Proofs.OpenIterators
import StructureDb.Proofs.OpenScans
import StructureDb.Lib.PriorityQueue
import StructureDb.Proofs.MergeIterator
import StructureDb.Proofs.LruCache
import StructureDb.Spec.Cli
import StructureDb.Proofs.Cli
import StructureDb.Proofs.MutexCalls
import StructureDb.Lib.Codec
import StructureDb.Spec.Formats
import StructureDb.Proofs.Formats
import StructureDb.Proofs.CorruptedPages
import StructureDb.Proofs.Reapplied
import StructureDb.Proofs.SysTables
import StructureDb.Proofs.DeleteSteps
import StructureDb.Proofs.Deletes
import StructureDb.Spec.Cluster
import StructureDb.Proofs.ClusterLog
import StructureDb.Proofs.Cluster
import StructureDb.Proofs.ReplicatedLog
import StructureDb.Spec.Replica
import StructureDb.Proofs.ReplicaTrees
import StructureDb.Proofs.LoggedWorld
import StructureDb.Proofs.Behind
import StructureDb.Proofs.Replica
import StructureDb.Spec.Clients
import StructureDb.Proofs.Clients
import StructureDb.Spec.Completion
import StructureDb.Proofs.Completion
import StructureDb.Spec.Viewer
import StructureDb.Proofs.Viewer
import StructureDb.Lib.Serial
import StructureDb.Proofs.Serial
import StructureDb.Spec.Startup
import StructureDb.Proofs.CrashLoop
import StructureDb.Lib.Ranked
import StructureDb.Proofs.LockOrder
import StructureDb.Proofs.TableIsolation
import StructureDb.Proofs.ByteDatabase
import StructureDb.Spec.LogMemory
import StructureDb.Proofs.LogMemory
import StructureDb.Spec.FileReads
import StructureDb.Proofs.FileReads
