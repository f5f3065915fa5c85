import CoroDB.Storage.GcExact
import CoroDB.Storage.ManifestCodec
import CoroDB.Storage.DropTable
import CoroDB.Storage.WalDamage
import CoroDB.Storage.TruncatedCodec
import CoroDB.Storage.SstFooter
import CoroDB.Storage.SstWhole
import CoroDB.Storage.TableOpen
import CoroDB.Storage.FlushReaders
import CoroDB.Storage.Atomicity
import CoroDB.Storage.Checkpoint
import CoroDB.Storage.GroupCommitProgress
import CoroDB.Txn.StatementAtomicity
import CoroDB.Txn.CommitSteps
import CoroDB.Txn.SnapshotReads
import CoroDB.Txn.RowLockManager
import CoroDB.Txn.TableLocks
import CoroDB.Txn.GcHorizon
import CoroDB.Replication.CatchUp
import CoroDB.Replication.Convergence
import CoroDB.Replication.Hub
import CoroDB.Exec.IndexFiles
import CoroDB.Exec.KeyCodec
import CoroDB.Exec.Like
import CoroDB.Exec.SumExact
import CoroDB.Exec.IntegerOrder
import CoroDB.Exec.Membership
import CoroDB.Sql.PredicateParser
import CoroDB.Process.ReadOnlyRole
import CoroDB.Server.Disconnect
import CoroDB.Server.Input
import CoroDB.Server.Shutdown
import CoroDB.Exec.IntegerOperations
import CoroDB.Server.Response
import CoroDB.Storage.Statistics
import CoroDB.Txn.Bookkeeping
import CoroDB.Process.PlanCache
import CoroDB.Storage.DecodedCache
import CoroDB.Server.RateLimit
import CoroDB.Storage.Crc32cBurst
import CoroDB.Process.UserManager
import CoroDB.Server.ThreadPool
