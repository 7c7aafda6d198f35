import MultiDb.Verification.Ap.Convergence
import MultiDb.Verification.Audit.Batching
import MultiDb.Verification.Cloud.BackupGc
import MultiDb.Verification.Cloud.LeaseFile
import MultiDb.Verification.Cloud.Quota
import MultiDb.Verification.Cloud.Resume
import MultiDb.Verification.Cp.Snapshots
import MultiDb.Verification.DistTxn.GroupCommit
import MultiDb.Verification.Documents.IndexScan
import MultiDb.Verification.Healing.Eviction
import MultiDb.Verification.Healing.Repair
import MultiDb.Verification.History.ListedRows
import MultiDb.Verification.History.TimeTravel
import MultiDb.Verification.History.TimestampLookup
import MultiDb.Verification.Query.CachedScans
import MultiDb.Verification.Shard.Colocation
import MultiDb.Verification.Shard.MigrationFaults
import MultiDb.Verification.Storage.Compressed
import MultiDb.Verification.Storage.LegacyFrames
import MultiDb.Verification.Storage.Tampering
import MultiDb.Verification.Txn.HlcOrder
import MultiDb.Verification.Txn.Serializable
