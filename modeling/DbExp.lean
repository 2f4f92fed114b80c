import DbExp.Tapir.LogInstall
import DbExp.Tapir.VrBatching
import DbExp.Tapir.VrSuffix
import DbExp.Tapir.IrRecovery
import DbExp.Tapir.IrDurability
import DbExp.Tapir.IrConsensus
import DbExp.Tapir.LockExclusion
import DbExp.Tapir.TapirPaths
import DbExp.Tapir.TapirReplicas
import DbExp.Calvin.LockSchedule
import DbExp.Calvin.VllProgress
import DbExp.Aria.BohmProgress
import DbExp.Aria.CalvinExecutor
import DbExp.Aria.PwvSerial
import DbExp.Silo.SnapshotSafety
import DbExp.Janus.BrqSlowPath
import DbExp.Janus.GraphMerge
import DbExp.Mica.CacheReads
import DbExp.Mica.StoreSpace
import DbExp.Tapir.TapirPrepared
import DbExp.Tapir.TapirAsserts
import DbExp.Tapir.LockTimeouts
import DbExp.Tapir.LockQuorums
import DbExp.Tapir.LockSync
import DbExp.Tapir.OccPrepared
import DbExp.Tapir.UdpReassembly
import DbExp.Silo.VersionChain
import DbExp.Silo.Varint
import DbExp.Aria.Distributed
import DbExp.Aria.Rerun
import DbExp.Silo.Encoder
import DbExp.Silo.SmallMap
import DbExp.Silo.CommitLocks
import DbExp.Calvin.TxnIds
import DbExp.Aria.RowWords
import DbExp.Calvin.RepeatedKeys
import DbExp.Calvin.ReadResults
