import Tikv.Lib.Decoding
import Tikv.Lib.VersionMap
import Tikv.Lib.ExceptState
import Tikv.Lib.Lex
import Tikv.Lib.KeyRange
import Tikv.Lib.WaitQueue
import Tikv.Lib.HashMap
import Tikv.Lib.GraphSearch
import Tikv.Lib.Trace
import Tikv.Lib.LruCache
import Tikv.Lib.Heap
import Tikv.Lib.Window
import Tikv.Lib.Chunks
import Tikv.Lib.BitRange
import Tikv.Lib.Calendar
import Tikv.Codec.Number
import Tikv.Codec.Bytes
import Tikv.Codec.MemComparable
import Tikv.Codec.ByteCodec
import Tikv.Codec.VarintSuffix
import Tikv.Lib.Words
import Tikv.Codec.Mysql.Decimal
import Tikv.Codec.Mysql.DecimalMul
import Tikv.Codec.Mysql.DecimalCmp
import Tikv.Codec.Mysql.Time
import Tikv.Codec.Mysql.TimePacked
import Tikv.Codec.Mysql.TimeRound
import Tikv.TxnTypes.Types
import Tikv.TxnTypes.Key
import Tikv.TxnTypes.Lock
import Tikv.TxnTypes.Write
import Tikv.Mvcc.Txn
import Tikv.Mvcc.Reader
import Tikv.Mvcc.Versions
import Tikv.Mvcc.Actions.Prewrite
import Tikv.Mvcc.Actions.CheckTxnStatus
import Tikv.Mvcc.Actions.AcquirePessimisticLock
import Tikv.Mvcc.Commands
import Tikv.Mvcc.LastChange.Invariant
import Tikv.Mvcc.LastChange.Actions
import Tikv.Mvcc.LastChange.Prewrite
import Tikv.Mvcc.LastChange.Run
import Tikv.Mvcc.AcquireSpec
import Tikv.Mvcc.AcquireRun
import Tikv.Raftstore.ReadProgress
import Tikv.Raftstore.Region
import Tikv.Raftstore.Lease
import Tikv.Raftstore.EntryCache
import Tikv.Storage.TxnStatusCache
import Tikv.Util.Lru
import Tikv.Util.LruRefinement
import Tikv.ResolvedTs.Resolver
import Tikv.Scheduler.Latch
import Tikv.Scheduler.LatchProtocol
import Tikv.LockManager.DetectTable
import Tikv.LockManager.Deadlock
import Tikv.Lib.Rounding
import Tikv.Codec.Mysql.DecimalRound
import Tikv.Codec.Mysql.DecimalCarry
import Tikv.Codec.Mysql.DecimalRoundSpec
import Tikv.Codec.Mysql.DecimalRoundValue
