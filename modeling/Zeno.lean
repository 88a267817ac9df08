import Zeno.Lib.Machine
import Zeno.Lib.Bytes
import Zeno.Lib.CStr
import Zeno.Lib.Scan
import Zeno.Lib.Buffer
import Zeno.Lib.Bitmap
import Zeno.Lib.Ring
import Zeno.Lib.Wildcard
import Zeno.Lib.Gregorian
import Zeno.Lib.Frame
import Zeno.Lib.Refine
import Zeno.Lib.Slice
import Zeno.Lib.Fields
import Zeno.Lib.Binary32
import Zeno.Lib.Numeral
import Zeno.Lib.Substring
import Zeno.Kv.Rid
import Zeno.Kv.FileMap
import Zeno.Kv.Local
import Zeno.Kv.Reuse
import Zeno.Kv.Flat
import Zeno.Kv.Advance
import Zeno.Kv.Shared
import Zeno.Kv.Checkpoint
import Zeno.Kv.Fresh
import Zeno.Kv.Texts
import Zeno.Kv.History
import Zeno.Tee.Crypto
import Zeno.Tee.Calc
import Zeno.Tee.Like
import Zeno.Tee.Year
import Zeno.Wal.Payload
import Zeno.Wal.Format
import Zeno.Wal.Batch
import Zeno.Wal.Retry
import Zeno.Wal.LogFile
import Zeno.Rpc.Machine
import Zeno.Rpc.Invariant
import Zeno.Rpc.Progress
import Zeno.Tee.Ops
import Zeno.Tee.Ivs
import Zeno.Tee.Safety
import Zeno.Tee.Substr
import Zeno.Tee.Lengths
import Zeno.Tee.Secrecy
import Zeno.Rpc.Region
import Zeno.Rpc.Text
import Zeno.Rpc.KvRequest
import Zeno.Rpc.KvBatch
import Zeno.Rpc.BatchWalk
import Zeno.Tee.Clients
import Zeno.Sql.Sum
import Zeno.Sql.Aggregates
import Zeno.Sql.SumSlots
import Zeno.Sql.Reevaluate
import Zeno.Sql.Functions
import Zeno.Sql.Casts
import Zeno.Sql.FloatOrder
import Zeno.Sql.Comparison
import Zeno.Sql.Terms
import Zeno.Sql.Query
import Zeno.Sql.Substring
import Zeno.Sql.ParallelPlan
import Zeno.Sql.Parallel
import Zeno.Wal.Backend
import Zeno.Wal.Pending
import Zeno.Wal.Arrays
import Zeno.Sql.Trigger
import Zeno.Sql.Executor
import Zeno.Sql.Session
import Zeno.Sql.Nesting
import Zeno.Sql.DeleteQueue
import Zeno.Sql.QueueRuns
import Zeno.Sql.LazyDelete
import Zeno.Sql.LazyRun
import Zeno.Wal.Recovery
import Zeno.Wal.Restart
import Zeno.Rpc.Calls
import Zeno.Rpc.Wire
import Zeno.Rpc.Linear
import Zeno.Rpc.Lifecycle
import Zeno.Rpc.Waiting
import Zeno.Wal.Entry
