import Eabase.Fiber.Butex
import Eabase.Fiber.Concurrency
import Eabase.Fiber.ConditionVariable
import Eabase.Fiber.ContentionProfiler
import Eabase.Fiber.Deadline
import Eabase.Fiber.ExecutionQueuePthread
import Eabase.Fiber.ExecutionQueueRef
import Eabase.Fiber.FdWait
import Eabase.Fiber.Key
import Eabase.Fiber.ListOfABAFreeId
import Eabase.Fiber.Mutex
import Eabase.Fiber.Nosignal
import Eabase.Fiber.ParkingLot
import Eabase.Fiber.Session
import Eabase.Fiber.SessionError
import Eabase.Fiber.SessionWait
import Eabase.Fiber.Sleep
import Eabase.Fiber.StealTask
import Eabase.Fiber.TaskMeta
import Eabase.Fiber.TaskTag
import Eabase.Fiber.TimerTask
import Eabase.Fiber.TimerThread
import Eabase.Fiber.WorkStealingQueue
import Eabase.IOBuf.Appender
import Eabase.IOBuf.Appendv
import Eabase.IOBuf.Area
import Eabase.IOBuf.BackUp
import Eabase.IOBuf.BinaryPrinter
import Eabase.IOBuf.Block
import Eabase.IOBuf.BlockSize
import Eabase.IOBuf.Builder
import Eabase.IOBuf.BytesIterator
import Eabase.IOBuf.Cells
import Eabase.IOBuf.CutUntil
import Eabase.IOBuf.Cutter
import Eabase.IOBuf.Cutting
import Eabase.IOBuf.Decimal
import Eabase.IOBuf.InputStream
import Eabase.IOBuf.Invariant
import Eabase.IOBuf.Ops
import Eabase.IOBuf.OpsSpec
import Eabase.IOBuf.Portal
import Eabase.IOBuf.Reading
import Eabase.IOBuf.Refine
import Eabase.IOBuf.Reserve
import Eabase.IOBuf.Sharing
import Eabase.IOBuf.Signature
import Eabase.IOBuf.Stream
import Eabase.IOBuf.Tls
import Eabase.IOBuf.View
import Eabase.IOBuf.Wide
import Eabase.Lib.Assoc
import Eabase.Lib.Blocks
import Eabase.Lib.Chain
import Eabase.Lib.Contents
import Eabase.Lib.Fibers
import Eabase.Lib.Glob
import Eabase.Lib.Links
import Eabase.Lib.Machine
import Eabase.Lib.Mpsc
import Eabase.Lib.Numeral
import Eabase.Lib.Pieces
import Eabase.Lib.Places
import Eabase.Lib.Ring
import Eabase.Lib.Search
import Eabase.Lib.Shares
import Eabase.Lib.Split
import Eabase.Lib.Stride
import Eabase.Lib.SwapRemove
import Eabase.Lib.Tally
import Eabase.Utility.AsyncLogCount
import Eabase.Utility.AsyncLogger
import Eabase.Utility.BitArray
import Eabase.Utility.BoundedDeque
import Eabase.Utility.BoundedQueue
import Eabase.Utility.CaseIgnored
import Eabase.Utility.DoublyBufferedData
import Eabase.Utility.EndPointGrammar
import Eabase.Utility.EndPointHeld
import Eabase.Utility.EndPointPrint
import Eabase.Utility.EndPointRoundTrip
import Eabase.Utility.EndPointShown
import Eabase.Utility.EndPointText
import Eabase.Utility.EndPointValue
import Eabase.Utility.ExtendedEndPoint
import Eabase.Utility.FlatMap
import Eabase.Utility.FlatMapOps
import Eabase.Utility.FlatMapRefine
import Eabase.Utility.FlatMapTable
import Eabase.Utility.LinkedList
import Eabase.Utility.MpscQueue
import Eabase.Utility.ObjectPool
import Eabase.Utility.Pool
import Eabase.Utility.RecordFormat
import Eabase.Utility.RecordIO
import Eabase.Utility.RecordReject
import Eabase.Utility.RecordResync
import Eabase.Utility.ResourcePool
import Eabase.Utility.SparseFlatMap
import Eabase.Utility.SplitterCast
import Eabase.Utility.Status
import Eabase.Utility.StringSplitter
import Eabase.Utility.Strtol
import Eabase.Utility.SynchronousEvent
import Eabase.Utility.ThreadExit
import Eabase.Utility.ThreadKey
import Eabase.Utility.Time
import Eabase.Utility.VLog
import Eabase.Var.AgentCombiner
import Eabase.Var.Collector
import Eabase.Var.DumpKey
import Eabase.Var.GetSamples
import Eabase.Var.IntRecorder
import Eabase.Var.MVariable
import Eabase.Var.MultiDimension
import Eabase.Var.Percentile
import Eabase.Var.PercentileCombine
import Eabase.Var.PercentileIndex
import Eabase.Var.PercentileInterval
import Eabase.Var.PercentileNumber
import Eabase.Var.PercentileOrder
import Eabase.Var.PercentileRecording
import Eabase.Var.PercentileReset
import Eabase.Var.Sampler
import Eabase.Var.Series
import Eabase.Var.Wildcard
