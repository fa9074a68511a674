import OsCamp.FreeListAlone
import OsCamp.FreeListRace
import OsCamp.FreeListReclaim
import OsCamp.RwLockProgress
import OsCamp.SuperpageOverlap
import OsCamp.SlotTable
import OsCamp.TlbMap
import OsCamp.MmuCoherence
import OsCamp.BumpAllocator
import OsCamp.BumpThreads
import OsCamp.AlignOverflow
import OsCamp.OnceCell
import OsCamp.OnceCellWindow
import OsCamp.PipeFilter
import OsCamp.ProcessPipe
import OsCamp.GreenThreads
import OsCamp.GreenThreadStates
import OsCamp.GreenThreadRuns
import OsCamp.RiscV
import OsCamp.ContextSwitch
import OsCamp.ContextSwitchRuns
import OsCamp.ContextSwitchFloats
import OsCamp.AtomicCounter
import OsCamp.FdMap
import OsCamp.SpinLock
import OsCamp.WatchMode
import OsCamp.WatchProgress
import OsCamp.CheckScript
import OsCamp.Channels
import OsCamp.FifoCache
import OsCamp.TlbFifo
import OsCamp.TlbThrashing
import OsCamp.FreeListFirstFit
import OsCamp.ByteCopy
import OsCamp.MemPrimitives
import OsCamp.ByteStrings
import OsCamp.StringCompare
import OsCamp.RingWalk
import OsCamp.GreenThreadFairness
import OsCamp.PageTableNodes
import OsCamp.OnceCellSettled
import OsCamp.FlagChannel
import OsCamp.FdLength
import OsCamp.PageTableWalk
import OsCamp.WatchJumps
import OsCamp.PteFlags
import OsCamp.PteFormat
import OsCamp.FrameAliasing
import OsCamp.MmuCapacity
import OsCamp.BumpFill
import OsCamp.LineEndings
import OsCamp.BasicFuture
import OsCamp.FreeListContents
import OsCamp.CliRender
import OsCamp.WatchScreen
import OsCamp.WatchRefinement
import OsCamp.CliModes
import OsCamp.LockedWorkers
import OsCamp.MutexCounter
import OsCamp.ForkJoin
import OsCamp.ThreadSpawn
import OsCamp.ProducerConsumer
import OsCamp.TokioTasks
import OsCamp.FifoPaging
import OsCamp.PageTablesAgree
import OsCamp.TlbWorkingSet
import OsCamp.MemStrings
import OsCamp.WriteLog
import OsCamp.RetryLoops
import OsCamp.SuperpageRuns
import OsCamp.CounterProgress
import OsCamp.BumpProgress
import OsCamp.GreenThreadMachine
import OsCamp.Scoring
import OsCamp.FrontEnds
