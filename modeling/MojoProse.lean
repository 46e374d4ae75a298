import MojoProse.AsyncRT.LockFreeRingBuffer
import MojoProse.Graph.SliceTensor
import MojoProse.KvCache.BlockHashKeys
import MojoProse.KvCache.BlockManagerRun
import MojoProse.KvCache.FreeBlockQueue
import MojoProse.KvCache.JengaPlanning
import MojoProse.KvCache.StateCheckpoint
import MojoProse.Layouts.Divide
import MojoProse.Layouts.OrderedLayout
import MojoProse.Layouts.Swizzle
import MojoProse.Pipelines.Detokenizer
import MojoProse.Pipelines.LoraManager
import MojoProse.Pipelines.ReasoningParser
import MojoProse.Pipelines.SchemaNormalization
import MojoProse.Pipelines.StopSequences
import MojoProse.Pipelines.ToolParsing
import MojoProse.Scheduler.BatchConservation
import MojoProse.Scheduler.BudgetCuts
import MojoProse.Scheduler.BudgetLimits
import MojoProse.Scheduler.ChunkProgress
import MojoProse.Scheduler.HeadOrder
import MojoProse.Sharding.LocalShape
import MojoProse.Sharding.Reduction
import MojoProse.Stdlib.AtolLiterals
import MojoProse.Stdlib.DequeRuns
import MojoProse.Stdlib.DictRuns
import MojoProse.Stdlib.ExpandVarsPieces
import MojoProse.Stdlib.GraphemeBreak
import MojoProse.Stdlib.IntervalTreeSearch
import MojoProse.Stdlib.Memcmp
import MojoProse.Stdlib.SortHeap
import MojoProse.Stdlib.SortStable
import MojoProse.Stdlib.Split
import MojoProse.Stdlib.Utf8Validation
