import Bustub.Container.ExtendibleHashTable
import Bustub.Container.Directory
import Bustub.Container.SplitLoop
import Bustub.Container.FiniteMap
import Bustub.Buffer.LRUKReplacer
import Bustub.Buffer.ReplacerConsistency
import Bustub.Buffer.LRUKPolicy
import Bustub.Buffer.BufferPoolManager
import Bustub.Buffer.PoolInvariant
import Bustub.Buffer.PageStore
import Bustub.Buffer.FrameAvailability
import Bustub.Concurrency.LockRequestQueue
import Bustub.Concurrency.WaitsFor
import Bustub.Concurrency.LockManager
import Bustub.Concurrency.QueueInvariant
import Bustub.Concurrency.RowCoverage
import Bustub.Concurrency.CycleSearch
import Bustub.Concurrency.DetectorRound
import Bustub.Primer.Trie
import Bustub.Execution.Executors
import Bustub.Execution.Optimizer
import Bustub.Execution.JoinEquivalence
import Bustub.Execution.Modify
import Bustub.Execution.SeqScan
import Bustub.Index.TreePage
import Bustub.Index.BPlusTree
import Bustub.Index.Shape
import Bustub.Index.Remove
import Bustub.Index.IndexIterator
import Bustub.Index.Frame
import Bustub.Index.Subtree
import Bustub.Index.SafePage
import Bustub.Index.Bounds
import Bustub.Index.PageInsert
import Bustub.Index.Assemble
import Bustub.Index.Placed
import Bustub.Index.Split
import Bustub.Concurrency.GrantResult
import Bustub.Concurrency.GraphCalls
import Bustub.Index.PageMoves
import Bustub.Index.SlotCapacity
import Bustub.Index.Lookup
import Bustub.Index.Climb
import Bustub.Index.Insert
import Bustub.Index.Latching
import Bustub.Index.RemoveFits
import Bustub.Index.Iteration
import Bustub.Execution.SortOrder
import Bustub.Concurrency.TwoPhase
import Bustub.Execution.NestIndexJoin
import Bustub.Index.RangeScan
import Bustub.Buffer.PinnedPages
import Bustub.Execution.Aggregation
import Bustub.Execution.InsertExecutor
