import Dal.Lib.Tiling
import Dal.Lib.Program
import Dal.Tree.Page
import Dal.Tree.IndexCache
import Dal.Tree.Machine
import Dal.Tree.Invariant
import Dal.Tree.Local
import Dal.Tree.Advance
import Dal.Tree.Blink
import Dal.Tree.Search
import Dal.Tree.Leaf
import Dal.Tree.Internal
import Dal.Tree.Children
import Dal.Tree.Announce
import Dal.Tree.Discipline
import Dal.Tree.Torn
import Dal.Tree.HandoverData
import Dal.Tree.Turn
import Dal.Tree.Growth
import Dal.Tree.Session
import Dal.Tree.Alone
import Dal.Tree.Straight
import Dal.Tree.Solo
import Dal.Tree.Return
import Dal.Tree.Sequential
import Dal.Lock.Handover
import Dal.Lock.RandFaa
import Dal.Lock.HandTime
import Dal.Lock.Ticket
import Dal.Lock.HandoverRecord
import Dal.Dsm.Allocator
import Dal.Dsm.Alloc
import Dal.Dsm.Barrier
import Dal.Dsm.RdmaBuffer
import Dal.Dsm.RdmaLayout
import Dal.Dsm.Message
import Dal.Bench.Conservation
import Dal.Bench.LockMap
import Dal.Bench.Options
import Dal.Bench.Latency
import Dal.Tree.CachePages
import Dal.Tree.NodeCount
import Dal.Lib.Atomic
import Dal.Tree.Linearizable
import Dal.Lib.Endless
import Dal.Tree.OwnSteps
import Dal.Tree.Unblock
import Dal.Lib.Chain
import Dal.SkipList.Machine
import Dal.SkipList.Invariant
import Dal.SkipList.Step
import Dal.SkipList.Set
import Dal.Tree.CacheOrder
import Dal.Tree.RangeQuery
import Dal.Tree.Capacity
import Dal.Tree.Crowded
import Dal.Tree.Uncached
import Dal.Tree.RangeStale
import Dal.Tree.Undisturbed
import Dal.Tree.OldRoot
import Dal.Lock.Litl
import Dal.Lib.WaitQueue
import Dal.Lock.Mcs
import Dal.Lock.McsFair
import Dal.Lib.Turnstile
import Dal.Lock.Hmcs
import Dal.Lock.HmcsLive
import Dal.Lib.Mutex
import Dal.Lock.LocalMutex
