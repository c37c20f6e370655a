import TmULThreads.Lib.RedBlackTree
import TmULThreads.Lib.RedBlackBalance
import TmULThreads.Lib.RedBlackWalk
import TmULThreads.Lib.PartialSteps
import TmULThreads.Lib.SlotTable
import TmULThreads.Lib.BlockPool
import TmULThreads.Lib.LinkedChain
import TmULThreads.Lib.CircularList
import TmULThreads.Lib.Separation
import TmULThreads.Rbtree.Model
import TmULThreads.Rbtree.Shape
import TmULThreads.Rbtree.Insert
import TmULThreads.Rbtree.Erase
import TmULThreads.Rbtree.Unlink
import TmULThreads.Rbtree.Walk
import TmULThreads.Timers.Ctime
import TmULThreads.Timers.Clock
import TmULThreads.Timers.Cascade
import TmULThreads.Timers.Arming
import TmULThreads.Timers.Model
import TmULThreads.Timers.Packing
import TmULThreads.Timers.Trees
import TmULThreads.Timers.Steps
import TmULThreads.Timers.Balance
import TmULThreads.Timers.TreeMemory
import TmULThreads.Timers.Coherent
import TmULThreads.Timers.Handles
import TmULThreads.Timers.Sweep
import TmULThreads.Timers.Wheels
import TmULThreads.Timers.Tracking
import TmULThreads.Timers.Expiry
import TmULThreads.Timers.Deferred
import TmULThreads.Timers.Uptime
import TmULThreads.Timers.Race
import TmULThreads.Mem.Pool
import TmULThreads.Mem.Histories
import TmULThreads.Mem.Registry
import TmULThreads.Mem.Area
import TmULThreads.Mem.Addresses
import TmULThreads.Mem.Supply
import TmULThreads.Hash.Model
import TmULThreads.Hash.Chains
import TmULThreads.Hash.Refinement
import TmULThreads.Hash.Count
import TmULThreads.MsgQueue.Model
import TmULThreads.MsgQueue.Backing
import TmULThreads.MsgQueue.Delivery
import TmULThreads.MsgQueue.Capacity
import TmULThreads.Sched.Model
import TmULThreads.Sched.Queues
import TmULThreads.Sched.Effects
import TmULThreads.Sched.Regular
import TmULThreads.Sched.Boot
import TmULThreads.Sched.Placement
import TmULThreads.Sched.Counters
import TmULThreads.Sched.Election
import TmULThreads.MsgQueue.Waiters
import TmULThreads.Lock.Statements
import TmULThreads.Lock.Exclusion
import TmULThreads.Sched.LockQueue
import TmULThreads.Lib.Ledger
import TmULThreads.Lib.Meter
import TmULThreads.Task.Events
import TmULThreads.Task.Registry
import TmULThreads.Task.Names
import TmULThreads.Sched.Frame
import TmULThreads.Sched.Events
import TmULThreads.Sched.SoftIrq
import TmULThreads.Sched.Exit
import TmULThreads.Sched.OsThreads
import TmULThreads.Sched.Bounds
import TmULThreads.Sched.Cache
import TmULThreads.Sched.Rotation
import TmULThreads.Sched.IoWait
import TmULThreads.Sched.Pointers
import TmULThreads.Sched.Lookup
import TmULThreads.Task.Creation
import TmULThreads.Sched.Signals
import TmULThreads.Sched.Handlers
import TmULThreads.Sched.Sleepers
import TmULThreads.Timers.References
import TmULThreads.Timers.Count
import TmULThreads.Timers.Skipping
import TmULThreads.Timers.Repeat
import TmULThreads.Timers.Deletion
import TmULThreads.Timers.BottomHalf
import TmULThreads.ThreadLib.Model
import TmULThreads.ThreadLib.Sleep
import TmULThreads.ThreadLib.Stale
import TmULThreads.ThreadLib.Wakeups
import TmULThreads.ThreadLib.Allocations
import TmULThreads.Mem.Creation
import TmULThreads.ThreadLib.Holdings
import TmULThreads.ThreadLib.Accounting
import TmULThreads.Io.Receive
import TmULThreads.Io.Select
