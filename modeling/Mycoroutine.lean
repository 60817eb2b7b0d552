import Mycoroutine.Interleave.Machine
import Mycoroutine.Interleave.Mortal
import Mycoroutine.Interleave.Tally
import Mycoroutine.Sync.Waiter
import Mycoroutine.Sync.Channel
import Mycoroutine.Sync.ChannelOrder
import Mycoroutine.Sync.ChannelWaiters
import Mycoroutine.Sync.CoMutex
import Mycoroutine.Sync.CoMutexFair
import Mycoroutine.Fiber.SharedStack
import Mycoroutine.Fiber.Thread
import Mycoroutine.Fiber.StackInvariant
import Mycoroutine.Fiber.StackSwitch
import Mycoroutine.Fiber.StackSurvives
import Mycoroutine.Fiber.Nesting
import Mycoroutine.Fiber.NestedCalls
import Mycoroutine.Fiber.ResumeFrom
import Mycoroutine.Pool.CoroutinePool
import Mycoroutine.Scheduler.Task
import Mycoroutine.Scheduler.TaskOrder
import Mycoroutine.Scheduler.Run
import Mycoroutine.Scheduler.RunApart
import Mycoroutine.Scheduler.RunPool
import Mycoroutine.Scheduler.RunSole
import Mycoroutine.Scheduler.SharedOwner
import Mycoroutine.Scheduler.Wakeup
import Mycoroutine.Scheduler.WakeupStale
import Mycoroutine.Scheduler.WakeupLost
import Mycoroutine.Scheduler.Dispatch
import Mycoroutine.Scheduler.Aging
import Mycoroutine.Sync.DeadWaiters
import Mycoroutine.Sync.WaitGroupWakes
import Mycoroutine.Timer.TimerSet
import Mycoroutine.Timer.Expiry
import Mycoroutine.IOManager.FdTable
import Mycoroutine.IOManager.FdContext
import Mycoroutine.IOManager.Registrations
import Mycoroutine.IOManager.FailedOperations
import Mycoroutine.Hook.Calls
import Mycoroutine.Hook.CloseMarks
import Mycoroutine.Hook.CloseUnregisters
import Mycoroutine.Hook.FinalResults
import Mycoroutine.Hook.FdManager
import Mycoroutine.IOManager.Tickle
import Mycoroutine.IOManager.Stopping
import Mycoroutine.IOManager.TimerWatch
import Mycoroutine.Scheduler.Completion
import Mycoroutine.Hook.Interpose
import Mycoroutine.Hook.PassThrough
import Mycoroutine.Hook.NoManager
import Mycoroutine.Hook.Kernel
import Mycoroutine.Words.Flag
import Mycoroutine.Hook.Nonblock
import Mycoroutine.Hook.FreshContext
import Mycoroutine.Hook.SocketTimeouts
import Mycoroutine.Scheduler.LateNotify
import Mycoroutine.Words.ByteMemory
import Mycoroutine.Fiber.ContextSwitch
import Mycoroutine.Fiber.SwitchIsolation
import Mycoroutine.Fiber.Stackless
import Mycoroutine.Fiber.StacklessSteps
import Mycoroutine.Fiber.Recycled
import Mycoroutine.Pool.PoolLimit
import Mycoroutine.Ordered.SearchTree
import Mycoroutine.Timer.TimerOrder
import Mycoroutine.Hook.Sleeps
import Mycoroutine.Interleave.Linearize
import Mycoroutine.Sync.ChannelLinear
import Mycoroutine.Sync.CoMutexLinear
import Mycoroutine.Sync.WaitGroupLinear
import Mycoroutine.Ordered.Lateness
import Mycoroutine.Scheduler.PickOrder
import Mycoroutine.Interleave.Monitor
import Mycoroutine.Threads.Semaphore
import Mycoroutine.Threads.ThreadObject
import Mycoroutine.Hook.Suspended
import Mycoroutine.Interleave.LockOrder
import Mycoroutine.Threads.Locks
import Mycoroutine.Hook.TimedCalls
import Mycoroutine.Hook.TimedTimers
import Mycoroutine.Hook.Timeouts
import Mycoroutine.Interleave.EdgeTriggered
import Mycoroutine.IOManager.Readiness
import Mycoroutine.Hook.ReadyCalls
