import OsFifthSem.Sync.Mutex.Wakeup
import OsFifthSem.Sync.SwapList.Deadlock
import OsFifthSem.Sync.BoundedQueue.CondVar.Safety
import OsFifthSem.Sync.BoundedQueue.Semaphore
import OsFifthSem.Support.LinkedList
import OsFifthSem.Proxy.Cache.Structure
import OsFifthSem.Proxy.Cache.Contents
import OsFifthSem.Proxy.Cache.Unregister
import OsFifthSem.Proxy.Cache.Eviction
import OsFifthSem.Proxy.Cache.Finish
import OsFifthSem.Proxy.Streaming.SingleFlight
import OsFifthSem.Proxy.Streaming.History
import OsFifthSem.Proxy.Streaming.Instances
import OsFifthSem.Proxy.Streaming.Ownership
import OsFifthSem.Proxy.Streaming.Resource
import OsFifthSem.Proxy.Streaming.Delivery
import OsFifthSem.Proxy.Streaming.Disconnect
import OsFifthSem.Proxy.Streaming.Waiting
import OsFifthSem.Proxy.Streaming.Failure
import OsFifthSem.Proxy.Streaming.Refused
import OsFifthSem.Proxy.Dispatch.Load
import OsFifthSem.Proxy.Dispatch.Ownership
import OsFifthSem.Proxy.Dispatch.Table
import OsFifthSem.Proxy.KeyBuffer
import OsFifthSem.Proxy.Connections.Count
import OsFifthSem.Threads.Coroutine.Scheduling
import OsFifthSem.Threads.Uthread.AllFinish
import OsFifthSem.Threads.Pool.Slots
import OsFifthSem.Threads.Pool.Shutdown
import OsFifthSem.Threads.Pool.Failure
import OsFifthSem.Threads.KerThreads.Join
import OsFifthSem.Proxy.Referer
import OsFifthSem.Proxy.Cache.Register
import OsFifthSem.Proxy.Cache.Growth
import OsFifthSem.Sync.SwapList.Position
import OsFifthSem.Sync.BoundedQueue.Sequential
import OsFifthSem.Sync.Spinlock
import OsFifthSem.Sync.BoundedQueue.Destroy
import OsFifthSem.Threads.Coroutine.Rounds
import OsFifthSem.Threads.Coroutine.SharedMap
import OsFifthSem.Proxy.Streaming.TaskLifetime
import OsFifthSem.Sync.Mutex.Progress
import OsFifthSem.Sync.Spinlock.Linearizable
import OsFifthSem.Sync.BoundedQueue.ReaderWriter
import OsFifthSem.Sync.SwapList.Shutdown
import OsFifthSem.Proxy.Streaming.Download
import OsFifthSem.Proxy.Cache.SharedEntry.Progress
import OsFifthSem.Proxy.Cache.StoreRefinement
import OsFifthSem.Threads.Coroutine.ClusterFinish
import OsFifthSem.Sync.BoundedQueue.CondVar.Progress
import OsFifthSem.Sync.BoundedQueue.Semaphore.Progress
import OsFifthSem.Threads.Uthread.Rounds
