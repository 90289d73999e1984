import CppServer.Base.Machine
import CppServer.Base.Counting
import CppServer.Base.Words
import CppServer.CoreMacro
import CppServer.Lock.Word
import CppServer.Lock.Steps
import CppServer.Lock.System
import CppServer.Lock.Invariant
import CppServer.Lock.Exclusion
import CppServer.Lock.Overflow
import CppServer.Lock.Recursion
import CppServer.ThreadManager
import CppServer.Base.Graph
import CppServer.Base.Outcome
import CppServer.Base.OrderedSet
import CppServer.DeadLockProfiler.Profiler
import CppServer.DeadLockProfiler.Search
import CppServer.DeadLockProfiler.Calls
import CppServer.DeadLockProfiler.Ordering
import CppServer.DeadLockProfiler.Names
import CppServer.DeadLockProfiler.Interleaving
import CppServer.Base.Linked
import CppServer.LockFreeStack.Steps
import CppServer.LockFreeStack.System
import CppServer.LockFreeStack.Invariant
import CppServer.LockFreeStack.Refinement
import CppServer.Memory.Steps
import CppServer.Memory.System
import CppServer.Memory.Ownership
import CppServer.Memory.Calls
import CppServer.Memory.Counters
import CppServer.Memory.Pooling
import CppServer.Memory.StlAllocator
import CppServer.RefCounting.Steps
import CppServer.RefCounting.System
import CppServer.RefCounting.Invariant
import CppServer.RefCounting.Variables
import CppServer.RefCounting.Counted
import CppServer.RefCounting.Accounting
import CppServer.RefCounting.Lifetime
import CppServer.Listener.Steps
import CppServer.Listener.System
import CppServer.Base.Custody
import CppServer.Listener.Armed
import CppServer.Listener.Sessions
import CppServer.DeadLockProfiler.Nesting
import CppServer.DeadLockProfiler.Reentry
import CppServer.DeadLockProfiler.Classes
import CppServer.DeadLockProfiler.Pops
import CppServer.StompAllocator
import CppServer.ThreadJoin.Invariant
import CppServer.ThreadJoin.Joined
import CppServer.Lock.Superfluous
import CppServer.RefCounting.Fields
import CppServer.RefCounting.Assignment
import CppServer.Base.Grid
import CppServer.TypeCast
import CppServer.Memory.Stomp
import CppServer.Memory.Alignment
import CppServer.Memory.DoubleRelease
import CppServer.Service.Sessions
import CppServer.DeadLockProfiler.Reports
import CppServer.LockFreeStack.Reclamation
import CppServer.Listener.Teardown
import CppServer.Base.Inevitable
import CppServer.Listener.Turns
import CppServer.Listener.Returns
import CppServer.Base.Progress
import CppServer.Lock.Refinement
import CppServer.Base.Anchored
import CppServer.Base.Waiting
import CppServer.Locks.System
import CppServer.Locks.Views
import CppServer.Locks.Waiting
import CppServer.Locks.Debug
import CppServer.Locks.Release
import CppServer.Base.Sections
import CppServer.Lock.Guard
import CppServer.Service.Guarded
import CppServer.LockFreeStack.Progress
import CppServer.RefCounting.Collection
import CppServer.RefCounting.Program
import CppServer.Base.Objects
import CppServer.Base.Allocator
import CppServer.Memory.Contents
import CppServer.Memory.Stomp.Contents
import CppServer.Memory.Footprint
import CppServer.Memory.Teardown
import CppServer.Listener.Lifetime
import CppServer.ThreadJoin.Ended
import CppServer.CoreGlobal
import CppServer.Base.Projection
import CppServer.Lock.Process
import CppServer.ThreadJoin.Returns
