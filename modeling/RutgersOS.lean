import RutgersOS.Memory.Bytes
import RutgersOS.Memory.CStrings
import RutgersOS.Memory.Blocks
import RutgersOS.Memory.Merging
import RutgersOS.Memory.Payloads
import RutgersOS.Memory.Bounded
import RutgersOS.Memory.Allocations
import RutgersOS.Memory.Placement
import RutgersOS.Memory.Extents
import RutgersOS.VSmymalloc.Arena
import RutgersOS.VSmymalloc.Heap
import RutgersOS.VSmymalloc.Clients
import RutgersOS.VSmymalloc.FreeOrder
import RutgersOS.VSmymalloc.FirstFit
import RutgersOS.Mutex.FifoLock
import RutgersOS.Mutex.TicketMutex
import RutgersOS.Pthread.Queue
import RutgersOS.Assignment1.Preemption
import RutgersOS.Assignment1.LostThreads
import RutgersOS.Assignment1.Maintenance
import RutgersOS.Assignment2.Scheduler
import RutgersOS.Assignment2.JoinValues
import RutgersOS.Assignment2.Switching
import RutgersOS.Assignment2.Eviction
import RutgersOS.Assignment2.Tables
import RutgersOS.Assignment2.Calls
import RutgersOS.Assignment2.Requests
import RutgersOS.Assignment2.Yielding
import RutgersOS.Assignment2.Faults
import RutgersOS.Assignment2.Ownership
import RutgersOS.Assignment2.Invisibility
import RutgersOS.Assignment2.Exits
import RutgersOS.Assignment2.Protection
import RutgersOS.Assignment2.OwnerSearch
import RutgersOS.Assignment2.JoinedTables
import RutgersOS.Assignment2.FaultHandling
import RutgersOS.Assignment2.Growth
import RutgersOS.Assignment2.UserHeap
import RutgersOS.Assignment2.UserAllocation
import RutgersOS.Assignment2.RoundRobin
import RutgersOS.Assignment2.NewHeap
import RutgersOS.Assignment2.Blanks
import RutgersOS.Assignment2.Scans
import RutgersOS.Assignment2.Sentinels
import RutgersOS.Assignment2.Exhaustion
import RutgersOS.Assignment2.OutOfFrames
import RutgersOS.Assignment2.Filling
import RutgersOS.Assignment2.LostMoves
import RutgersOS.Assignment2.LostPages
import RutgersOS.Assignment2.Regions
import RutgersOS.Assignment2.StrayPointers
import RutgersOS.Assignment2.SwapPairs
import RutgersOS.Assignment2.ThreadIds
import RutgersOS.Sfs.Disk
import RutgersOS.Sfs.Coverage
import RutgersOS.Sfs.Arrays
import RutgersOS.Sfs.Path
import RutgersOS.Sfs.Parsing
import RutgersOS.Sfs.NameTree
import RutgersOS.Sfs.Create
import RutgersOS.Sfs.Existence
import RutgersOS.Sfs.Exhaustion
import RutgersOS.Sfs.CreationOrder
import RutgersOS.Sfs.Formatting
import RutgersOS.Assignment2.Rounds
import RutgersOS.Mutex.Counter
import RutgersOS.Memory.Chains
import RutgersOS.Pthread.LinkedQueue
import RutgersOS.Assignment2.LinkedScheduler
import RutgersOS.Assignment2.LinkedRuns
import RutgersOS.Assignment2.Waiting
import RutgersOS.Assignment2.ForkJoin
import RutgersOS.Assignment2.PrivateMemories
import RutgersOS.Memory.Layouts
import RutgersOS.Memory.Holdings
import RutgersOS.VSmymalloc.Workloads
import RutgersOS.VSmymalloc.Memgrind
import RutgersOS.VSmymalloc.Capacity
import RutgersOS.Assignment2.OsHeap
import RutgersOS.Assignment2.OsAccounts
import RutgersOS.Assignment2.OsBalance
import RutgersOS.Assignment2.Starvation
import RutgersOS.Assignment2.Hosting
