import RutgersOS.Assignment2.Frames
import RutgersOS.Assignment2.Regions
import RutgersOS.Assignment2.Turns
import RutgersOS.Memory.Holdings

namespace RutgersOS.Assignment2

open RutgersOS.Memory RutgersOS.Pthread

/-! What the thread library keeps in the OS region: `my_pthread_create` takes the
blocks of a thread from `myallocate`, `my_pthread_exit` gives the queue node back and
`my_pthread_join` the rest. -/

inductive Object where
  | pageTables
  | masterTable
  | pageTable (t : Nat)
  | struct (t : Nat)
  | context (t : Nat)
  | stack (t : Nat)
  | node (t : Nat)
  deriving DecidableEq

/-- The sizes that the library asks for, with pointers of eight bytes and a
`ucontext_t` of `contextSize`. -/
def Object.size (contextSize : Nat) : Object → Nat
  | pageTables => maxThreads * 8
  | masterTable => totalPages
  | pageTable _ => memoryPages * 2
  | struct _ => 32
  | context _ => contextSize
  | stack _ => 10000
  | node _ => 40

def Object.thread : Object → Option Nat
  | pageTables => none
  | masterTable => none
  | pageTable t => some t
  | struct t => some t
  | context t => some t
  | stack t => some t
  | node t => some t

/-- `holder` is the pointer that the library has to an object. -/
structure Library where
  scheduler : Scheduler
  memory : Bytes
  holder : Object → Option Int

namespace Library

variable (contextSize : Nat)

/-- `myallocate(size, __FILE__, __LINE__, 69)`.  The library uses the pointer
unchecked, so that NULL ends the run. -/
def claim (s : Library) (object : Object) : Option Library := do
  let (memory, answer) ← Allocator.myallocate s.memory (object.size contextSize) 69
  let ptr ← answer
  some { s with memory, holder := Function.update s.holder object (some ptr) }

def claimAll (s : Library) : List Object → Option Library
  | [] => some s
  | object :: objects => do
      let s ← s.claim contextSize object
      s.claimAll objects

def discard (s : Library) (object : Object) : Option Library := do
  let ptr ← s.holder object
  let memory ← Allocator.mydeallocate s.memory (some ptr) 69
  some { s with memory, holder := Function.update s.holder object none }

def discardAll (s : Library) : List Object → Option Library
  | [] => some s
  | object :: objects => do
      let s ← s.discard object
      s.discardAll objects

def initializeScheduler (garbage : Bytes) (stale : Int) : Option Library :=
  claimAll contextSize
    { scheduler := .initializeScheduler stale
      memory := Allocator.initializeMemory garbage
      holder := fun _ => none }
    [.pageTables, .masterTable, .pageTable 0, .struct 0, .context 0]

/-- What `my_pthread_create` allocates: the first call a node for the main thread too. -/
def created (s : Library) (current : Nat) : List Object :=
  let t := s.scheduler.threadIDS
  [.struct t, .context t, .stack t, .node t] ++
    (if s.scheduler.mainEnqueued then [] else [.node current]) ++ [.pageTable t]

/-- The run ends where `pageTables` has no entry for the new thread. -/
def myPthreadCreate (s : Library) (stale : Int) : Option Library := do
  let current ← s.scheduler.current
  if s.scheduler.threadIDS < maxThreads then
    let s ← s.claimAll contextSize (s.created current)
    let (scheduler, _) ← s.scheduler.myPthreadCreate stale
    some { s with scheduler }
  else none

/-- The node that `my_pthread_exit` takes from a queue. -/
def removedNode (s : Scheduler) : Option QueueNode :=
  match s.queuePriority1.peek with
  | none => s.queuePriority2.peek
  | some queuePriority1Head =>
      if s.current = some queuePriority1Head.thread then some queuePriority1Head
      else s.queuePriority2.peek

def myPthreadExit (s : Library) (valuePtr : Int) : Option Library := do
  let released ←
    match removedNode s.scheduler with
    | none => some s
    | some removedNode => s.discard (.node removedNode.thread)
  let (scheduler, _) ← s.scheduler.myPthreadExit valuePtr
  some { released with scheduler }

def myPthreadYield (s : Library) : Option Library := do
  let (scheduler, _) ← s.scheduler.myPthreadYield
  some { s with scheduler }

/-- One round of `my_pthread_join`. -/
def myPthreadJoin (s : Library) (thread : Nat) : Option Library := do
  let (scheduler, _, value) ← s.scheduler.myPthreadJoin thread
  let s := { s with scheduler }
  match value with
  | none => some s
  | some _ =>
      s.discardAll [.pageTable thread, .stack thread, .context thread, .struct thread]

/-- A call of the running thread, a byte written into an object, or anything that
happens outside the OS region: user calls, faults and page moves. -/
inductive Event where
  | call (op : Scheduler.Op)
  | write (object : Object) (offset : Nat) (byte : UInt8)
  | elsewhere (memory : Bytes)

def Allowed (s : Library) : Event → Prop
  | .call _ => ∃ c, s.scheduler.current = some c
  | .write object offset _ => s.holder object ≠ none ∧ offset < object.size contextSize
  | .elsewhere memory => ∀ x, x < Allocator.osSize → memory x = s.memory x

def step (s : Library) : Event → Option Library
  | .call (.create stale) => s.myPthreadCreate contextSize stale
  | .call .yield => s.myPthreadYield
  | .call (.exit valuePtr) => s.myPthreadExit valuePtr
  | .call (.join thread) => s.myPthreadJoin thread
  | .write object offset byte => do
      let ptr ← s.holder object
      some { s with memory := fun x => if x = ptr + offset then byte else s.memory x }
  | .elsewhere memory => some { s with memory }

inductive Reachable : Library → Prop
  | create {s next : Library} (garbage : Bytes) (garbage' stale : Int) :
      initializeScheduler contextSize garbage garbage' = some s →
        s.step contextSize (.call (.create stale)) = some next → Reachable next
  | step {s next : Library} (event : Event) : Reachable s → s.Allowed contextSize event →
      s.step contextSize event = some next → Reachable next

inductive Run (first : Library) : Library → Prop
  | start : Run first first
  | step {s next : Library} (event : Event) : Run first s → s.Allowed contextSize event →
      s.step contextSize event = some next → Run first next

end Library

end RutgersOS.Assignment2
